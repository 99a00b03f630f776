import MesonLens.Proofs.Analysis.Acts
import MesonLens.Proofs.Analysis.Checks

/-!
# `MesonLens.Proofs.Analysis.Entries`: what an act adds to the lists

The analysis fills eight lists: those of the index, and the one of the nodes with known types. An
`IndexEntry` is an item of one of them without what its evaluation gave, so that it can be read off
the tree as well. `Act.entries` tells which entries an act makes.

* `Analyze.Adds`: a step adds the given entries to the lists, each at the end of its own, and
  nothing else. `Adds.bind` puts two steps one after the other;
* `Analyze.adds_perform`: an act adds its entries;
* `Analyze.play_listed`: a run of acts adds the entries of all of them, in order.
-/

set_option autoImplicit false

namespace MesonLens

/-- A list that the analysis fills. -/
inductive Listing where
  | identifiers | calls | methodCalls | keywords | includes | strings | assignments | types
  deriving DecidableEq, Repr

/-- An item of a list, without the types that were found for it. -/
inductive IndexEntry where
  | identifier (mark : Mark) (name : String)
  | call (mark : Mark) (name : String) (nameSpan : Span) (function : Option (Signature TypeSet))
  | method (mark : Mark) (name : String) (nameSpan : Span)
  /-- A keyword argument with the call that it is an argument of, if there is one. -/
  | keyword (node : Nat) (nameSpan : Span) (name : String) (call : Option Mark)
  | inclusion (mark : Mark)
  | string (mark : Mark) (value : String)
  /-- A name with the assignment or loop that binds it. -/
  | assignment (statement target : Mark) (name : String)
  /-- A node whose types are known. -/
  | typed (node : Nat)

namespace IndexEntry

/-- The list that the entry belongs to. -/
def listing : IndexEntry → Listing
  | identifier .. => .identifiers
  | call .. => .calls
  | method .. => .methodCalls
  | keyword .. => .keywords
  | inclusion .. => .includes
  | string .. => .strings
  | assignment .. => .assignments
  | typed .. => .types

/-- The number of the node that the entry is for. -/
def node : IndexEntry → Nat
  | identifier mark _ | call mark _ _ _ | method mark _ _ | inclusion mark | string mark _
  | assignment _ mark _ => mark.id
  | keyword node _ _ _ | typed node => node

/-- The entries for a list. -/
def on (l : Listing) (es : List IndexEntry) : List IndexEntry := es.filter (·.listing = l)

theorem on_append (l : Listing) (es es' : List IndexEntry) :
    on l (es ++ es') = on l es ++ on l es' :=
  List.filter_append ..

end IndexEntry

/-! ### The lists of an analysis -/

/-- The entries of a list of the analysis, in the order in which they were made. -/
def Analysis.listed (a : Analysis) : Listing → List IndexEntry
  | .identifiers => a.index.identifiers.map fun u => .identifier ⟨u.node, u.span⟩ u.name
  | .calls => a.index.calls.map fun u => .call ⟨u.node, u.span⟩ u.name u.nameSpan u.function
  | .methodCalls => a.index.methodCalls.map fun u => .method ⟨u.node, u.span⟩ u.name u.nameSpan
  | .keywords => a.index.keywords.map fun u => .keyword u.node u.span u.name (some u.call)
  | .includes => a.index.includes.map fun u => .inclusion ⟨u.node, u.span⟩
  | .strings => a.index.strings.map fun u => .string ⟨u.node, u.span⟩ u.value
  | .assignments =>
    a.index.assignments.map fun u => .assignment u.node ⟨u.target, u.span⟩ u.name
  | .types => a.types.reverse.map fun p => .typed p.1

namespace Analyze

variable {α β : Type}

/-- The step adds the entries to the lists, each to the end of its own, and changes no list
otherwise. -/
def Adds (m : Analyze α) (es : List IndexEntry) : Prop :=
  ∀ a l, (m.run a).2.listed l = a.listed l ++ IndexEntry.on l es

namespace Adds

variable {m : Analyze α} {k : α → Analyze β} {es es' : List IndexEntry}

/-- A step that keeps the index and the types. -/
theorem nothing (h : ∀ a, (m.run a).2.index = a.index ∧ (m.run a).2.types = a.types) :
    Adds m [] := by
  intro a l
  obtain ⟨hindex, htypes⟩ := h a
  rw [IndexEntry.on, List.filter_nil, List.append_nil]
  cases l with
  | types => rw [Analysis.listed, htypes, Analysis.listed]
  | _ => rw [Analysis.listed, hindex, Analysis.listed]

theorem of_checks (h : Checks m) : Adds m [] := by
  refine nothing fun a => ?_
  obtain ⟨problems, hproblems⟩ := h a
  rw [hproblems]
  exact ⟨rfl, rfl⟩

theorem modifyScope (f : Scope → Scope) : Adds (Analyze.modifyScope f) [] :=
  nothing fun _ => ⟨rfl, rfl⟩

theorem bind (hm : Adds m es) (hk : ∀ v, Adds (k v) es') : Adds (m >>= k) (es ++ es') := by
  intro a l
  rw [IndexEntry.on_append, ← List.append_assoc, ← hm a l]
  exact hk _ _ l

theorem after_nothing (hm : Adds m []) (hk : ∀ v, Adds (k v) es) : Adds (m >>= k) es :=
  hm.bind hk

theorem then_nothing (hm : Adds m es) (hk : ∀ v, Adds (k v) []) : Adds (m >>= k) es := by
  have hboth := hm.bind hk
  rwa [List.append_nil] at hboth

theorem record (mark : Mark) (types : TypeSet) :
    Adds (Analyze.record mark types) [.typed mark.id] := by
  intro a l
  cases l with
  | types =>
    show ((mark.id, types) :: a.types).reverse.map _ = _
    rw [List.reverse_cons, List.map_append]
    rfl
  | _ => exact (List.append_nil _).symm

end Adds

/-! ### Steps -/

/-- The entry of a call, after that of the inclusion that it makes when it names `subdir`. -/
def callEntries (catalog : Catalog) (mark : Mark) (callee : Tree Mark) : List IndexEntry :=
  let name := callee.identifier?.getD ""
  (if name = "subdir" then [.inclusion mark] else []) ++
    [.call mark name callee.span (catalog.function? name)]

/-- The use of a variable is noted at its node, known or not. -/
theorem adds_readVariable (mark : Mark) (name : String) :
    Adds (readVariable mark name) [.identifier mark name] := by
  unfold readVariable
  extract_lets done
  have hdone : ∀ binding, Adds (done binding) [.identifier mark name] := by
    intro binding
    refine .then_nothing (fun a l => ?_) fun _ => .of_checks (.pure _)
    cases l with
    | identifiers => exact List.map_append
    | _ => exact (List.append_nil _).symm
  clear_value done
  refine .after_nothing (.of_checks .get) fun a => ?_
  split
  · exact hdone _
  · exact .after_nothing (.of_checks (.report _ _)) fun _ => hdone _

theorem adds_readString (mark : Mark) (value : String) (format : Bool) :
    Adds (readString mark value format) [.string mark value] := by
  unfold readString
  refine .then_nothing (fun a l => ?_) fun _ => ?_
  · cases l with
    | strings => exact List.map_append
    | _ => exact (List.append_nil _).symm
  · split
    · exact .of_checks (.checkPlaceholders _ _)
    · exact .of_checks (.pure _)

theorem adds_includeDirectory (call : Mark) (args : CallArgs) :
    Adds (includeDirectory call args) [.inclusion call] := by
  unfold includeDirectory
  refine .then_nothing (fun a l => ?_) fun _ => ?_
  · cases l with
    | includes => exact List.map_append
    | _ => exact (List.append_nil _).symm
  · split
    · exact .nothing fun _ => ⟨rfl, rfl⟩
    · split
      · exact .of_checks (.pure _)
      · exact .of_checks (.report _ _)

/-- Of the functions that the analysis knows, only `subdir` adds an entry of its own. -/
theorem adds_special (ctx : Context) (call : Mark) (name : String) (args : CallArgs) :
    Adds (special ctx call name args) (if name = "subdir" then [.inclusion call] else []) := by
  unfold special
  split
  · exact .of_checks (.importModule _ _)
  · exact .of_checks (.getVariable _)
  · refine .then_nothing ?_ fun _ => .of_checks (.pure _)
    unfold setVariable
    split
    · exact .of_checks (.pure _)
    · exact .modifyScope _
  · exact (adds_includeDirectory call args).then_nothing fun _ => .of_checks (.pure _)
  · next hname =>
    rw [if_neg hname]
    exact .of_checks (.pure _)

theorem adds_callFunction (ctx : Context) (call : Mark) (callee : Tree Mark) (args : CallArgs) :
    Adds (callFunction ctx call callee (ctx.callee callee) args)
      (callEntries ctx.catalog call callee) := by
  unfold callFunction
  extract_lets name done
  have hdone : ∀ declared, Adds (done declared) (callEntries ctx.catalog call callee) := by
    intro declared
    refine (adds_special ctx call name args).bind fun _ => ?_
    refine .then_nothing (fun a l => ?_) fun _ => .of_checks (.pure _)
    cases l with
    | calls => exact List.map_append
    | _ => exact (List.append_nil _).symm
  clear_value done
  split
  · exact .after_nothing (.of_checks (.checkCall _ _ _ _)) fun _ => hdone _
  · exact .after_nothing (.of_checks (.report _ _)) fun _ => hdone _

theorem adds_callMethod (ctx : Context) (call : Mark) (member : Tree Mark) (name : String)
    (receiver : TypeSet) (found : List (Ty × Signature TypeSet)) (args : CallArgs) :
    Adds (callMethod ctx call member name receiver found args)
      [.method call name member.span] := by
  unfold callMethod
  extract_lets methods unchecked types done check
  have hdone : ∀ u, Adds (done u) [.method call name member.span] := by
    intro u
    refine .then_nothing (fun a l => ?_) fun _ => .of_checks (.pure _)
    cases l with
    | methodCalls => exact List.map_append
    | _ => exact (List.append_nil _).symm
  -- From here on `hdone` says what is needed of `done`.
  clear_value done methods
  have hcheck : ∀ u, Adds (check u) [.method call name member.span] := by
    intro u
    unfold check
    split
    · exact .after_nothing (.of_checks (.checkCall _ _ _ _)) hdone
    · exact hdone _
  split
  · exact .after_nothing (.of_checks (.report _ _)) hcheck
  · exact hcheck ()

/-- A name that is bound is listed as a use and as an assignment, and has types. -/
def boundEntries (node target : Mark) (name : String) : List IndexEntry :=
  [.typed target.id, .assignment node target name, .identifier target name]

theorem adds_recordBinding (node target : Mark) (name : String) (types : TypeSet) :
    Adds (recordBinding node target name types) (boundEntries node target name) := by
  unfold recordBinding
  refine .after_nothing (.of_checks .get) fun a => ?_
  extract_lets origins
  have hrecord : Adds (discard (record target types)) [.typed target.id] := Adds.record target types
  refine hrecord.bind fun _ a l => ?_
  cases l with
  | identifiers => exact List.map_append
  | assignments => exact List.map_append
  | _ => exact (List.append_nil _).symm

theorem adds_bindVariable (ctx : Context) (node target : Mark) (name : String) (op : AssignOp)
    (types : TypeSet) :
    Adds (bindVariable ctx node target name op types) (boundEntries node target name) := by
  unfold bindVariable
  extract_lets origin
  split
  · exact .after_nothing (.modifyScope _) fun _ => adds_recordBinding _ _ _ _
  · next binary hop =>
    have hdone : ∀ current, Adds (do
        modifyScope (·.update name (binary.result current types) origin)
        recordBinding node target name (binary.result current types))
        (boundEntries node target name) :=
      fun _ => .after_nothing (.modifyScope _) fun _ => adds_recordBinding _ _ _ _
    refine .after_nothing (.of_checks .get) fun a => ?_
    split
    · exact hdone _
    · exact .after_nothing (.of_checks (.report _ _)) fun _ => hdone _

/-! ### Acts -/

/-- The entries that the act makes. -/
def Act.entries (catalog : Catalog) : Act → List IndexEntry
  | record mark _ => [.typed mark.id]
  | read mark name => [.identifier mark name]
  | string mark value _ _ => [.string mark value]
  | keyword mark key _ owner _ =>
    [.keyword mark.id key.span (key.identifier?.getD "") (some owner)]
  | call mark callee _ _ => callEntries catalog mark callee
  | method mark _ member name _ _ _ => [.method mark name member.span]
  | bind node target name _ _ => boundEntries node target name
  | report .. | enter .. => []

/-- An act adds its entries to the lists. -/
theorem adds_perform (ctx : Context) (act : Act) :
    Adds (act.perform ctx) (act.entries ctx.catalog) := by
  cases act with
  | record mark types => exact Adds.record mark types
  | read mark name => exact adds_readVariable mark name
  | string mark value format => exact adds_readString mark value format
  | keyword mark key value owner function =>
    intro a l
    cases l with
    | keywords => exact List.map_append
    | _ => exact (List.append_nil _).symm
  | call mark callee args values => exact adds_callFunction ctx mark callee values
  | method mark object member name args receiver values => exact adds_callMethod _ _ _ _ _ _ _
  | bind node target name op types => exact adds_bindVariable _ _ _ _ _ _
  | report problem span => exact .of_checks (.report problem span)
  | enter scope => exact .modifyScope _

/-- A run of acts adds their entries to the lists, in order. -/
theorem play_listed (ctx : Context) (list : List Act) (a : Analysis) (l : Listing) :
    (play ctx list a).listed l =
      a.listed l ++ IndexEntry.on l (list.flatMap (Act.entries ctx.catalog)) := by
  induction list generalizing a with
  | nil => exact (List.append_nil _).symm
  | cons act list ih =>
    show (play ctx list (act.after ctx a)).listed l = _
    rw [ih, Act.after, adds_perform ctx act a l, List.flatMap_cons, IndexEntry.on_append,
      List.append_assoc]

end Analyze

end MesonLens
