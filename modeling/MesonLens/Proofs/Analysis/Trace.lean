import MesonLens.Analysis.Index
import MesonLens.Syntax.SourceFile
import Mathlib.Data.List.Basic

/-!
# `MesonLens.Proofs.Analysis.Trace`: the ways through a file

A way through a file is a `Trace`: the reads and bindings of variables in the order in
which they happen. `Tree.events` gives the one trace of an expression, whose operands are
evaluated from left to right. `Tree.paths` gives every trace of a statement: a selection
takes one of its branches, or none when no branch is always taken, and the body of a loop
runs zero times or once.

`Trace.after x known p` is what can be the last binding of `x` after the trace `p`, when
`known` could be the last one before it. `Explains x P known u` says that the origins of a
recorded read `u` are exactly the last bindings of `x` before that read on the traces `P`.
The lemmas on `Explains` follow how traces are put together: one part after another
(`Explains.seq_left`, `Explains.seq_right`), and a choice between two parts
(`Explains.choice_left`, `Explains.choice_right`).
-/

set_option autoImplicit false

namespace MesonLens

/-- What happens to a variable. -/
inductive Event where
  | read (node : Nat) (name : String)
  | bind (site : Origin) (name : String)
  deriving DecidableEq, Repr

/-- The site of a binding of the variable. -/
def Event.site? (x : String) : Event → Option Origin
  | read _ _ => none
  | bind site name => if name = x then some site else none

/-- A way through a part of a file. -/
abbrev Trace := List Event

namespace Trace

/-- The last binding of a variable on a way. -/
def lastBinding (x : String) : Trace → Option Origin
  | [] => none
  | e :: p => (lastBinding x p).or (e.site? x)

theorem lastBinding_append (x : String) (p q : Trace) :
    lastBinding x (p ++ q) = (lastBinding x q).or (lastBinding x p) := by
  induction p with
  | nil => simp [lastBinding]
  | cons e p ih => rw [List.cons_append, lastBinding, ih, lastBinding, Option.or_assoc]

/-- What can be the last binding of a variable after a way, when `known` could be the last
one before it. -/
def after (x : String) (known : List Origin) (p : Trace) : List Origin :=
  match lastBinding x p with
  | some o => [o]
  | none => known

@[simp] theorem after_nil (x : String) (known : List Origin) : after x known [] = known := rfl

@[simp] theorem after_read (x : String) (known : List Origin) (node : Nat) (name : String) :
    after x known [.read node name] = known := rfl

theorem after_append (x : String) (known : List Origin) (p q : Trace) :
    after x known (p ++ q) = after x (after x known p) q := by
  unfold after
  rw [lastBinding_append]
  cases lastBinding x q <;> rfl

/-- Only the members of `known` count. -/
theorem mem_after_congr {x : String} {known known' : List Origin} (p : Trace)
    (h : ∀ o, o ∈ known ↔ o ∈ known') (o : Origin) :
    o ∈ after x known p ↔ o ∈ after x known' p := by
  unfold after
  cases lastBinding x p with
  | none => exact h o
  | some _ => exact Iff.rfl

/-- A way on which the variable is not bound changes nothing. -/
theorem after_eq_self {x : String} (known : List Origin) {p : Trace}
    (h : ∀ e ∈ p, e.site? x = none) : after x known p = known := by
  have hlast : lastBinding x p = none := by
    induction p with
    | nil => rfl
    | cons e p ih =>
      rw [lastBinding, ih fun e' he' => h e' (by simp [he']), h e (by simp)]
      rfl
  rw [after, hlast]

/-- Each way of `P` followed by each way of `Q`. -/
def seq (P Q : List Trace) : List Trace := P.flatMap fun p => Q.map (p ++ ·)

theorem mem_seq {P Q : List Trace} {r : Trace} :
    r ∈ seq P Q ↔ ∃ p ∈ P, ∃ q ∈ Q, r = p ++ q := by
  simp only [seq, List.mem_flatMap, List.mem_map, eq_comm]

/-- The ways `P` exist, and they read the variable at the nodes `I` only. -/
structure ReadsIn (x : String) (P : List Trace) (I : List Nat) : Prop where
  exists_mem : ∃ p, p ∈ P
  mem_of_read : ∀ p ∈ P, ∀ n, .read n x ∈ p → n ∈ I

namespace ReadsIn

variable {x : String} {P Q : List Trace} {I J : List Nat}

theorem empty (x : String) : ReadsIn x [[]] [] :=
  ⟨⟨[], by simp⟩, by simp⟩

theorem mono (h : ReadsIn x P I) (hIJ : I ⊆ J) : ReadsIn x P J :=
  ⟨h.exists_mem, fun p hp n hn => hIJ (h.mem_of_read p hp n hn)⟩

theorem seq (hP : ReadsIn x P I) (hQ : ReadsIn x Q J) : ReadsIn x (seq P Q) (I ++ J) := by
  obtain ⟨p, hp⟩ := hP.exists_mem
  obtain ⟨q, hq⟩ := hQ.exists_mem
  refine ⟨⟨p ++ q, mem_seq.mpr ⟨p, hp, q, hq, rfl⟩⟩, ?_⟩
  intro r hr n hn
  obtain ⟨p, hp, q, hq, rfl⟩ := mem_seq.mp hr
  rcases List.mem_append.mp hn with hn | hn
  · exact List.mem_append_left _ (hP.mem_of_read p hp n hn)
  · exact List.mem_append_right _ (hQ.mem_of_read q hq n hn)

theorem choice (hP : ReadsIn x P I) (hQ : ReadsIn x Q J) : ReadsIn x (P ++ Q) (I ++ J) := by
  obtain ⟨p, hp⟩ := hP.exists_mem
  refine ⟨⟨p, by simp [hp]⟩, ?_⟩
  intro r hr n hn
  rcases List.mem_append.mp hr with hr | hr
  · exact List.mem_append_left _ (hP.mem_of_read r hr n hn)
  · exact List.mem_append_right _ (hQ.mem_of_read r hr n hn)

end ReadsIn

/-- What is known after some ways is known before those that follow. -/
theorem mem_after_iff_of_known {x : String} {P : List Trace} {known known' : List Origin}
    (hP : ∃ p, p ∈ P) (hknown : ∀ o, o ∈ known' ↔ ∃ p ∈ P, o ∈ after x known p) (q : Trace)
    (o : Origin) : o ∈ after x known' q ↔ ∃ p ∈ P, o ∈ after x known (p ++ q) := by
  simp only [after_append]
  unfold after
  cases lastBinding x q with
  | none => exact hknown o
  | some o' =>
    obtain ⟨p, hp⟩ := hP
    exact ⟨fun ho => ⟨p, hp, ho⟩, fun ⟨_, _, ho⟩ => ho⟩

end Trace

open Trace

/-- The origins of a recorded read of `x` are exactly the last bindings of `x` before that
read on the ways `P`, where `known` could be the last ones before these ways. -/
structure Explains (x : String) (P : List Trace) (known : List Origin) (u : IdentifierUse) :
    Prop where
  nodup : u.origins.Nodup
  occurs : ∃ p ∈ P, .read u.node x ∈ p
  mem_iff : ∀ o, o ∈ u.origins ↔
    ∃ p ∈ P, ∃ pre post, p = pre ++ .read u.node x :: post ∧ o ∈ after x known pre

namespace Explains

variable {x : String} {P Q : List Trace} {I : List Nat} {known : List Origin}
  {u : IdentifierUse}

/-- A read on the ways `P` is explained by `P` followed by ways that do not read at its
node. -/
theorem seq_right (h : Explains x P known u) (hQ : ReadsIn x Q I) (hu : u.node ∉ I) :
    Explains x (seq P Q) known u := by
  obtain ⟨q, hq⟩ := hQ.exists_mem
  refine ⟨h.nodup, ?_, fun o => (h.mem_iff o).trans ⟨?_, ?_⟩⟩
  · obtain ⟨p, hp, hread⟩ := h.occurs
    exact ⟨p ++ q, mem_seq.mpr ⟨p, hp, q, hq, rfl⟩, List.mem_append_left _ hread⟩
  · rintro ⟨p, hp, pre, post, rfl, ho⟩
    exact ⟨_, mem_seq.mpr ⟨_, hp, q, hq, rfl⟩, pre, post ++ q, by simp, ho⟩
  · rintro ⟨r, hr, pre, post, hsplit, ho⟩
    obtain ⟨p, hp, q', hq', rfl⟩ := mem_seq.mp hr
    -- The read is not in `q'`, so the cut at the read is inside `p`.
    rcases List.append_eq_append_iff.mp hsplit with ⟨as, -, hq''⟩ | ⟨bs, hp', hpost⟩
    · exact absurd (hQ.mem_of_read q' hq' u.node (by rw [hq'']; simp)) hu
    · cases bs with
      | nil =>
        have hmem : Event.read u.node x ∈ q' := by
          rw [List.nil_append] at hpost
          rw [← hpost]
          exact List.mem_cons_self
        exact absurd (hQ.mem_of_read q' hq' u.node hmem) hu
      | cons b bs =>
        obtain ⟨rfl, -⟩ := List.cons.inj hpost
        exact ⟨p, hp, pre, bs, hp', ho⟩

/-- A read on the ways `Q` is explained by ways that do not read at its node, followed by
`Q`. What is known before `Q` is what can be the last binding after those ways. -/
theorem seq_left {known' : List Origin} (h : Explains x Q known' u) (hP : ReadsIn x P I)
    (hu : u.node ∉ I) (hknown : ∀ o, o ∈ known' ↔ ∃ p ∈ P, o ∈ after x known p) :
    Explains x (seq P Q) known u := by
  have hafter := mem_after_iff_of_known hP.exists_mem hknown
  refine ⟨h.nodup, ?_, fun o => (h.mem_iff o).trans ⟨?_, ?_⟩⟩
  · obtain ⟨p, hp⟩ := hP.exists_mem
    obtain ⟨q, hq, hread⟩ := h.occurs
    exact ⟨p ++ q, mem_seq.mpr ⟨p, hp, q, hq, rfl⟩, List.mem_append_right _ hread⟩
  · rintro ⟨q, hq, pre, post, rfl, ho⟩
    obtain ⟨p, hp, ho⟩ := (hafter pre o).mp ho
    exact ⟨_, mem_seq.mpr ⟨p, hp, _, hq, rfl⟩, p ++ pre, post, by simp, ho⟩
  · rintro ⟨r, hr, pre, post, hsplit, ho⟩
    obtain ⟨p, hp, q, hq, rfl⟩ := mem_seq.mp hr
    -- The read is not in `p`, so all of `p` comes before the cut.
    rcases List.append_eq_append_iff.mp hsplit with ⟨as, hpre, hq'⟩ | ⟨bs, hp', hpost⟩
    · subst hpre
      exact ⟨q, hq, as, post, hq', (hafter as o).mpr ⟨p, hp, ho⟩⟩
    · cases bs with
      | nil =>
        rw [List.append_nil] at hp'
        rw [List.nil_append] at hpost
        subst hp'
        exact ⟨q, hq, [], post, hpost.symm, (hafter [] o).mpr ⟨p, hp, by simpa using ho⟩⟩
      | cons b bs =>
        obtain ⟨rfl, -⟩ := List.cons.inj hpost
        exact absurd (hP.mem_of_read p hp u.node (by rw [hp']; simp)) hu

/-- A read on the ways `P` is explained by the choice between `P` and ways that do not read
at its node. -/
theorem choice_left (h : Explains x P known u) (hQ : ∀ q ∈ Q, .read u.node x ∉ q) :
    Explains x (P ++ Q) known u := by
  refine ⟨h.nodup, ?_, fun o => (h.mem_iff o).trans ⟨?_, ?_⟩⟩
  · obtain ⟨p, hp, hread⟩ := h.occurs
    exact ⟨p, List.mem_append_left _ hp, hread⟩
  · rintro ⟨p, hp, hsplit⟩
    exact ⟨p, List.mem_append_left _ hp, hsplit⟩
  · rintro ⟨r, hr, pre, post, rfl, ho⟩
    rcases List.mem_append.mp hr with hr | hr
    · exact ⟨_, hr, pre, post, rfl, ho⟩
    · exact absurd (by simp) (hQ _ hr)

/-- The order of the ways does not matter. -/
theorem choice_right (h : Explains x Q known u) (hP : ∀ p ∈ P, .read u.node x ∉ p) :
    Explains x (P ++ Q) known u := by
  have hQP := h.choice_left hP
  have hcomm : ∀ r, r ∈ Q ++ P ↔ r ∈ P ++ Q := by
    intro r
    simp only [List.mem_append, or_comm]
  refine ⟨hQP.nodup, ?_, fun o => (hQP.mem_iff o).trans ?_⟩
  · obtain ⟨p, hp, hread⟩ := hQP.occurs
    exact ⟨p, (hcomm p).mp hp, hread⟩
  · simp only [hcomm]

/-- Only the members of `known` count. -/
theorem congr_known {known' : List Origin} (h : Explains x P known u)
    (hknown : ∀ o, o ∈ known ↔ o ∈ known') : Explains x P known' u := by
  refine ⟨h.nodup, h.occurs, fun o => (h.mem_iff o).trans ?_⟩
  simp only [mem_after_congr _ hknown]

end Explains

/-! ### The traces of expressions and statements -/

/-- The variable that a call names by a plain string as its first argument by place, with
the node of that string. -/
def Tree.variableSet? (call : Tree Mark) : Option (Tree Mark × String) :=
  if call.callName? = some "set_variable" then
    call.positionalArgs.head?.bind fun first => first.string?.map (first, ·)
  else none

/-- The site of a binding at a node of a file. -/
def Mark.site (file : Path) (m : Mark) : Origin := ⟨file, m.id, m.span⟩

/-- The bindings that a call makes. -/
def Tree.callBindings (file : Path) (call : Tree Mark) : Trace :=
  match call.variableSet? with
  | some (node, name) => [.bind (node.note.site file) name]
  | none => []

mutual

/-- The reads and bindings of an expression in the order of evaluation. The name of a
function, a method or a keyword is no variable. -/
def Tree.events (file : Path) : Tree Mark → Trace
  | .identifier mark name => [.read mark.id name]
  | .array _ elements => Tree.eventsAll file elements
  | .dictionary _ items => Tree.entryEvents file items
  | .unary _ _ operand => operand.events file
  | .binary _ left _ right => left.events file ++ right.events file
  -- Both arms are evaluated, whatever the condition is.
  | .conditional _ condition ifTrue ifFalse =>
    condition.events file ++ (ifTrue.events file ++ ifFalse.events file)
  | .subscript _ object index => object.events file ++ index.events file
  | .call mark callee (.arguments m items) =>
    Tree.argumentEvents file items ++
      (Tree.call mark callee (.arguments m items)).callBindings file
  | .call .. => []
  | .method _ object (.identifier _ _) (some (.arguments _ items)) =>
    object.events file ++ Tree.argumentEvents file items
  | .method _ object _ _ => object.events file
  | .boolean .. | .integer .. | .string .. | .file .. | .arguments .. | .assignment ..
  | .iteration .. | .entry .. | .keyword .. | .selection .. | .malformed .. | .breakLoop ..
  | .continueLoop .. => []

/-- The events of expressions in order. -/
def Tree.eventsAll (file : Path) : List (Tree Mark) → Trace
  | [] => []
  | t :: rest => t.events file ++ Tree.eventsAll file rest

/-- The events of the entries of a dictionary: a key, then its value. -/
def Tree.entryEvents (file : Path) : List (Tree Mark) → Trace
  | [] => []
  | .entry _ key value :: rest =>
    key.events file ++ (value.events file ++ Tree.entryEvents file rest)
  | _ :: rest => Tree.entryEvents file rest

/-- The events of the arguments of a call, by place and by name. -/
def Tree.argumentEvents (file : Path) : List (Tree Mark) → Trace
  | [] => []
  | .keyword _ _ value :: rest => value.events file ++ Tree.argumentEvents file rest
  | item :: rest => item.events file ++ Tree.argumentEvents file rest

end

/-- The bindings of the variables of a loop in order. -/
def Tree.loopBindings (file : Path) : List (Tree Mark) → Trace
  | [] => []
  | .identifier mark name :: rest => .bind (mark.site file) name :: Tree.loopBindings file rest
  | _ :: rest => Tree.loopBindings file rest

/-- The binding that an assignment makes. An operator changes what a variable holds, and is
no binding. -/
def Tree.assignmentBindings (file : Path) (target : Tree Mark) (op : AssignOp) : Trace :=
  match target, op with
  | .identifier mark name, .assign => [.bind (mark.site file) name]
  | _, _ => []

mutual

/-- The ways through a statement. -/
def Tree.paths (file : Path) : Tree Mark → List Trace
  | .assignment _ target op value =>
    [value.events file ++ Tree.assignmentBindings file target op]
  | .selection _ bs => bs.paths file
  -- The body runs zero times or once.
  | .iteration _ names iterable body =>
    seq [iterable.events file]
      ([[]] ++ seq [Tree.loopBindings file names] (Tree.pathsAll file body))
  | .breakLoop _ | .continueLoop _ | .malformed _ _ => [[]]
  | t => [t.events file]

/-- The ways through statements in order. -/
def Tree.pathsAll (file : Path) : List (Tree Mark) → List Trace
  | [] => [[]]
  | t :: rest => seq (t.paths file) (Tree.pathsAll file rest)

/-- The ways through a selection: the conditions are evaluated up to the one whose block is
taken, or all of them. -/
def Branches.paths (file : Path) : Branches Mark → List Trace
  | .done => [[]]
  | .otherwise body => Tree.pathsAll file body
  | .arm condition body rest =>
    seq [condition.events file] (Tree.pathsAll file body ++ rest.paths file)

end

/-- The ways through a whole file. -/
def SourceFile.paths (f : SourceFile) (file : Path) : List Trace :=
  match f.root with
  | .file _ statements => Tree.pathsAll file statements
  | _ => [[]]

end MesonLens
