import MesonLens.Proofs.Analysis.Checks
import MesonLens.Proofs.Analysis.Scope
import MesonLens.Proofs.Analysis.Trace
import MesonLens.Proofs.Syntax.Numbering
import Mathlib.Data.List.Nodup

/-!
# `MesonLens.Proofs.Analysis.Tracking`: an expression follows its trace

The analysis is a state walk, and only two parts of its state matter for where a variable
comes from: the scope and the list of the uses of variables. `Frames` says that a step
leaves both alone, as the checks of calls do.

`Tracks T x m P I` says that the step `m` follows the variable `x` along the ways `P`:
after the step, `x` comes from exactly the last bindings on these ways, and every use of
`x` that the step notes at a node outside `T` is explained by them (`Explains`). `I` are
the nodes whose reads the ways hold; `T` is for the nodes that name a variable to bind it.
`Tracks.bind` puts two steps one after the other, provided that they read at different
nodes.

`Analyze.tracks_expr` is the result: evaluating an expression follows its trace.
-/

set_option autoImplicit false

namespace MesonLens

namespace Analyze

open Trace

variable {α β : Type}

/-! ### Steps that change neither the scope nor the uses of variables -/

/-- The step leaves the scope and the uses of variables alone. -/
def Frames (m : Analyze α) : Prop :=
  ∀ a, (m.run a).2.scope = a.scope ∧ (m.run a).2.index.identifiers = a.index.identifiers

namespace Frames

theorem pure (v : α) : Frames (Pure.pure v : Analyze α) := fun _ => ⟨rfl, rfl⟩

theorem get : Frames (MonadState.get : Analyze Analysis) := fun _ => ⟨rfl, rfl⟩

theorem bind {m : Analyze α} {k : α → Analyze β} (hm : Frames m) (hk : ∀ v, Frames (k v)) :
    Frames (m >>= k) := by
  intro a
  have h₁ := hm a
  have h₂ := hk (m.run a).1 (m.run a).2
  exact ⟨h₂.1.trans h₁.1, h₂.2.trans h₁.2⟩

/-- A check leaves both alone. -/
theorem of_checks {m : Analyze α} (h : Checks m) : Frames m := by
  intro a
  obtain ⟨problems, hproblems⟩ := h a
  rw [hproblems]
  exact ⟨rfl, rfl⟩

theorem report (problem : Problem) (span : Span) : Frames (Analyze.report problem span) :=
  of_checks (.report problem span)

theorem record (mark : Mark) (types : TypeSet) : Frames (Analyze.record mark types) :=
  fun _ => ⟨rfl, rfl⟩

theorem note {f : Index → Index} (h : ∀ i, (f i).identifiers = i.identifiers) :
    Frames (Analyze.note f) := fun a => ⟨rfl, h a.index⟩

theorem readString (mark : Mark) (value : String) (format : Bool) :
    Frames (Analyze.readString mark value format) := by
  unfold Analyze.readString
  refine bind (note fun _ => rfl) fun _ => ?_
  split
  · exact of_checks (.checkPlaceholders _ _)
  · exact pure _

theorem checkCall (ctx : Context) (f : Signature TypeSet) (args : CallArgs) (span : Span) :
    Frames (Analyze.checkCall ctx f args span) := of_checks (.checkCall ctx f args span)

theorem includeDirectory (call : Mark) (args : CallArgs) :
    Frames (Analyze.includeDirectory call args) := by
  unfold Analyze.includeDirectory
  refine bind (note fun _ => rfl) fun _ => ?_
  split
  · exact fun _ => ⟨rfl, rfl⟩
  · split
    · exact pure _
    · exact report _ _

theorem callMethod (ctx : Context) (call : Mark) (member : Tree Mark) (name : String)
    (receiver : TypeSet) (found : List (Ty × Signature TypeSet)) (args : CallArgs) :
    Frames (Analyze.callMethod ctx call member name receiver found args) := by
  unfold Analyze.callMethod
  extract_lets methods unchecked types done check
  have hdone : ∀ u, Frames (done u) := fun _ => bind (note fun _ => rfl) fun _ => pure _
  clear_value done methods
  have hcheck : ∀ u, Frames (check u) := by
    intro u
    unfold check
    split
    · exact (checkCall _ _ _ _).bind hdone
    · exact hdone _
  split
  · exact (report _ _).bind hcheck
  · exact hcheck ()

end Frames

/-! ### Steps along ways -/

/-- The uses of `x` that were noted between two states of the analysis. Each is at a node of
`I`, and is in `T` or explained by the ways `P`. Every read on these ways was noted. -/
def Noted (T : Nat → Prop) (x : String) (P : List Trace) (I : List Nat) (known : List Origin)
    (a b : Analysis) : Prop :=
  ∃ news, b.index.identifiers = a.index.identifiers ++ news ∧
    (∀ u ∈ news, u.name = x → u.node ∈ I ∧ (T u.node ∨ Explains x P known u)) ∧
    ∀ p ∈ P, ∀ n, .read n x ∈ p → ∃ u ∈ news, u.node = n ∧ u.name = x

namespace Noted

variable {T : Nat → Prop} {x : String} {P Q : List Trace} {I J : List Nat}
  {known known' : List Origin} {a b c : Analysis}

theorem nothing (h : b.index.identifiers = a.index.identifiers) :
    Noted T x [[]] [] known a b :=
  ⟨[], by simp [h], by simp, by simp⟩

theorem mono (h : Noted T x P I known a b) (hIJ : I ⊆ J) : Noted T x P J known a b := by
  obtain ⟨news, hnews, hex, hall⟩ := h
  exact ⟨news, hnews, fun u hu hx => ⟨hIJ (hex u hu hx).1, (hex u hu hx).2⟩, hall⟩

/-- Two parts of a file one after the other. -/
theorem seq (hP : Noted T x P I known a b) (hQ : Noted T x Q J known' b c)
    (rP : ReadsIn x P I) (rQ : ReadsIn x Q J) (hd : I.Disjoint J)
    (hknown : ∀ o, o ∈ known' ↔ ∃ p ∈ P, o ∈ after x known p) :
    Noted T x (Trace.seq P Q) (I ++ J) known a c := by
  obtain ⟨newsP, hnewsP, hexP, hallP⟩ := hP
  obtain ⟨newsQ, hnewsQ, hexQ, hallQ⟩ := hQ
  -- A use belongs to one part only, since the parts share no node, and the other part does not read
  -- it.
  refine ⟨newsP ++ newsQ, by simp [hnewsQ, hnewsP], ?_, ?_⟩
  · intro u hu hx
    rcases List.mem_append.mp hu with hu | hu
    · obtain ⟨hI, hT⟩ := hexP u hu hx
      refine ⟨List.mem_append_left _ hI, hT.imp_right fun h => ?_⟩
      exact h.seq_right rQ fun hJ => hd hI hJ
    · obtain ⟨hJ, hT⟩ := hexQ u hu hx
      refine ⟨List.mem_append_right _ hJ, hT.imp_right fun h => ?_⟩
      exact h.seq_left rP (fun hI => hd hI hJ) hknown
  · intro r hr n hn
    obtain ⟨p, hp, q, hq, rfl⟩ := mem_seq.mp hr
    rcases List.mem_append.mp hn with hn | hn
    · obtain ⟨u, hu, h⟩ := hallP p hp n hn
      exact ⟨u, List.mem_append_left _ hu, h⟩
    · obtain ⟨u, hu, h⟩ := hallQ q hq n hn
      exact ⟨u, List.mem_append_right _ hu, h⟩

/-- Two parts of a file of which one is taken; both are analyzed. -/
theorem choice (hP : Noted T x P I known a b) (hQ : Noted T x Q J known b c)
    (rP : ReadsIn x P I) (rQ : ReadsIn x Q J) (hd : I.Disjoint J) :
    Noted T x (P ++ Q) (I ++ J) known a c := by
  obtain ⟨newsP, hnewsP, hexP, hallP⟩ := hP
  obtain ⟨newsQ, hnewsQ, hexQ, hallQ⟩ := hQ
  -- Both parts start from the same origins, and a use belongs to one of them only.
  refine ⟨newsP ++ newsQ, by simp [hnewsQ, hnewsP], ?_, ?_⟩
  · intro u hu hx
    rcases List.mem_append.mp hu with hu | hu
    · obtain ⟨hI, hT⟩ := hexP u hu hx
      refine ⟨List.mem_append_left _ hI, hT.imp_right fun h => h.choice_left ?_⟩
      exact fun q hq hread => hd hI (rQ.mem_of_read q hq _ hread)
    · obtain ⟨hJ, hT⟩ := hexQ u hu hx
      refine ⟨List.mem_append_right _ hJ, hT.imp_right fun h => h.choice_right ?_⟩
      exact fun p hp hread => hd (rP.mem_of_read p hp _ hread) hJ
  · intro r hr n hn
    rcases List.mem_append.mp hr with hr | hr
    · obtain ⟨u, hu, h⟩ := hallP r hr n hn
      exact ⟨u, List.mem_append_left _ hu, h⟩
    · obtain ⟨u, hu, h⟩ := hallQ r hr n hn
      exact ⟨u, List.mem_append_right _ hu, h⟩

end Noted

/-- What a step along the ways `P` does to a state of the analysis. -/
structure Effect (T : Nat → Prop) (x : String) (P : List Trace) (I : List Nat)
    (a b : Analysis) : Prop where
  tidy : b.scope.Tidy x
  mem_iff : ∀ o, o ∈ b.scope.originsOf x ↔ ∃ p ∈ P, o ∈ after x (a.scope.originsOf x) p
  noted : Noted T x P I (a.scope.originsOf x) a b

/-- The step follows the variable `x` along the ways `P`, which read it at nodes of `I`. -/
structure Tracks (T : Nat → Prop) (x : String) (m : Analyze α) (P : List Trace) (I : List Nat) :
    Prop where
  reads : ReadsIn x P I
  effect : ∀ a, a.scope.Tidy x → Effect T x P I a (m.run a).2

namespace Effect

variable {T : Nat → Prop} {x : String} {P Q : List Trace} {I J : List Nat} {a b c : Analysis}

theorem mono (h : Effect T x P I a b) (hIJ : I ⊆ J) : Effect T x P J a b :=
  ⟨h.tidy, h.mem_iff, h.noted.mono hIJ⟩

theorem seq (hP : Effect T x P I a b) (hQ : Effect T x Q J b c) (rP : ReadsIn x P I)
    (rQ : ReadsIn x Q J) (hd : I.Disjoint J) : Effect T x (Trace.seq P Q) (I ++ J) a c := by
  refine ⟨hQ.tidy, fun o => ?_, hP.noted.seq hQ.noted rP rQ hd hP.mem_iff⟩
  rw [hQ.mem_iff]
  have hafter := mem_after_iff_of_known rP.exists_mem hP.mem_iff
  constructor
  · rintro ⟨q, hq, ho⟩
    obtain ⟨p, hp, ho⟩ := (hafter q o).mp ho
    exact ⟨p ++ q, mem_seq.mpr ⟨p, hp, q, hq, rfl⟩, ho⟩
  · rintro ⟨r, hr, ho⟩
    obtain ⟨p, hp, q, hq, rfl⟩ := mem_seq.mp hr
    exact ⟨q, hq, (hafter q o).mpr ⟨p, hp, ho⟩⟩

end Effect

namespace Tracks

variable {T : Nat → Prop} {x : String} {m : Analyze α} {k : α → Analyze β} {P Q : List Trace}
  {I J : List Nat}

theorem mono (h : Tracks T x m P I) (hIJ : I ⊆ J) : Tracks T x m P J :=
  ⟨h.reads.mono hIJ, fun a ha => (h.effect a ha).mono hIJ⟩

theorem discard (h : Tracks T x m P I) : Tracks T x (Functor.discard m) P I :=
  ⟨h.reads, h.effect⟩

theorem of_frames (h : Frames m) : Tracks T x m [[]] [] := by
  refine ⟨.empty x, fun a ha => ?_⟩
  obtain ⟨hscope, hids⟩ := h a
  exact ⟨hscope ▸ ha, fun o => by simp [hscope], .nothing hids⟩

/-- Two steps one after the other. The second may depend on what the first can give. -/
theorem bind (hm : Tracks T x m P I) (hk : ∀ s, Tracks T x (k (m.run s).1) Q J)
    (hd : I.Disjoint J) : Tracks T x (m >>= k) (Trace.seq P Q) (I ++ J) := by
  refine ⟨hm.reads.seq (hk {}).reads, fun a ha => ?_⟩
  have hP := hm.effect a ha
  exact hP.seq ((hk a).effect _ hP.tidy) hm.reads (hk a).reads hd

theorem frames_bind (hm : Frames m) (hk : ∀ s, Tracks T x (k (m.run s).1) P I) :
    Tracks T x (m >>= k) P I := by
  have h := (of_frames (T := T) (x := x) hm).bind hk (List.disjoint_nil_left _)
  simpa [Trace.seq] using h

theorem bind_frames (hm : Tracks T x m P I) (hk : ∀ v, Frames (k v)) :
    Tracks T x (m >>= k) P I := by
  have h := hm.bind (fun s => of_frames (hk _)) (List.disjoint_nil_right _)
  simpa [Trace.seq] using h

/-- Steps with one way each. -/
theorem bind_single {p q : Trace} (hm : Tracks T x m [p] I)
    (hk : ∀ s, Tracks T x (k (m.run s).1) [q] J) (hd : I.Disjoint J) :
    Tracks T x (m >>= k) [p ++ q] (I ++ J) := hm.bind hk hd

end Tracks

/-! ### Reading and binding a variable -/

variable (T : Nat → Prop) (x : String)

theorem tracks_readVariable (mark : Mark) (name : String) :
    Tracks T x (readVariable mark name) [[.read mark.id name]] [mark.id] := by
  refine ⟨⟨⟨_, List.mem_singleton_self _⟩, by simp⟩, fun a ha => ?_⟩
  have hrun : ∃ types, ((readVariable mark name).run a).2.scope = a.scope ∧
      ((readVariable mark name).run a).2.index.identifiers = a.index.identifiers ++
        [⟨mark.id, mark.span, name, types, a.scope.originsOf name⟩] := by
    unfold readVariable Scope.originsOf
    cases hget : a.scope.get? name with
    | none =>
      refine ⟨{}, ?_⟩
      simp only [StateT.run_bind, StateT.run_get, pure_bind, hget]
      exact ⟨rfl, rfl⟩
    | some b =>
      refine ⟨b.types, ?_⟩
      simp only [StateT.run_bind, StateT.run_get, pure_bind, hget]
      exact ⟨rfl, rfl⟩
  obtain ⟨types, hscope, hids⟩ := hrun
  refine ⟨hscope ▸ ha, fun o => by simp [hscope], _, hids, ?_, ?_⟩
  · intro u hu hx
    rw [List.mem_singleton] at hu
    subst hu
    change name = x at hx
    subst hx
    refine ⟨List.mem_singleton_self _, .inr ⟨ha.nodup, ⟨_, List.mem_singleton_self _, by simp⟩, ?_⟩⟩
    -- Nothing comes before the read, so the variable has the origins that it had at the start.
    intro o
    simp only [List.mem_singleton, exists_eq_left]
    constructor
    · exact fun ho => ⟨[], [], rfl, ho⟩
    · rintro ⟨pre, post, hsplit, ho⟩
      have hpre : pre = [] := by
        rcases List.append_eq_singleton_iff.mp hsplit.symm with ⟨h, -⟩ | ⟨-, h⟩
        · exact h
        · cases h
      subst hpre
      exact ho
  · intro p hp n hn
    rw [List.mem_singleton] at hp
    subst hp
    simp only [List.mem_singleton, Event.read.injEq] at hn
    exact ⟨_, List.mem_singleton_self _, hn.1.symm, hn.2.symm⟩

theorem tracks_assign (name : String) (types : TypeSet) (site : Origin) :
    Tracks T x (modifyScope (·.assign name types (some site))) [[.bind site name]] [] := by
  refine ⟨⟨⟨_, List.mem_singleton_self _⟩, by simp⟩, fun a ha => ?_⟩
  refine ⟨ha.set name fun _ => by simp, fun o => ?_, [],
    (List.append_nil _).symm, by simp, by simp⟩
  change o ∈ (a.scope.set name ⟨types, [site]⟩).originsOf x ↔ _
  simp only [List.mem_singleton, exists_eq_left]
  by_cases hx : x = name
  · subst hx
    simp [after, lastBinding, Event.site?]
  · rw [Scope.originsOf_set_of_ne _ hx]
    simp [after, lastBinding, Event.site?, Ne.symm hx]

/-- The bindings that `set_variable` makes with evaluated arguments. -/
def CallArgs.bindings (file : Path) (args : CallArgs) : Trace :=
  match args.literal? 0 with
  | some (node, name) => [.bind (node.note.site file) name]
  | none => []

theorem tracks_setVariable (ctx : Context) (args : CallArgs) :
    Tracks T x (setVariable ctx args) [args.bindings ctx.file] [] := by
  unfold setVariable CallArgs.bindings
  cases args.literal? 0 with
  | none => exact .of_frames (.pure _)
  | some literal => exact tracks_assign T x _ _ _

/-- A function binds a variable only if it is `set_variable`. -/
theorem tracks_callFunction (ctx : Context) (call : Mark) (callee : Tree Mark)
    (function : Option (Signature TypeSet)) (args : CallArgs) :
    Tracks T x (callFunction ctx call callee function args)
      [if callee.identifier? = some "set_variable" then args.bindings ctx.file else []] [] := by
  have hspecial : Tracks T x (special ctx call (callee.identifier?.getD "") args)
      [if callee.identifier? = some "set_variable" then args.bindings ctx.file else []] [] := by
    by_cases hset : callee.identifier? = some "set_variable"
    · rw [if_pos hset, hset]
      exact (tracks_setVariable T x ctx args).bind_frames fun _ => .pure _
    · -- The other functions that the analysis knows leave the variables alone.
      rw [if_neg hset]
      refine .of_frames ?_
      unfold special
      split
      · exact .of_checks (.importModule _ _)
      · exact .of_checks (.getVariable _)
      · rename_i hname
        cases hid : callee.identifier? with
        | none => simp [hid] at hname
        | some name => exact absurd (by simpa [hid] using hname) (by simpa [hid] using hset)
      · exact (Frames.includeDirectory _ _).bind fun _ => .pure _
      · exact .pure _
  unfold callFunction
  extract_lets name done
  have hdone : ∀ declared, Tracks T x (done declared) _ [] := fun declared =>
    hspecial.bind_frames fun _ => .bind (.note fun _ => rfl) fun _ => .pure _
  clear_value done
  split
  · exact .frames_bind (.checkCall _ _ _ _) fun _ => hdone _
  · exact .frames_bind (.report _ _) fun _ => hdone _

/-- Every variable of a loop holds something. -/
theorem length_loopTypes (count : Nat) (iterable : TypeSet) :
    (loopTypes count iterable).1.length = count := by
  unfold loopTypes
  split
  · simp
  · split <;> simp

/-! ### Expressions -/

/-- The arguments by place are the items that are not keyword arguments. -/
theorem arguments_positional (ctx : Context) (call : Mark)
    (function : Option (Signature TypeSet)) (items : List (Tree Mark)) (s : Analysis) :
    ((arguments ctx call function items).run s).1.positional.map PositionalArg.node =
      items.filter (!·.isKeyword) := by
  induction items generalizing s with
  | nil => rfl
  | cons item rest ih =>
    cases item with
    | keyword mark key value =>
      exact ih _
    | _ =>
      exact congrArg (List.cons _) (ih _)

/-- With these arguments `set_variable` binds what the call names. -/
theorem CallArgs.bindings_eq_callBindings {file : Path} {mark m : Mark} {callee : Tree Mark}
    {items : List (Tree Mark)} {args : CallArgs}
    (h : args.positional.map PositionalArg.node = items.filter (!·.isKeyword)) :
    (if callee.identifier? = some "set_variable" then args.bindings file else []) =
      (Tree.call mark callee (.arguments m items)).callBindings file := by
  have hfirst : args.positional[0]?.map PositionalArg.node =
      (Tree.call mark callee (.arguments m items)).positionalArgs.head? := by
    rw [← List.getElem?_map, h, List.head?_eq_getElem?]
    rfl
  unfold Tree.callBindings Tree.variableSet? CallArgs.bindings CallArgs.literal?
  rw [← hfirst]
  by_cases hset : callee.identifier? = some "set_variable"
  · cases args.positional[0]? with
    | none => simp [hset, Tree.callName?]
    | some arg => cases hstring : arg.node.string? <;> simp [hset, Tree.callName?, hstring]
  · simp [hset, Tree.callName?]

mutual

/-- Evaluating an expression follows its trace. -/
theorem tracks_expr (ctx : Context) : (t : Tree Mark) → t.ids.Nodup →
    Tracks T x (expr ctx t) [t.events ctx.file] t.ids
  | .boolean .., _ | .integer .., _ | .file .., _ | .arguments .., _ | .assignment .., _
  | .iteration .., _ | .entry .., _ | .keyword .., _ | .selection .., _ | .malformed .., _
  | .breakLoop .., _ | .continueLoop .., _ =>
    (Tracks.of_frames (.record _ _)).mono (List.nil_subset _)
  | .string .., _ =>
    (Tracks.of_frames ((Frames.readString _ _ _).bind fun _ => .record _ _)).mono
      (List.nil_subset _)
  | .identifier mark name, _ => by
    rw [Tree.ids_eq]
    exact ((tracks_readVariable T x mark name).bind_frames fun _ => .record _ _)
  | .array mark elements, h => by
    refine .mono ?_ (Tree.ids_parts_subset _)
    exact (tracks_exprs ctx elements (Tree.nodup_ids_parts h) _).bind_frames fun _ => .record _ _
  | .dictionary mark items, h => by
    refine .mono ?_ (Tree.ids_parts_subset _)
    exact (tracks_entries ctx items (Tree.nodup_ids_parts h) _).bind_frames fun _ => .record _ _
  | .unary mark op operand, h => by
    refine .mono ?_ (Tree.ids_parts_subset _)
    have h' := Tree.nodup_ids_parts h
    simp only [Tree.children, List.flatMap_cons, List.flatMap_nil, List.append_nil] at h' ⊢
    refine (tracks_expr ctx operand h').discard.bind_frames fun _ => ?_
    cases op <;> exact .record _ _
  | .binary mark left op right, h => by
    refine .mono ?_ (Tree.ids_parts_subset _)
    have h' := Tree.nodup_ids_parts h
    simp only [Tree.children, List.flatMap_cons, List.flatMap_nil, List.append_nil,
      List.nodup_append'] at h' ⊢
    obtain ⟨hl, hr, hd⟩ := h'
    exact (tracks_expr ctx left hl).bind_single
      (fun _ => (tracks_expr ctx right hr).bind_frames fun _ => .record _ _) hd
  | .conditional mark condition ifTrue ifFalse, h => by
    refine .mono ?_ (Tree.ids_parts_subset _)
    have h' := Tree.nodup_ids_parts h
    simp only [Tree.children, List.flatMap_cons, List.flatMap_nil, List.append_nil] at h' ⊢
    obtain ⟨hc, htf, hd⟩ := List.nodup_append'.mp h'
    obtain ⟨ht, hf, hd'⟩ := List.nodup_append'.mp htf
    refine (tracks_expr ctx condition hc).discard.bind_single (fun _ => ?_) hd
    exact (tracks_expr ctx ifTrue ht).bind_single
      (fun _ => (tracks_expr ctx ifFalse hf).bind_frames fun _ => .record _ _) hd'
  | .subscript mark object index, h => by
    refine .mono ?_ (Tree.ids_parts_subset _)
    have h' := Tree.nodup_ids_parts h
    simp only [Tree.children, List.flatMap_cons, List.flatMap_nil, List.append_nil,
      List.nodup_append'] at h' ⊢
    obtain ⟨ho, hi, hd⟩ := h'
    exact (tracks_expr ctx object ho).bind_single
      (fun _ => (tracks_expr ctx index hi).discard.bind_frames fun _ => .record _ _) hd
  | .call mark callee args, h => by
    refine .mono ?_ (Tree.ids_parts_subset _)
    have h' := Tree.nodup_ids_parts h
    simp only [Tree.children, List.flatMap_cons, List.flatMap_nil, List.append_nil] at h' ⊢
    obtain ⟨-, hargs, -⟩ := List.nodup_append'.mp h'
    refine .mono ?_ (List.subset_append_right _ _)
    cases args with
    | arguments m items =>
      refine .mono ?_ (Tree.ids_parts_subset _)
      rw [← List.append_nil (List.flatMap _ _)]
      refine (tracks_arguments ctx mark _ items (Tree.nodup_ids_parts hargs)).bind_single
        (fun s => ?_) (List.disjoint_nil_right _)
      rw [← CallArgs.bindings_eq_callBindings (arguments_positional ctx mark _ items s)]
      exact (tracks_callFunction T x ctx mark callee _ _).bind_frames fun _ => .record _ _
    | _ =>
      -- Without an argument list there is no string to name a variable.
      have hcall := tracks_callFunction T x ctx mark callee
        (ctx.catalog.function? (callee.identifier?.getD "")) {}
      have hnone : CallArgs.bindings ctx.file {} = [] := rfl
      rw [hnone, ite_self] at hcall
      exact (hcall.bind_frames fun types => .record mark types).mono (List.nil_subset _)
  | .method mark object name args, h => by
    refine .mono ?_ (Tree.ids_parts_subset _)
    have h' := Tree.nodup_ids_parts h
    simp only [Tree.children, List.flatMap_cons] at h' ⊢
    obtain ⟨ho, hn, hd⟩ := List.nodup_append'.mp h'
    obtain ⟨-, hargs, -⟩ := List.nodup_append'.mp hn
    have hobject := tracks_expr ctx object ho
    cases name with
    | identifier m name =>
      have hcall : Tracks T x (do
          let receiver ← expr ctx object
          let types ← callMethod ctx mark (.identifier m name) name receiver
            (candidates ctx receiver name) {}
          record mark types) [object.events ctx.file] object.ids :=
        hobject.bind_frames fun _ => (Frames.callMethod _ _ _ _ _ _ _).bind fun _ => .record _ _
      cases args with
      | none => exact hcall.mono (List.subset_append_left _ _)
      | some args =>
        cases args with
        | arguments m' items =>
          simp only [Option.toList_some, List.flatMap_cons, List.flatMap_nil,
            List.append_nil] at hargs hd ⊢
          have hsub : (Tree.arguments m' items).children.flatMap Tree.ids ⊆
              (Tree.identifier m name).ids ++ (Tree.arguments m' items).ids :=
            List.Subset.trans (Tree.ids_parts_subset _) (List.subset_append_right _ _)
          refine hobject.bind_single (fun _ => .mono ?_ hsub) hd
          exact (tracks_arguments ctx mark _ items (Tree.nodup_ids_parts hargs)).bind_frames
            fun _ => (Frames.callMethod _ _ _ _ _ _ _).bind fun _ => .record _ _
        | _ => exact hcall.mono (List.subset_append_left _ _)
    | _ =>
      exact (hobject.discard.bind_frames fun _ => .record _ _).mono (List.subset_append_left _ _)

/-- Evaluating expressions in order follows their traces. -/
theorem tracks_exprs (ctx : Context) : (ts : List (Tree Mark)) → (ts.flatMap Tree.ids).Nodup →
    ∀ types, Tracks T x (exprs ctx types ts) [Tree.eventsAll ctx.file ts] (ts.flatMap Tree.ids)
  | [], _, _ => .of_frames (.pure _)
  | t :: rest, h, types => by
    rw [List.flatMap_cons, List.nodup_append'] at h
    exact (tracks_expr ctx t h.1).bind_single (fun _ => tracks_exprs ctx rest h.2.1 _) h.2.2

/-- Evaluating the entries of a dictionary follows their traces. -/
theorem tracks_entries (ctx : Context) : (ts : List (Tree Mark)) →
    (ts.flatMap Tree.ids).Nodup → ∀ types,
    Tracks T x (entries ctx types ts) [Tree.entryEvents ctx.file ts] (ts.flatMap Tree.ids)
  | [], _, _ => .of_frames (.pure _)
  | t :: rest, h, types => by
    rw [List.flatMap_cons] at h ⊢
    obtain ⟨ht, hrest, hd⟩ := List.nodup_append'.mp h
    cases t with
    | entry mark key value =>
      have h' := Tree.nodup_ids_parts ht
      simp only [Tree.children, List.flatMap_cons, List.flatMap_nil, List.append_nil] at h'
      obtain ⟨hk, hv, hkv⟩ := List.nodup_append'.mp h'
      have hsub := Tree.ids_parts_subset (.entry mark key value)
      simp only [Tree.children, List.flatMap_cons, List.flatMap_nil, List.append_nil] at hsub
      obtain ⟨hksub, hvsub⟩ := List.append_subset.mp hsub
      -- The numbers of the key and of the value are among those of the entry.
      have hall : key.ids ++ (value.ids ++ rest.flatMap Tree.ids) ⊆
          (Tree.entry mark key value).ids ++ rest.flatMap Tree.ids := by
        rw [← List.append_assoc]
        exact List.append_subset.mpr
          ⟨List.Subset.trans hsub (List.subset_append_left _ _), List.subset_append_right _ _⟩
      refine .mono ?_ hall
      refine (tracks_expr ctx key hk).discard.bind_single (fun _ => ?_)
        (List.disjoint_append_right.mpr ⟨hkv, fun n hn hn' => hd (hksub hn) hn'⟩)
      exact (tracks_expr ctx value hv).bind_single (fun _ => tracks_entries ctx rest hrest _)
        fun n hn hn' => hd (hvsub hn) hn'
    | _ => exact (tracks_entries ctx rest hrest types).mono (List.subset_append_right _ _)

/-- Evaluating the arguments of a call follows their traces. -/
theorem tracks_arguments (ctx : Context) (call : Mark) (function : Option (Signature TypeSet)) :
    (ts : List (Tree Mark)) → (ts.flatMap Tree.ids).Nodup →
    Tracks T x (arguments ctx call function ts) [Tree.argumentEvents ctx.file ts]
      (ts.flatMap Tree.ids)
  | [], _ => .of_frames (.pure _)
  | t :: rest, h => by
    rw [List.flatMap_cons] at h ⊢
    obtain ⟨ht, hrest, hd⟩ := List.nodup_append'.mp h
    have hargs := tracks_arguments ctx call function rest hrest
    cases t with
    | keyword mark key value =>
      -- The name of a keyword argument is not evaluated, only its value.
      have hv : value.ids.Nodup ∧ value.ids ⊆ (Tree.keyword mark key value).ids := by
        have h' := Tree.nodup_ids_parts ht
        have hsub := Tree.ids_parts_subset (.keyword mark key value)
        simp only [Tree.children, List.flatMap_cons, List.flatMap_nil, List.append_nil] at h' hsub
        exact ⟨(List.nodup_append'.mp h').2.1,
          List.Subset.trans (List.subset_append_right _ _) hsub⟩
      refine ((tracks_expr ctx value hv.1).mono hv.2).bind_single (fun _ => ?_) hd
      exact .frames_bind (.note fun _ => rfl) fun _ => hargs.bind_frames fun _ => .pure _
    | _ =>
      exact (tracks_expr ctx _ ht).bind_single (fun _ => hargs.bind_frames fun _ => .pure _) hd

end

end Analyze

end MesonLens
