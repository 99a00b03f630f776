import MesonLens.Proofs.Analysis.Tracking

/-!
# `MesonLens.Proofs.Analysis.Reaching`: the bindings that reach a read

`SourceFile.mem_origins_iff` is the main result: where a variable is read, the analysis
lists exactly the bindings that are the last ones before the read on some way through the
file (`SourceFile.paths`), each once.

A statement follows its ways just as an expression does (`Analyze.tracks_statement`). The
branches of a selection all start from the scope before it, so `Analyze.branches_effect`
speaks about that scope and about the branches merged so far. It needs that no condition
binds a variable: the analysis starts the second condition from the scope before the first
one, and a binding in the first would be lost there.
-/

set_option autoImplicit false

namespace MesonLens

namespace Tree

/-- The numbers of the nodes that a node names a variable with in order to bind it. -/
def bindingTargets : Tree Mark → List Nat
  | assignment _ target _ _ => [target.id]
  | iteration _ names _ _ => names.map Tree.id
  | _ => []

/-- The variable that an assignment changes by an operator. -/
def compoundTarget? : Tree Mark → Option String
  | assignment _ target op _ => if op = .assign then none else target.identifier?
  | _ => none

/-- The conditions of a selection. -/
def conditions : Tree Mark → List (Tree Mark)
  | selection _ bs => bs.conditions
  | _ => []

/-- Whether the node is a call of `set_variable`. -/
def setsVariable : Tree Mark → Bool
  | call _ callee _ => callee.identifier? == some "set_variable"
  | _ => false

/-- What the analysis of `x` asks of every node of a tree: the nodes that bind a variable
are among `T`, no operator changes `x`, and no condition of a selection binds a variable. -/
structure Regular (T : Nat → Prop) (x : String) (t : Tree Mark) : Prop where
  targets : ∀ n ∈ t.preorder, ∀ id ∈ n.bindingTargets, T id
  plain : ∀ n ∈ t.preorder, n.compoundTarget? ≠ some x
  conditions : ∀ n ∈ t.preorder, ∀ c ∈ n.conditions, ∀ d ∈ c.preorder, d.setsVariable = false

theorem Regular.part {T : Nat → Prop} {x : String} {t c : Tree Mark} (h : t.Regular T x)
    (hc : c ∈ t.children) : c.Regular T x :=
  ⟨fun n hn => h.targets n (mem_preorder_of_mem_children hc hn),
    fun n hn => h.plain n (mem_preorder_of_mem_children hc hn),
    fun n hn => h.conditions n (mem_preorder_of_mem_children hc hn)⟩

end Tree

/-! ### Expressions that bind nothing -/

/-- No node of the tree is a call of `set_variable`. -/
def Tree.SetsNothing (t : Tree Mark) : Prop := ∀ d ∈ t.preorder, d.setsVariable = false

theorem Tree.SetsNothing.part {t c : Tree Mark} (h : t.SetsNothing) (hc : c ∈ t.children) :
    c.SetsNothing :=
  fun d hd => h d (Tree.mem_preorder_of_mem_children hc hd)

theorem Tree.SetsNothing.callBindings {file : Path} {mark : Mark} {callee args : Tree Mark}
    (h : (Tree.call mark callee args).SetsNothing) :
    (Tree.call mark callee args).callBindings file = [] := by
  have hset : callee.identifier? ≠ some "set_variable" := by
    simpa [Tree.setsVariable] using h _ (Tree.mem_preorder_self _)
  simp [Tree.callBindings, Tree.variableSet?, Tree.callName?, hset]

mutual

/-- An expression without a call of `set_variable` binds nothing. -/
theorem Tree.SetsNothing.site?_eq_none (file : Path) (x : String) : (t : Tree Mark) →
    t.SetsNothing → ∀ e ∈ t.events file, e.site? x = none
  | .identifier mark name, _ => by simp [Tree.events, Event.site?]
  | .array mark ts, h => Tree.SetsNothing.site?_eq_none_all file x ts fun t ht => h.part ht
  | .dictionary mark ts, h =>
    Tree.SetsNothing.site?_eq_none_entries file x ts fun t ht => h.part ht
  | .unary mark op t, h =>
    Tree.SetsNothing.site?_eq_none file x t (h.part (by simp [Tree.children]))
  | .binary mark l op r, h => by
    have hl := Tree.SetsNothing.site?_eq_none file x l (h.part (by simp [Tree.children]))
    have hr := Tree.SetsNothing.site?_eq_none file x r (h.part (by simp [Tree.children]))
    exact List.forall_mem_append.mpr ⟨hl, hr⟩
  | .conditional mark c t f, h => by
    have hc := Tree.SetsNothing.site?_eq_none file x c (h.part (by simp [Tree.children]))
    have ht := Tree.SetsNothing.site?_eq_none file x t (h.part (by simp [Tree.children]))
    have hf := Tree.SetsNothing.site?_eq_none file x f (h.part (by simp [Tree.children]))
    exact List.forall_mem_append.mpr ⟨hc, List.forall_mem_append.mpr ⟨ht, hf⟩⟩
  | .subscript mark o i, h => by
    have ho := Tree.SetsNothing.site?_eq_none file x o (h.part (by simp [Tree.children]))
    have hi := Tree.SetsNothing.site?_eq_none file x i (h.part (by simp [Tree.children]))
    exact List.forall_mem_append.mpr ⟨ho, hi⟩
  | .call mark callee args, h => by
    cases args with
    | arguments m items =>
      have hargs : (Tree.arguments m items).SetsNothing := h.part (by simp [Tree.children])
      -- The call itself binds nothing, which leaves its arguments.
      rw [Tree.events, h.callBindings, List.append_nil]
      exact Tree.SetsNothing.site?_eq_none_arguments file x items fun t ht => hargs.part ht
    | _ => simp [Tree.events]
  | .method mark object name args, h => by
    have ho := Tree.SetsNothing.site?_eq_none file x object (h.part (by simp [Tree.children]))
    cases name with
    | identifier m name =>
      cases args with
      | none => exact ho
      | some args =>
        cases args with
        | arguments m' items =>
          have hargs : (Tree.arguments m' items).SetsNothing := h.part (by simp [Tree.children])
          exact List.forall_mem_append.mpr
            ⟨ho, Tree.SetsNothing.site?_eq_none_arguments file x items fun t ht => hargs.part ht⟩
        | _ => exact ho
    | _ => exact ho
  | .boolean .., _ | .integer .., _ | .string .., _ | .file .., _ | .arguments .., _
  | .assignment .., _ | .iteration .., _ | .entry .., _ | .keyword .., _ | .selection .., _
  | .malformed .., _ | .breakLoop .., _ | .continueLoop .., _ => by simp [Tree.events]

theorem Tree.SetsNothing.site?_eq_none_all (file : Path) (x : String) :
    (ts : List (Tree Mark)) → (∀ t ∈ ts, t.SetsNothing) →
    ∀ e ∈ Tree.eventsAll file ts, e.site? x = none
  | [], _ => by simp [Tree.eventsAll]
  | t :: rest, h => by
    have ht := Tree.SetsNothing.site?_eq_none file x t (h t (by simp))
    have hrest := Tree.SetsNothing.site?_eq_none_all file x rest fun t ht => h t (by simp [ht])
    exact List.forall_mem_append.mpr ⟨ht, hrest⟩

theorem Tree.SetsNothing.site?_eq_none_entries (file : Path) (x : String) :
    (ts : List (Tree Mark)) → (∀ t ∈ ts, t.SetsNothing) →
    ∀ e ∈ Tree.entryEvents file ts, e.site? x = none
  | [], _ => by simp [Tree.entryEvents]
  | t :: rest, h => by
    have ht := h t (by simp)
    have hrest := Tree.SetsNothing.site?_eq_none_entries file x rest fun t ht => h t (by simp [ht])
    cases t with
    | entry mark key value =>
      have hk := Tree.SetsNothing.site?_eq_none file x key (ht.part (by simp [Tree.children]))
      have hv := Tree.SetsNothing.site?_eq_none file x value (ht.part (by simp [Tree.children]))
      exact List.forall_mem_append.mpr ⟨hk, List.forall_mem_append.mpr ⟨hv, hrest⟩⟩
    | _ => exact hrest

theorem Tree.SetsNothing.site?_eq_none_arguments (file : Path) (x : String) :
    (ts : List (Tree Mark)) → (∀ t ∈ ts, t.SetsNothing) →
    ∀ e ∈ Tree.argumentEvents file ts, e.site? x = none
  | [], _ => by simp [Tree.argumentEvents]
  | t :: rest, h => by
    have ht := h t (by simp)
    have hrest :=
      Tree.SetsNothing.site?_eq_none_arguments file x rest fun t ht => h t (by simp [ht])
    cases t with
    | keyword mark key value =>
      have hv := Tree.SetsNothing.site?_eq_none file x value (ht.part (by simp [Tree.children]))
      exact List.forall_mem_append.mpr ⟨hv, hrest⟩
    | _ => exact List.forall_mem_append.mpr ⟨Tree.SetsNothing.site?_eq_none file x _ ht, hrest⟩

end

namespace Analyze

open Trace

/-! ### Bindings -/

section

variable (T : Nat → Prop) (x : String)

theorem tracks_recordBinding (node target : Mark) (name : String) (types : TypeSet)
    (hT : T target.id) : Tracks T x (recordBinding node target name types) [[]] [target.id] := by
  refine ⟨(ReadsIn.empty x).mono (List.nil_subset _), fun a ha => ?_⟩
  refine ⟨ha, fun o => ?_, _, rfl, ?_, by simp⟩
  · simp only [List.mem_singleton, exists_eq_left, after_nil]
    rfl
  · intro u hu _
    rw [List.mem_singleton] at hu
    subst hu
    exact ⟨List.mem_singleton_self _, .inl hT⟩

/-- Plain assignment binds the variable; an operator leaves the origins of `x` alone as long
as it changes another variable. -/
theorem tracks_bindVariable (ctx : Context) (node target : Mark) (name : String) (op : AssignOp)
    (value : TypeSet) (hT : T target.id) (hop : op ≠ .assign → x ≠ name) :
    Tracks T x (bindVariable ctx node target name op value)
      [Tree.assignmentBindings ctx.file (.identifier target name) op] [target.id] := by
  by_cases hassign : op = .assign
  · subst hassign
    exact (tracks_assign T x name value (ctx.origin target)).bind_single
      (fun _ => tracks_recordBinding T x node target name value hT) (List.disjoint_nil_left _)
  · -- Any other sign changes a variable that is not `x`.
    have hbinary : ∃ binary, op.binary? = some binary := by
      cases op with
      | assign => exact absurd rfl hassign
      | _ => exact ⟨_, rfl⟩
    obtain ⟨binary, hbinary⟩ := hbinary
    have hnone : Tree.assignmentBindings ctx.file (.identifier target name) op = [] := by
      cases op with
      | assign => exact absurd rfl hassign
      | _ => rfl
    have hupdate : ∀ types, Tracks T x
        (modifyScope (·.update name types (some (ctx.origin target)))) [[]] [] := by
      refine fun types => ⟨.empty x, fun a ha => ?_⟩
      refine ⟨ha.update_of_ne (hop hassign) types _, fun o => ?_, .nothing rfl⟩
      simp only [List.mem_singleton, exists_eq_left, after_nil]
      exact iff_of_eq (congrArg (o ∈ ·) (Scope.originsOf_update_of_ne _ (hop hassign) _ _))
    have hrest : ∀ types, Tracks T x (do
        modifyScope (·.update name types (some (ctx.origin target)))
        recordBinding node target name types) [[]] [target.id] := fun types =>
      (hupdate types).bind_single (fun _ => tracks_recordBinding T x node target name types hT)
        (List.disjoint_nil_left _)
    rw [hnone]
    unfold bindVariable
    simp only [hbinary]
    refine .frames_bind .get fun a => ?_
    split
    · exact hrest _
    · exact .frames_bind (.report _ _) fun _ => hrest _

theorem tracks_bindLoopVariables (ctx : Context) (node : Mark) (names : List (Tree Mark))
    (hids : (names.flatMap Tree.ids).Nodup) (hT : ∀ n ∈ names, T n.id) :
    ∀ held : List TypeSet, names.length = held.length →
      Tracks T x (bindLoopVariables ctx node (names.zip held))
        [Tree.loopBindings ctx.file names] (names.flatMap Tree.ids) := by
  induction names with
  | nil => exact fun held _ => .of_frames (.pure _)
  | cons n names ih =>
    intro held hlen
    cases held with
    | nil => simp at hlen
    | cons types held =>
      rw [List.flatMap_cons] at hids ⊢
      obtain ⟨hn, hnames, hd⟩ := List.nodup_append'.mp hids
      have hrest := ih hnames (fun n hn => hT n (by simp [hn])) held (by simpa using hlen)
      cases n with
      | identifier mark name =>
        refine (tracks_assign T x name types (ctx.origin mark)).bind_single (fun _ => ?_)
          (List.disjoint_nil_left _)
        have hmark := tracks_recordBinding T x node mark name types (hT _ List.mem_cons_self)
        refine (hmark.mono ?_).bind_single (fun _ => hrest) hd
        rw [Tree.ids_eq]
        exact List.cons_subset_cons _ (List.nil_subset _)
      | _ => exact hrest.mono (List.subset_append_right _ _)

end

/-! ### Statements -/

section

variable {T : Nat → Prop} {x : String}

/-- Only the members of what is known count. -/
theorem Noted.congr_known {P : List Trace} {I : List Nat} {known known' : List Origin}
    {a b : Analysis} (h : Noted T x P I known a b) (hknown : ∀ o, o ∈ known ↔ o ∈ known') :
    Noted T x P I known' a b := by
  obtain ⟨news, hnews, hex, hall⟩ := h
  refine ⟨news, hnews, fun u hu hx => ?_, hall⟩
  exact ⟨(hex u hu hx).1, (hex u hu hx).2.imp_right fun h => h.congr_known hknown⟩

/-- What is known after a selection: `merged` is what is known after the branches before
these, which all start from `before`. -/
structure BranchesEffect (T : Nat → Prop) (x : String) (P : List Trace) (I : List Nat)
    (before : Scope) (merged : Option Scope) (a : Analysis) (r : Scope × Analysis) : Prop where
  tidy : r.1.Tidy x
  mem_iff : ∀ o, o ∈ r.1.originsOf x ↔
    (∃ s ∈ merged, o ∈ s.originsOf x) ∨ ∃ p ∈ P, o ∈ after x (before.originsOf x) p
  noted : Noted T x P I (before.originsOf x) a r.2

/-- A scope joined to those merged before. -/
theorem tidy_mergeAfter {merged : Option Scope} {s : Scope} (hm : ∀ m ∈ merged, m.Tidy x)
    (hs : s.Tidy x) : ((merged.map (·.merge s)).getD s).Tidy x := by
  cases merged with
  | none => exact hs
  | some m => exact (hm m rfl).merge hs

theorem mem_originsOf_mergeAfter {merged : Option Scope} {s : Scope} (hs : s.Tidy x) (o : Origin) :
    o ∈ ((merged.map (·.merge s)).getD s).originsOf x ↔
      (∃ m ∈ merged, o ∈ m.originsOf x) ∨ o ∈ s.originsOf x := by
  cases merged with
  | none => simp
  | some m => simp [Scope.mem_originsOf_merge hs]

/-- A loop whose body is not run leaves what was known before it. -/
theorem Effect.optional {P : List Trace} {I : List Nat} {a b : Analysis}
    (h : Effect T x P I a b) (ha : a.scope.Tidy x) (rP : ReadsIn x P I) :
    Effect T x ([[]] ++ P) I a { b with scope := b.scope.merge a.scope } := by
  refine ⟨h.tidy.merge ha, fun o => ?_, ?_⟩
  · change o ∈ (b.scope.merge a.scope).originsOf x ↔ _
    rw [Scope.mem_originsOf_merge ha, h.mem_iff]
    simp only [List.cons_append, List.nil_append, List.mem_cons, exists_eq_or_imp, after_nil,
      or_comm]
  · exact (Noted.nothing (b := a) rfl).choice h.noted (.empty x) rP (List.disjoint_nil_left _)

mutual

/-- Running a statement follows the ways through it. -/
theorem tracks_statement (ctx : Context) : (t : Tree Mark) → t.ids.Nodup → t.Regular T x →
    Tracks T x (statement ctx t) (t.paths ctx.file) t.ids
  | .assignment mark target op value, hids, hreg => by
    refine .mono ?_ (Tree.ids_parts_subset _)
    have hparts := Tree.nodup_ids_parts hids
    simp only [Tree.children, List.flatMap_cons, List.flatMap_nil, List.append_nil] at hparts ⊢
    obtain ⟨-, hvalue, hd⟩ := List.nodup_append'.mp hparts
    have hval := tracks_expr T x ctx value hvalue
    refine .mono ?_ (List.append_subset.mpr
      ⟨List.subset_append_right _ _, List.subset_append_left _ _⟩ :
        value.ids ++ target.ids ⊆ target.ids ++ value.ids)
    have hT : T target.id :=
      hreg.targets _ (Tree.mem_preorder_self _) _ (List.mem_singleton_self _)
    have hplain := hreg.plain _ (Tree.mem_preorder_self _)
    refine hval.bind_single (fun s => ?_) (List.disjoint_symm hd)
    cases target with
    | identifier m name =>
      refine .mono (tracks_bindVariable T x ctx mark m name op _ hT fun hop hx => ?_) ?_
      · exact hplain (by simp [Tree.compoundTarget?, hop, Tree.identifier?, hx])
      · rw [Tree.ids_eq]
        exact List.cons_subset_cons _ (List.nil_subset _)
    | _ => exact (Tracks.of_frames (.pure _)).mono (List.nil_subset _)
  | .selection mark bs, hids, hreg => by
    refine .mono ?_ (Tree.ids_parts_subset _)
    obtain ⟨hreads, heffect⟩ := branches_effect ctx bs (Tree.nodup_ids_parts hids)
      (fun c hc => hreg.part hc) (hreg.conditions _ (Tree.mem_preorder_self _))
    refine ⟨hreads, fun a ha => ?_⟩
    have h := heffect a.scope none a ha (by simp)
    exact ⟨h.tidy, fun o => (h.mem_iff o).trans (or_iff_right (by simp)), h.noted⟩
  | .iteration mark names iterable body, hids, hreg => by
    refine .mono ?_ (Tree.ids_parts_subset _)
    have hparts := Tree.nodup_ids_parts hids
    have hchild : ∀ c ∈ names ++ iterable :: body, c.Regular T x := fun c hc => hreg.part hc
    simp only [Tree.children, List.flatMap_append, List.flatMap_cons] at hparts ⊢
    obtain ⟨hnames, hib, hd⟩ := List.nodup_append'.mp hparts
    obtain ⟨hiter, hbody, hd'⟩ := List.nodup_append'.mp hib
    obtain ⟨hdi, hdb⟩ := List.disjoint_append_right.mp hd
    have hblock := tracks_block ctx body hbody fun t ht => hchild t (by simp [ht])
    have hT : ∀ n ∈ names, T n.id := fun n hn =>
      hreg.targets _ (Tree.mem_preorder_self _) _ (List.mem_map_of_mem hn)
    have hbinds := fun held hlen => tracks_bindLoopVariables T x ctx mark names hnames hT held hlen
    -- What the loop runs through is evaluated first, though it is written after the variables.
    have hsub : iterable.ids ++ (names.flatMap Tree.ids ++ body.flatMap Tree.ids) ⊆
        names.flatMap Tree.ids ++ (iterable.ids ++ body.flatMap Tree.ids) := by
      intro n hn
      simp only [List.mem_append] at hn ⊢
      tauto
    refine .mono ((tracks_expr T x ctx iterable hiter).bind (fun s => ?_)
      (List.disjoint_append_right.mpr ⟨List.disjoint_symm hdi, hd'⟩)) hsub
    have hlen := length_loopTypes names.length ((expr ctx iterable).run s).1
    generalize loopTypes names.length _ = lt at hlen
    obtain ⟨held, problem⟩ := lt
    have hrun : Tracks T x (do bindLoopVariables ctx mark (names.zip held); block ctx body) _ _ :=
      (hbinds held hlen.symm).bind (fun _ => hblock) hdb
    -- The block runs once or not at all.
    refine ⟨(ReadsIn.empty x).choice hrun.reads, fun b hb => ?_⟩
    cases problem with
    | none => exact (hrun.effect b hb).optional hb hrun.reads
    | some p =>
      have hrun' : Tracks T x (do
          report p iterable.span
          bindLoopVariables ctx mark (names.zip held)
          block ctx body) _ _ := .frames_bind (.report p iterable.span) fun _ => hrun
      exact (hrun'.effect b hb).optional hb hrun.reads
  | .breakLoop _, _, _ | .continueLoop _, _, _ | .malformed _ _, _, _ =>
    (Tracks.of_frames (.pure _)).mono (List.nil_subset _)
  | .file .., hids, _ | .arguments .., hids, _ | .array .., hids, _ | .binary .., hids, _
  | .boolean .., hids, _ | .conditional .., hids, _ | .dictionary .., hids, _ | .call .., hids, _
  | .identifier .., hids, _ | .integer .., hids, _ | .entry .., hids, _ | .keyword .., hids, _
  | .method .., hids, _ | .string .., hids, _ | .subscript .., hids, _ | .unary .., hids, _ =>
    (tracks_expr T x ctx _ hids).discard

/-- Running statements in order follows the ways through them. -/
theorem tracks_block (ctx : Context) : (ts : List (Tree Mark)) → (ts.flatMap Tree.ids).Nodup →
    (∀ t ∈ ts, t.Regular T x) →
    Tracks T x (block ctx ts) (Tree.pathsAll ctx.file ts) (ts.flatMap Tree.ids)
  | [], _, _ => .of_frames (.pure _)
  | t :: rest, hids, hreg => by
    rw [List.flatMap_cons] at hids ⊢
    obtain ⟨ht, hrest, hd⟩ := List.nodup_append'.mp hids
    exact (tracks_statement ctx t ht (hreg t (by simp))).bind
      (fun _ => tracks_block ctx rest hrest fun t ht => hreg t (by simp [ht])) hd

/-- Running the branches of a selection, each from the scope before it. -/
theorem branches_effect (ctx : Context) : (bs : Branches Mark) →
    (bs.children.flatMap Tree.ids).Nodup → (∀ c ∈ bs.children, c.Regular T x) →
    (∀ c ∈ bs.conditions, c.SetsNothing) →
    ReadsIn x (bs.paths ctx.file) (bs.children.flatMap Tree.ids) ∧
      ∀ before merged a, before.Tidy x → (∀ m ∈ merged, m.Tidy x) →
        BranchesEffect T x (bs.paths ctx.file) (bs.children.flatMap Tree.ids) before merged a
          ((branches ctx before merged bs).run a)
  | .done, _, _, _ => by
    refine ⟨.empty x, fun before merged a hb hm => ?_⟩
    have hmerged : (merged.getD before).Tidy x := by
      cases merged with
      | none => exact hb
      | some m => exact hm m rfl
    refine ⟨hmerged.merge hb, fun o => (Scope.mem_originsOf_merge hb o).trans ?_, .nothing rfl⟩
    cases merged with
    | none => simp [Branches.paths]
    | some m => simp [Branches.paths]
  | .otherwise body, hids, hreg, _ => by
    have hbody := tracks_block ctx body hids hreg
    refine ⟨hbody.reads, fun before merged a hb hm => ?_⟩
    have h := hbody.effect { a with scope := before } hb
    refine ⟨tidy_mergeAfter hm h.tidy, fun o => ?_, h.noted⟩
    exact (mem_originsOf_mergeAfter h.tidy o).trans (or_congr_right (h.mem_iff o))
  | .arm condition body rest, hids, hreg, hcond => by
    simp only [Branches.children, List.flatMap_cons, List.flatMap_append] at hids hreg ⊢
    obtain ⟨hc, hbr, hd⟩ := List.nodup_append'.mp hids
    obtain ⟨hbody, hrest, hd'⟩ := List.nodup_append'.mp hbr
    have hexpr := tracks_expr T x ctx condition hc
    have hblock := tracks_block ctx body hbody fun t ht => hreg t (by simp [ht])
    obtain ⟨hreads, heffect⟩ := branches_effect ctx rest hrest (fun t ht => hreg t (by simp [ht]))
      fun c hc => hcond c (List.mem_cons_of_mem _ hc)
    have hchoice := hblock.reads.choice hreads
    refine ⟨hexpr.reads.seq hchoice, fun before merged a hb hm => ?_⟩
    -- The condition binds nothing, so its block starts from what was known before.
    have hquiet : ∀ known, after x known (condition.events ctx.file) = known := fun known =>
      after_eq_self known (Tree.SetsNothing.site?_eq_none ctx.file x condition
        (hcond condition List.mem_cons_self))
    -- Every branch is run from the scope before the selection, and `merged` holds what the
    -- branches so far have left.
    let afterCondition := ((expr ctx condition).run { a with scope := before }).2
    let afterBody := ((block ctx body).run afterCondition).2
    have hcondition : Effect T x _ _ { a with scope := before } afterCondition :=
      hexpr.effect _ hb
    have hknown : ∀ o, o ∈ afterCondition.scope.originsOf x ↔ o ∈ before.originsOf x :=
      fun o => (hcondition.mem_iff o).trans (by simp [hquiet])
    have htaken : Effect T x _ _ afterCondition afterBody := hblock.effect _ hcondition.tidy
    have hleft := heffect before
      (some ((merged.map (·.merge afterBody.scope)).getD afterBody.scope)) afterBody hb
      (by simpa using tidy_mergeAfter hm htaken.tidy)
    refine ⟨hleft.tidy, fun o => (hleft.mem_iff o).trans ?_, ?_⟩
    -- A way through the branches takes this block, or goes on with the branches after it.
    · have hways : (∃ p ∈ seq [condition.events ctx.file]
            (Tree.pathsAll ctx.file body ++ rest.paths ctx.file),
            o ∈ after x (before.originsOf x) p) ↔
          (∃ p ∈ Tree.pathsAll ctx.file body, o ∈ after x (before.originsOf x) p) ∨
            ∃ p ∈ rest.paths ctx.file, o ∈ after x (before.originsOf x) p := by
        simp only [mem_seq, List.mem_singleton, exists_eq_left, List.mem_append]
        constructor
        · rintro ⟨p, ⟨q, hq | hq, rfl⟩, ho⟩
          · exact .inl ⟨q, hq, by rwa [after_append, hquiet] at ho⟩
          · exact .inr ⟨q, hq, by rwa [after_append, hquiet] at ho⟩
        · rintro (⟨q, hq, ho⟩ | ⟨q, hq, ho⟩)
          · exact ⟨_, ⟨q, .inl hq, rfl⟩, by rwa [after_append, hquiet]⟩
          · exact ⟨_, ⟨q, .inr hq, rfl⟩, by rwa [after_append, hquiet]⟩
      have hbodyWays : o ∈ afterBody.scope.originsOf x ↔
          ∃ p ∈ Tree.pathsAll ctx.file body, o ∈ after x (before.originsOf x) p :=
        (htaken.mem_iff o).trans (by simp only [mem_after_congr _ hknown])
      rw [Branches.paths, hways, ← or_assoc]
      refine or_congr_left ?_
      simp only [Option.mem_some_iff, exists_eq_left']
      exact (mem_originsOf_mergeAfter htaken.tidy o).trans (or_congr_right hbodyWays)
    · have hchosen := (htaken.noted.congr_known hknown).choice hleft.noted hblock.reads hreads hd'
      exact hcondition.noted.seq hchosen hexpr.reads hchoice hd fun o => by simp [hquiet]

end

end

end Analyze

namespace SourceFile

open Trace

/-- The node names a variable in order to bind it: it is the target of an assignment or a
variable of a loop. -/
def IsTarget (f : SourceFile) (node : Nat) : Prop :=
  ∃ n ∈ f.root.preorder, node ∈ n.bindingTargets

/-- The site is the last binding of `x` before the read at a node, on some way through the
file. -/
def Reaches (f : SourceFile) (file : Path) (x : String) (site : Origin) (node : Nat) : Prop :=
  ∃ p ∈ f.paths file, ∃ pre post,
    p = pre ++ .read node x :: post ∧ lastBinding x pre = some site

/-- No operator changes the variable anywhere in the file. -/
def NeverUpdates (f : SourceFile) (x : String) : Prop :=
  ∀ n ∈ f.root.preorder, n.compoundTarget? ≠ some x

/-- No condition of a selection of the file has a call of `set_variable`. -/
def ConditionsSetNothing (f : SourceFile) : Prop :=
  ∀ n ∈ f.root.preorder, ∀ c ∈ n.conditions, ∀ d ∈ c.preorder, d.setsVariable = false

instance (f : SourceFile) (node : Nat) : Decidable (f.IsTarget node) :=
  inferInstanceAs (Decidable (∃ n ∈ f.root.preorder, node ∈ n.bindingTargets))

instance (f : SourceFile) (x : String) : Decidable (f.NeverUpdates x) :=
  inferInstanceAs (Decidable (∀ n ∈ f.root.preorder, n.compoundTarget? ≠ some x))

instance (f : SourceFile) : Decidable f.ConditionsSetNothing :=
  inferInstanceAs (Decidable (∀ n ∈ f.root.preorder, ∀ c ∈ n.conditions, ∀ d ∈ c.preorder,
    d.setsVariable = false))

/-- What the analysis of a whole file does along its ways. -/
theorem effect_analyze (f : SourceFile) (hids : f.root.ids.Nodup) (catalog : Catalog)
    (file : Path) {scope : Scope} {x : String} (htidy : scope.Tidy x) (hplain : f.NeverUpdates x)
    (hcond : f.ConditionsSetNothing) :
    Analyze.Effect f.IsTarget x (f.paths file) f.root.ids
      { scope, diagnostics := f.errors.map Diagnostic.ofSyntaxError }
      (f.analyze catalog file scope) := by
  have hreg : f.root.Regular f.IsTarget x := ⟨fun n hn id hid => ⟨n, hn, hid⟩, hplain, hcond⟩
  unfold analyze paths
  generalize f.errors.map Diagnostic.ofSyntaxError = diagnostics
  cases hroot : f.root with
  | file mark statements =>
    rw [hroot] at hids hreg
    have hblock := Analyze.tracks_block ⟨catalog, file⟩ statements
      (Tree.nodup_ids_parts hids) fun t ht => hreg.part ht
    have heffect := hblock.effect { scope, diagnostics } htidy
    exact heffect.mono (Tree.ids_parts_subset (.file mark statements))
  | _ => exact ⟨htidy, by simp, (Analyze.Noted.nothing rfl).mono (List.nil_subset _)⟩

/-- The uses of a variable that the analysis of a whole file notes. Nothing is known about
the variable where the file starts. -/
theorem noted_analyze (f : SourceFile) (hids : f.root.ids.Nodup) (catalog : Catalog)
    (file : Path) (scope : Scope) {x : String} (hscope : scope.contains x = false)
    (hplain : f.NeverUpdates x) (hcond : f.ConditionsSetNothing) :
    Analyze.Noted f.IsTarget x (f.paths file) f.root.ids [] {} (f.analyze catalog file scope) := by
  obtain ⟨htidy, horigins⟩ := Scope.tidy_of_contains_eq_false hscope
  rw [← horigins]
  exact (f.effect_analyze hids catalog file htidy hplain hcond).noted

/-- The bindings that reach a read are exact. Take a variable that is not known where a file
starts and that no operator changes, in a file whose conditions do not call `set_variable`.
Then, for every entry that the analysis notes for the variable and that is no binding of it,
the origins are exactly the bindings that are the last ones before this read on some way
through the file, each once. Every entry is for a read that lies on some way, and every read
on a way has its entry. -/
theorem mem_origins_iff_reaches (text : String) (catalog : Catalog) (file : Path) (scope : Scope)
    (x : String) (hscope : scope.contains x = false)
    (hplain : (parse text).NeverUpdates x) (hcond : (parse text).ConditionsSetNothing) :
    (∀ u ∈ ((parse text).analyze catalog file scope).index.identifiers, u.name = x →
      ¬ (parse text).IsTarget u.node →
        u.origins.Nodup ∧ (∀ o, o ∈ u.origins ↔ (parse text).Reaches file x o u.node) ∧
          ∃ p ∈ (parse text).paths file, .read u.node x ∈ p) ∧
    ∀ p ∈ (parse text).paths file, ∀ n, .read n x ∈ p →
      ∃ u ∈ ((parse text).analyze catalog file scope).index.identifiers,
        u.node = n ∧ u.name = x := by
  obtain ⟨news, hnews, hexplained, hall⟩ := noted_analyze (parse text) (nodup_ids_root text)
    catalog file scope hscope hplain hcond
  rw [show ({} : Analysis).index.identifiers = [] from rfl, List.nil_append] at hnews
  rw [hnews]
  refine ⟨fun u hu hx hread => ?_, hall⟩
  have hu := (hexplained u hu hx).2.resolve_left hread
  refine ⟨hu.nodup, fun o => (hu.mem_iff o).trans ?_, hu.occurs⟩
  -- Nothing is known before the file, so what is known is the last binding itself.
  have hlast : ∀ pre : Trace, o ∈ after x [] pre ↔ lastBinding x pre = some o := by
    intro pre
    unfold after
    cases lastBinding x pre with
    | none => simp
    | some o' => simp [eq_comm]
  simp only [hlast]
  rfl

/-- The last read of `x` below comes after a selection with two branches and a loop, and
three bindings reach it: one in each branch and one in the loop. -/
theorem reaches_after_selection_and_loop :
    ∃ u ∈ ((parse "if c\n x = 1\nelse\n x = 2\nendif\nforeach i : l\n x = i\nendforeach\ny = x\n"
        ).analyze {} (Path.ofString "meson.build") {}).index.identifiers,
      u.name = "x" ∧ u.origins.length = 3 ∧
        ∀ o, o ∈ u.origins ↔ (parse
          "if c\n x = 1\nelse\n x = 2\nendif\nforeach i : l\n x = i\nendforeach\ny = x\n"
          ).Reaches (Path.ofString "meson.build") "x" o u.node := by
  have h := (mem_origins_iff_reaches
    "if c\n x = 1\nelse\n x = 2\nendif\nforeach i : l\n x = i\nendforeach\ny = x\n" {}
    (Path.ofString "meson.build") {} "x" (by decide) (by decide +kernel) (by decide +kernel)).1
  have hread : ∃ u ∈ ((parse
      "if c\n x = 1\nelse\n x = 2\nendif\nforeach i : l\n x = i\nendforeach\ny = x\n"
      ).analyze {} (Path.ofString "meson.build") {}).index.identifiers,
      u.name = "x" ∧ u.origins.length = 3 ∧ ¬ (parse
        "if c\n x = 1\nelse\n x = 2\nendif\nforeach i : l\n x = i\nendforeach\ny = x\n"
        ).IsTarget u.node := by
    decide +kernel
  obtain ⟨u, hu, hx, hthree, hnot⟩ := hread
  exact ⟨u, hu, hx, hthree, (h u hu hx hnot).2.1⟩

end SourceFile

end MesonLens
