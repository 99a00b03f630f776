import MesonLens.Proofs.Analysis.Origins
import MesonLens.Proofs.Syntax.SourceOrder

/-!
# `MesonLens.Proofs.Analysis.Lasting`: what a binding leaves at the end of a file

The scope at the end of a file tells of every variable, but of its bindings only those that nothing
after them has replaced. What is left of a binding there depends on the rest of the file: on the
ways that come together after it, and on the nodes that bind the name anew.

* `Tree.WellFormed.targets_eq_nil`: in a text without errors, the names that an expression has in it
  are no targets. So every target is that of a statement which the analysis runs;
* `Scope.Each`: what holds of the origins of a variable in a scope. Joining two scopes keeps it when
  joining lists of origins does;
* `Analyze.Onset`: what is known of a scope up to a binding (`K`) and from then on (`J`). A scope
  that is joined with one where `J` holds gets it too, for a binding on one way is a binding after
  the ways have come together;
* `Analyze.onset_block`: from the step at the binding to the end of the block that it is in, however
  deep. The nodes before the binding come before it in the text, so `K` holds when it is reached;
* `SourceFile.contains_target`, `SourceFile.originsOf_target_ne_nil`,
  `SourceFile.exists_earlier_origin`: whole files.
-/

set_option autoImplicit false

namespace MesonLens

/-! ### Expressions -/

/-- Whether nodes of the kind are expressions or parts of them. -/
def Kind.isInValue : Kind → Bool
  | arguments | entry | keyword => true
  | k => k.isValue

theorem Kind.isInValue_of_isValue {k : Kind} (h : k.isValue = true) : k.isInValue = true := by
  cases k with
  | arguments | entry | keyword => rfl
  | _ => exact h

namespace Tree

/-- The parts of an expression and the parts of these are expressions again, or such parts. -/
theorem Formed.isInValue {t : Tree Mark} (h : t.Formed) (hkind : t.kind.isInValue = true) :
    ∀ c ∈ t.children, c.kind.isInValue = true := by
  have hvalue : ∀ {u : Tree Mark}, u.kind.isValue = true → u.kind.isInValue = true :=
    Kind.isInValue_of_isValue
  have hother : ∀ {u : Tree Mark} {k : Kind}, u.kind = k → k.isInValue = true →
      u.kind.isInValue = true := fun hk h => hk ▸ h
  cases t with
  | arguments m ts =>
    intro c hc
    exact (h c hc).elim hvalue fun hkeyword => hother hkeyword rfl
  | array m ts => exact fun c hc => hvalue (h c hc)
  | dictionary m ts => exact fun c hc => hother (h c hc) rfl
  | keyword m key value => simp [children, hother h.1 rfl, hvalue h.2]
  | binary m l op r | subscript m l r | entry m l r => simp [children, hvalue h.1, hvalue h.2]
  | conditional m c t f => simp [children, hvalue h.1, hvalue h.2.1, hvalue h.2.2]
  | call m callee args => simp [children, hother h.1 rfl, hother h.2 rfl]
  | method m object name args =>
    obtain ⟨hobject, hname, hargs⟩ := h
    cases args with
    | none => cases hargs
    | some args => simp [children, hvalue hobject, hother hname rfl,
        hother (Option.some.inj hargs) rfl]
  | unary m op t => simpa [children] using hvalue h
  | boolean | identifier | integer | string => exact nofun
  | _ => cases hkind

/-- No node of an expression binds a name as its target. -/
theorem WellFormed.targets_eq_nil {t : Tree Mark} (h : t.WellFormed)
    (hkind : t.kind.isInValue = true) : ∀ u ∈ t.preorder, u.targets = [] := by
  induction t using inductionOnParts with
  | node t ih =>
    intro u hu
    rw [preorder_eq, List.mem_cons, List.mem_flatMap] at hu
    rcases hu with rfl | ⟨c, hc, hu⟩
    · cases u with
      | assignment | iteration => cases hkind
      | _ => rfl
    · exact ih c hc (h.part hc) (h.formed.isInValue hkind c hc) u hu

/-- The variable is a target of the tree or of a node below, and the target has the property. -/
def HasTarget (x : String) (B : Tree Mark → Prop) (t : Tree Mark) : Prop :=
  ∃ u ∈ t.preorder, ∃ n ∈ u.targets, n.identifier? = some x ∧ B n

/-- The target is the tree's own, or in a part of it. -/
theorem HasTarget.own_or_part {x : String} {B : Tree Mark → Prop} {t : Tree Mark}
    (h : t.HasTarget x B) :
    (∃ n ∈ t.targets, n.identifier? = some x ∧ B n) ∨ ∃ c ∈ t.children, c.HasTarget x B := by
  obtain ⟨u, hu, htarget⟩ := h
  rw [preorder_eq, List.mem_cons, List.mem_flatMap] at hu
  rcases hu with rfl | ⟨c, hc, hu⟩
  · exact .inl htarget
  · exact .inr ⟨c, hc, u, hu, htarget⟩

theorem HasTarget.exists_mem {x : String} {B : Tree Mark → Prop} {t : Tree Mark}
    (h : t.HasTarget x B) : ∃ n ∈ t.preorder, B n := by
  obtain ⟨u, hu, n, hn, -, hB⟩ := h
  exact ⟨n, Analyze.part_mem hu (targets_subset u n hn), hB⟩

theorem WellFormed.of_mem {t u : Tree Mark} (h : t.WellFormed) (hu : u ∈ t.preorder) :
    u.WellFormed :=
  fun n hn => h n (mem_preorder_trans hu hn)

/-- An expression has no target in it. -/
theorem WellFormed.isInValue_eq_false {x : String} {B : Tree Mark → Prop} {t : Tree Mark}
    (h : t.WellFormed) (htarget : t.HasTarget x B) : t.kind.isInValue = false := by
  obtain ⟨u, hu, n, hn, -⟩ := htarget
  by_contra hkind
  rw [h.targets_eq_nil (Bool.eq_true_of_not_eq_false hkind) u hu] at hn
  cases hn

end Tree

/-! ### Scopes -/

namespace Scope

variable {x name : String} {Q : List Origin → Prop} {s s' : Scope}

/-- Wherever the scope tells of the variable, its origins have the property. -/
def Each (x : String) (Q : List Origin → Prop) (s : Scope) : Prop :=
  ∀ p ∈ s.bindings, p.1 = x → Q p.2.origins

theorem Each.get? (h : s.Each x Q) {b : Binding} (hb : s.get? x = some b) : Q b.origins := by
  obtain ⟨before, after, hsplit, -⟩ := List.lookup_eq_some_iff.mp hb
  exact h (x, b) (by simp [hsplit]) rfl

theorem Each.originsOf {P : Origin → Prop} (h : s.Each x fun l => ∀ o ∈ l, P o) :
    ∀ o ∈ s.originsOf x, P o := by
  intro o ho
  unfold Scope.originsOf at ho
  cases hb : s.get? x with
  | none => simp [hb] at ho
  | some b => exact h.get? hb o (by simpa [hb] using ho)

theorem each_of_contains_eq_false (h : s.contains x = false) : s.Each x Q := by
  have hnone : s.get? x = none := by simpa [contains] using h
  intro p hp hx
  exact absurd (List.mem_map.mpr ⟨p, hp, hx⟩) ((lookup_eq_none_iff x s.bindings).mp hnone)

theorem Each.set (h : s.Each x Q) {b : Binding} (hb : name = x → Q b.origins) :
    (s.set name b).Each x Q := by
  intro p hp hx
  rcases mem_setIn hp with rfl | hp
  · exact hb hx
  · exact h p hp hx

theorem Each.merge (hQ : ∀ {l l'}, Q l → Q l' → Q (Binding.addOrigins l l')) (h : s.Each x Q)
    (h' : s'.Each x Q) : (s.merge s').Each x Q := by
  obtain ⟨l⟩ := s'
  unfold Scope.merge
  induction l generalizing s with
  | nil => exact h
  | cons p l ih =>
    obtain ⟨name, binding⟩ := p
    have hbinding : name = x → Q binding.origins := h' (name, binding) List.mem_cons_self
    refine ih ?_ fun p hp => h' p (List.mem_cons_of_mem _ hp)
    dsimp only
    unfold mergeOne
    split
    · next there hthere =>
      refine h.set fun hx => hQ ?_ (hbinding hx)
      subst hx
      exact h.get? hthere
    · exact h.set hbinding

end Scope

/-! ### Up to a binding, and from then on -/

namespace Analyze

variable {ctx : Context} {root part : Tree Mark} {x : String} {B : Tree Mark → Prop}
  {K J : Scope → Prop} {a : Analysis}

/-- What every step keeps, and joining scopes too, is kept by the analysis. -/
theorem invariant_of_step (hstep : ∀ {s s'}, Step ctx root s s' → J s → J s')
    (hmerge : ∀ {s s'}, J s → J s' → J (s.merge s')) :
    Invariant ctx root (fun a => J a.scope) J where
  scope h := h
  merge := hmerge
  act {a act} hfits h := by
    show J (act.after ctx a).scope
    rw [Act.after_scope]
    exact hfits.step.elim (hstep · h) fun h => h

/-- The same, together with the scopes at the inclusions. -/
theorem invariant_includes_of_step (hstep : ∀ {s s'}, Step ctx root s s' → J s → J s')
    (hmerge : ∀ {s s'}, J s → J s' → J (s.merge s')) :
    Invariant ctx root (fun a => J a.scope ∧ ∀ i ∈ a.includeScopes, J i.scope) J where
  scope h := h.1
  merge := hmerge
  act {a act} hfits h := by
    refine ⟨(invariant_of_step hstep hmerge).act hfits h.1, fun i hi => ?_⟩
    rw [Act.after_includeScopes, List.mem_append, Option.mem_toList] at hi
    rcases hi with hi | hi
    · exact h.2 i hi
    · rw [Act.scope_of_mem_include? hi]
      exact h.1

/-- What is known of the scopes up to a binding of a variable (`K`), and from then on (`J`). The
nodes in question have the property `B`: all that bind the variable anew, and the targets up to the
one where `J` starts. -/
structure Onset (ctx : Context) (root : Tree Mark) (x : String) (B : Tree Mark → Prop)
    (K J : Scope → Prop) : Prop where
  rebinds : ∀ n, root.Rebinds x n → B n
  upto : ∀ {part : Tree Mark}, (∀ n, part.Binds x n → B n) →
    Invariant ctx part (fun a => K a.scope) K
  lasts : Invariant ctx root (fun a => J a.scope) J
  left : ∀ {s : Scope} (s' : Scope), J s → J (s.merge s')
  right : ∀ (s : Scope) {s' : Scope}, J s' → J (s.merge s')
  assigned : ∀ {s : Scope} {target : Mark} (types : TypeSet), B (.identifier target x) →
    J (s.assign x types (some (ctx.origin target)))
  updated : ∀ {s : Scope} {target : Mark} (types : TypeSet), B (.identifier target x) → K s →
    (∃ u ∈ root.preorder, u.compoundTarget? = some x) →
    J (s.update x types (some (ctx.origin target)))

/-- One of the statements has a target of the variable in it, however deep. Where a node has the
property, those before it have it as well. -/
structure Awaits (root : Tree Mark) (x : String) (B : Tree Mark → Prop) (ts : List (Tree Mark)) :
    Prop where
  mem : ∀ t ∈ ts, t ∈ root.preorder
  kind : ∀ t ∈ ts, t.kind.isStatement = true
  order : (ts.flatMap Tree.preorder).Pairwise fun m n => B n → B m
  target : ∃ t ∈ ts, t.HasTarget x B

/-- Trees before a target have the property. -/
theorem forall_of_target_after {ts us : List (Tree Mark)}
    (horder : ((ts ++ us).flatMap Tree.preorder).Pairwise fun m n => B n → B m)
    (htarget : ∃ t ∈ us, t.HasTarget x B) : ∀ t ∈ ts, ∀ m ∈ t.preorder, B m := by
  rw [List.flatMap_append, List.pairwise_append] at horder
  obtain ⟨u, hu, htarget⟩ := htarget
  obtain ⟨n, hn, hB⟩ := htarget.exists_mem
  intro t ht m hm
  exact horder.2.2 m (List.mem_flatMap.mpr ⟨t, ht, hm⟩) n (List.mem_flatMap.mpr ⟨u, hu, hn⟩) hB

/-- The target is in the first statement, or after it. -/
theorem Awaits.cons {t : Tree Mark} {rest : List (Tree Mark)} (h : Awaits root x B (t :: rest)) :
    Awaits root x B [t] ∨ (∀ m ∈ t.preorder, B m) ∧ Awaits root x B rest := by
  obtain ⟨hmem, hkind, horder, v, hv, htarget⟩ := h
  have hparts := horder
  rw [List.flatMap_cons, List.pairwise_append] at hparts
  rcases List.mem_cons.mp hv with rfl | hv
  · refine .inl ⟨?_, ?_, ?_, v, List.mem_singleton_self v, htarget⟩
    · exact List.forall_mem_singleton.mpr (hmem v List.mem_cons_self)
    · exact List.forall_mem_singleton.mpr (hkind v List.mem_cons_self)
    · simpa using hparts.1
  · have hearlier : ∀ u ∈ [t], ∀ m ∈ u.preorder, B m :=
      forall_of_target_after horder ⟨v, hv, htarget⟩
    refine .inr ⟨?_, ?_, ?_, hparts.2.1, v, hv, htarget⟩
    · exact hearlier t (List.mem_singleton_self t)
    · exact fun u hu => hmem u (List.mem_cons_of_mem t hu)
    · exact fun u hu => hkind u (List.mem_cons_of_mem t hu)

/-- What is awaited in one statement. -/
theorem Awaits.single {t : Tree Mark} (h : Awaits root x B [t]) :
    t ∈ root.preorder ∧ (t.preorder.Pairwise fun m n => B n → B m) ∧ t.HasTarget x B := by
  obtain ⟨u, hu, htarget⟩ := h.target
  rw [List.mem_singleton.mp hu] at htarget
  exact ⟨h.mem t (List.mem_singleton_self t), by simpa using h.order, htarget⟩

/-- A target in a block is awaited there. -/
theorem Awaits.body {t : Tree Mark} {body : List (Tree Mark)} (ht : t ∈ root.preorder)
    (hbody : body.Sublist t.children) (hkind : ∀ c ∈ body, c.kind.isStatement = true)
    (horder : t.preorder.Pairwise fun m n => B n → B m) (htarget : ∃ c ∈ body, c.HasTarget x B) :
    Awaits root x B body := by
  refine ⟨fun c hc => part_mem ht (hbody.subset hc), hkind, ?_, htarget⟩
  rw [Tree.preorder_eq] at horder
  exact (List.pairwise_cons.mp horder).2.sublist (hbody.flatMap _)

end Analyze

/-- A block of a selection is among its parts. -/
theorem Branches.sublist_children {α : Type} {bs : Branches α} {body : List (Tree α)}
    (h : body ∈ bs.blocks) : body.Sublist bs.children := by
  fun_induction Branches.children bs with
  | case1 => cases h
  | case2 only =>
    rw [List.mem_singleton.mp h]
  | case3 condition first rest ih =>
    rcases List.mem_cons.mp h with rfl | h
    · exact (List.sublist_append_left _ _).cons _
    · exact ((ih h).trans (List.sublist_append_right _ _)).cons _

namespace Analyze

section

variable {ctx : Context} {root : Tree Mark} {x : String} {B : Tree Mark → Prop}
  {K J : Scope → Prop}

namespace Onset

variable (h : Onset ctx root x B K J)
include h

/-- `K` is kept by a part of the tree whose targets have the property. -/
theorem invariant {part : Tree Mark} (hcalls : ∀ u ∈ part.preorder, u.kind = .call →
      u ∈ root.preorder) (htargets : ∀ u ∈ part.preorder, ∀ n ∈ u.targets, B n) :
    Invariant ctx part (fun a => K a.scope) K := by
  refine h.upto fun n hn => ?_
  cases hn with
  | target mem target named => exact htargets _ mem n target
  | argument mem function first named =>
    exact h.rebinds n (.argument (hcalls _ mem rfl) function first named)

/-- Expressions have no targets in them, so `K` holds after them. -/
theorem expr (hroot : root.WellFormed) {e : Tree Mark} (he : e ∈ root.preorder)
    (hkind : e.kind.isValue = true) {a : Analysis} (ha : K a.scope) :
    K ((Analyze.expr ctx e).run a).2.scope := by
  have hnone := (hroot.of_mem he).targets_eq_nil (Kind.isInValue_of_isValue hkind)
  refine (enacts_expr ctx e (Tree.mem_preorder_self e) a).keeps (h.invariant ?_ ?_) ha
  · exact fun u hu _ => Tree.mem_preorder_trans he hu
  · intro u hu n hn
    rw [hnone u hu] at hn
    cases hn

/-- `K` holds after a statement before the target. -/
theorem statement {t : Tree Mark} (ht : t ∈ root.preorder) (hearlier : ∀ m ∈ t.preorder, B m)
    {a : Analysis} (ha : K a.scope) : K ((Analyze.statement ctx t).run a).2.scope := by
  have inv : Invariant ctx t (fun a => K a.scope) K := by
    refine h.invariant (fun u hu _ => Tree.mem_preorder_trans ht hu) fun u hu n hn => ?_
    exact hearlier n (part_mem hu (Tree.targets_subset u n hn))
  exact (enacts_statement inv t (Tree.mem_preorder_self t) a ha).keeps inv ha

/-- At the target itself `J` sets in. -/
theorem bindVariable {node target : Mark} {op : AssignOp} {types : TypeSet}
    (hB : B (.identifier target x))
    (hop : op ≠ .assign → ∃ u ∈ root.preorder, u.compoundTarget? = some x) {a : Analysis}
    (ha : K a.scope) : J ((Analyze.bindVariable ctx node target x op types).run a).2.scope := by
  rw [(uses_bindVariable ctx node target x op types a).1]
  unfold rebound
  cases hbinary : op.binary? with
  | none => exact h.assigned types hB
  | some binary =>
    refine h.updated _ hB ha (hop ?_)
    rintro rfl
    cases hbinary

/-- What holds after a statement holds at the end of its block. -/
theorem block {ts : List (Tree Mark)} (hts : ∀ t ∈ ts, t ∈ root.preorder) {a : Analysis}
    (ha : J a.scope) : J ((Analyze.block ctx ts).run a).2.scope :=
  (enacts_block h.lasts ts hts a ha).keeps h.lasts ha

/-- What holds after a branch holds where it is joined with the branches before it. -/
theorem merged {after : Scope} (hafter : J after) (merged : Option Scope) :
    J ((merged.map (·.merge after)).getD after) := by
  cases merged with
  | none => exact hafter
  | some s => exact h.right s hafter

/-- What holds after one branch of a selection holds after the selection. -/
theorem branches {before merged : Scope} (hmerged : J merged) : ∀ (bs : Branches Mark)
    (a : Analysis), J ((Analyze.branches ctx before (some merged) bs).run a).1
  | .done, _ => h.left before hmerged
  | .otherwise _, _ => h.left _ hmerged
  | .arm _ _ rest, _ => branches (h.left _ hmerged) rest _

end Onset

/-- How a loop runs: its variables are bound, each to some types, and what was known before it is
joined with what is known after its body. -/
theorem iteration_run (ctx : Context) (mark : Mark) (names : List (Tree Mark))
    (iterable : Tree Mark) (body : List (Tree Mark)) (a : Analysis) :
    ∃ (held : List TypeSet) (b : Analysis), held.length = names.length ∧
      b.scope = ((expr ctx iterable).run a).2.scope ∧
      ((statement ctx (.iteration mark names iterable body)).run a).2.scope =
        ((block ctx body).run
          ((bindLoopVariables ctx mark (names.zip held)).run b).2).2.scope.merge b.scope := by
  have hlength := length_loopTypes names.length ((expr ctx iterable).run a).1
  -- What follows the iterable runs in the state that this leaves.
  have hbind : ∀ {α β : Type} (m : Analyze α) (k : α → Analyze β) (a : Analysis),
      (m >>= k).run a = (k (m.run a).1).run (m.run a).2 := fun _ _ _ => rfl
  rw [show statement ctx (.iteration mark names iterable body) = expr ctx iterable >>= _ from rfl,
    hbind]
  generalize loopTypes names.length ((expr ctx iterable).run a).1 = loop at hlength ⊢
  obtain ⟨held, problem⟩ := loop
  cases problem with
  | none => exact ⟨held, ((expr ctx iterable).run a).2, hlength, rfl, rfl⟩
  | some p =>
    exact ⟨held, ((report p iterable.span).run ((expr ctx iterable).run a).2).2, hlength, rfl, rfl⟩

/-- `K` holds where the body of a loop starts, when the target is in the body. -/
theorem Onset.header (h : Onset ctx root x B K J) {mark : Mark} {names body : List (Tree Mark)}
    {iterable : Tree Mark} (ht : .iteration mark names iterable body ∈ root.preorder)
    (hearlier : ∀ c ∈ names ++ [iterable], ∀ m ∈ c.preorder, B m) {held : List TypeSet}
    (hlength : held.length = names.length) {a : Analysis} (ha : K a.scope) :
    K ((Analyze.bindLoopVariables ctx mark (names.zip held)).run a).2.scope := by
  -- The loop without its body has the same header.
  let bare : Tree Mark := .iteration mark names iterable []
  have hbare : ∀ u ∈ bare.preorder, u = bare ∨ ∃ c ∈ names ++ [iterable], u ∈ c.preorder := by
    intro u hu
    rwa [Tree.preorder_eq, List.mem_cons, List.mem_flatMap] at hu
  have hchild : ∀ c ∈ names ++ [iterable], c ∈ root.preorder := by
    intro c hc
    have hparts : names ++ iterable :: body = (names ++ [iterable]) ++ body := by simp
    refine part_mem ht ?_
    rw [Tree.children, hparts]
    exact List.mem_append_left body hc
  have inv : Invariant ctx bare (fun a => K a.scope) K := by
    refine h.invariant (fun u hu hcall => ?_) fun u hu n hn => ?_
    · rcases hbare u hu with rfl | ⟨c, hc, hu⟩
      · cases hcall
      · exact Tree.mem_preorder_trans (hchild c hc) hu
    · rcases hbare u hu with rfl | ⟨c, hc, hu⟩
      · exact hearlier n (List.mem_append_left _ (List.mem_filter.mp hn).1) n
          (Tree.mem_preorder_self n)
      · exact hearlier c hc n (part_mem hu (Tree.targets_subset u n hn))
  have hfst : (names.zip held).map Prod.fst = names := List.map_fst_zip hlength.ge
  have henacts := enacts_bindLoopVariables (J := K) ctx mark (Tree.mem_preorder_self bare) rfl
    (names.zip held) (by rw [hfst]; exact fun _ h => h) a
  exact henacts.keeps inv ha

/-- The variables of a loop are bound as by an assignment. -/
theorem Onset.loopVariables (h : Onset ctx root x B K J) (mark : Mark) {t : Tree Mark}
    (ht : t ∈ root.preorder) (hplain : t.compoundTarget? = none) :
    (pairs : List (Tree Mark × TypeSet)) →
    (∀ n ∈ (pairs.map Prod.fst).filter Tree.isIdentifier, n ∈ t.targets) →
    (∃ n ∈ pairs.map Prod.fst, n.identifier? = some x ∧ B n) → (a : Analysis) →
    J ((bindLoopVariables ctx mark pairs).run a).2.scope
  | [], _, hn, _ => by
    obtain ⟨n, hn, -⟩ := hn
    cases hn
  | (n, types) :: rest, htargets, hn, a => by
    have hrest : ∀ m ∈ (rest.map Prod.fst).filter Tree.isIdentifier, m ∈ t.targets := fun m hm =>
      htargets m ((List.sublist_cons_self n _).filter _ |>.subset hm)
    obtain ⟨m, hm, hname, hB⟩ := hn
    rcases List.mem_cons.mp hm with rfl | hm
    · cases m with
      | identifier target name =>
        obtain rfl := Option.some.inj hname
        -- Nothing that the loop binds after this variable undoes it.
        have hfirst : J (a.scope.assign name types (some (ctx.origin target))) :=
          h.assigned types hB
        exact (enacts_bindLoopVariables ctx mark ht hplain rest hrest _).keeps h.lasts hfirst
      | _ => cases hname
    · have hmore := h.loopVariables mark ht hplain rest hrest ⟨m, hm, hname, hB⟩
      cases n <;> exact hmore _

mutual

/-- After a statement that has a target of the variable in it, `J` holds. -/
theorem onset_statement (h : Onset ctx root x B K J) (hroot : root.WellFormed) :
    (t : Tree Mark) → Awaits root x B [t] → (a : Analysis) → K a.scope →
    J ((statement ctx t).run a).2.scope
  | .assignment mark target op value, hawaits, a, ha => by
    obtain ⟨ht, -, htarget⟩ := hawaits.single
    obtain ⟨htargetKind, hvalue⟩ := hroot _ ht
    have hmid := h.expr hroot (part_mem ht (by simp [Tree.children])) hvalue ha
    rcases htarget.own_or_part with ⟨n, hn, hname, hB⟩ | ⟨c, hc, htarget⟩
    · rw [Tree.targets, List.mem_filter, List.mem_singleton] at hn
      obtain ⟨rfl, -⟩ := hn
      cases n with
      | identifier m name =>
        obtain rfl := Option.some.inj hname
        exact h.bindVariable hB (fun hop => ⟨_, ht, if_neg hop⟩) hmid
      | _ => cases hname
    · -- The parts of an assignment are expressions.
      have hkind := (hroot.of_mem (part_mem ht hc)).isInValue_eq_false htarget
      simp only [Tree.children, List.mem_cons, List.not_mem_nil, or_false] at hc
      rcases hc with rfl | rfl
      · rw [htargetKind] at hkind
        cases hkind
      · rw [Kind.isInValue_of_isValue hvalue] at hkind
        cases hkind
  | .selection mark bs, hawaits, a, ha => by
    obtain ⟨ht, horder, htarget⟩ := hawaits.single
    obtain ⟨hconditions, hblocks⟩ := hroot _ ht
    rcases htarget.own_or_part with ⟨n, hn, -⟩ | ⟨c, hc, htarget⟩
    · cases hn
    have hkind := (hroot.of_mem (part_mem ht hc)).isInValue_eq_false htarget
    rcases Branches.mem_children_iff.mp hc with hcondition | ⟨body, hbody, hcbody⟩
    · rw [Kind.isInValue_of_isValue (hconditions c hcondition)] at hkind
      cases hkind
    · have hbs : ∀ c ∈ bs.conditions, c ∈ root.preorder ∧ c.kind.isValue = true := fun c hc =>
        ⟨part_mem ht (Branches.mem_children_iff.mpr (.inl hc)), hconditions c hc⟩
      have hblock : Awaits root x B body := .body ht (Branches.sublist_children hbody)
        (hblocks body hbody) horder ⟨c, hcbody, htarget⟩
      exact onset_branches h hroot ha bs hbs ⟨body, hbody, hblock⟩ none a
  | .iteration mark names iterable body, hawaits, a, ha => by
    obtain ⟨ht, horder, htarget⟩ := hawaits.single
    obtain ⟨hnames, hiterable, hbody⟩ := hroot _ ht
    have hmid := h.expr hroot (part_mem ht (by simp [Tree.children])) hiterable ha
    obtain ⟨held, b, hlength, hb, hrun⟩ := iteration_run ctx mark names iterable body a
    have hfst : (names.zip held).map Prod.fst = names := List.map_fst_zip hlength.ge
    have hparts : names ++ iterable :: body = (names ++ [iterable]) ++ body := by simp
    rw [hrun]
    refine h.left _ ?_
    rcases htarget.own_or_part with ⟨n, hn, hname, hB⟩ | ⟨c, hc, htarget⟩
    · have hheader := h.loopVariables mark ht rfl (names.zip held)
        (by rw [hfst]; exact fun _ h => h)
        (by rw [hfst]; exact ⟨n, (List.mem_filter.mp hn).1, hname, hB⟩) b
      exact h.block (fun t hmem => part_mem ht (by simp [Tree.children, hmem])) hheader
    have hkind := (hroot.of_mem (part_mem ht hc)).isInValue_eq_false htarget
    simp only [Tree.children, List.mem_append, List.mem_cons] at hc
    rcases hc with hc | rfl | hc
    · rw [hnames c hc] at hkind
      cases hkind
    · rw [Kind.isInValue_of_isValue hiterable] at hkind
      cases hkind
    · have hsub : body.Sublist (names ++ iterable :: body) := by
        rw [hparts]
        exact List.sublist_append_right _ body
      have hblock := Awaits.body ht hsub hbody horder ⟨c, hc, htarget⟩
      -- The header stands before the target.
      rw [Tree.preorder_eq, List.pairwise_cons, Tree.children, hparts] at horder
      have hearlier := forall_of_target_after horder.2 ⟨c, hc, htarget⟩
      exact onset_block h hroot body hblock _ (h.header ht hearlier hlength (hb ▸ hmid))
  | .breakLoop _, hawaits, _, _ | .continueLoop _, hawaits, _, _
  | .malformed _ _, hawaits, _, _ => by
    rcases hawaits.single.2.2.own_or_part with ⟨n, hn, -⟩ | ⟨c, hc, -⟩
    · cases hn
    · cases hc
  | .file .., hawaits, _, _ => by
    cases hawaits.kind _ (List.mem_singleton_self _)
  | .arguments .., hawaits, _, _ | .array .., hawaits, _, _ | .binary .., hawaits, _, _
  | .boolean .., hawaits, _, _ | .conditional .., hawaits, _, _ | .dictionary .., hawaits, _, _
  | .call .., hawaits, _, _ | .identifier .., hawaits, _, _ | .integer .., hawaits, _, _
  | .entry .., hawaits, _, _ | .keyword .., hawaits, _, _ | .method .., hawaits, _, _
  | .string .., hawaits, _, _ | .subscript .., hawaits, _, _ | .unary .., hawaits, _, _ => by
    obtain ⟨ht, -, htarget⟩ := hawaits.single
    cases (hroot.of_mem ht).isInValue_eq_false htarget

theorem onset_block (h : Onset ctx root x B K J) (hroot : root.WellFormed) :
    (ts : List (Tree Mark)) → Awaits root x B ts → (a : Analysis) → K a.scope →
    J ((block ctx ts).run a).2.scope
  | [], hawaits, _, _ => by
    obtain ⟨t, ht, -⟩ := hawaits.target
    cases ht
  | t :: rest, hawaits, a, ha => by
    show J ((block ctx rest).run ((statement ctx t).run a).2).2.scope
    rcases hawaits.cons with hfirst | ⟨hearlier, hrest⟩
    · have hmem := (List.forall_mem_cons.mp hawaits.mem).2
      exact h.block hmem (onset_statement h hroot t hfirst a ha)
    · have ht := (List.forall_mem_cons.mp hawaits.mem).1
      exact onset_block h hroot rest hrest _ (h.statement ht hearlier ha)

/-- After a selection that has a target of the variable in one of its blocks, `J` holds. The block
starts from the scope before the selection. -/
theorem onset_branches (h : Onset ctx root x B K J) (hroot : root.WellFormed) {before : Scope}
    (hbefore : K before) : (bs : Branches Mark) →
    (∀ c ∈ bs.conditions, c ∈ root.preorder ∧ c.kind.isValue = true) →
    (∃ body ∈ bs.blocks, Awaits root x B body) → (merged : Option Scope) → (a : Analysis) →
    J ((branches ctx before merged bs).run a).1
  | .done, _, htarget, _, _ => by
    obtain ⟨body, hbody, -⟩ := htarget
    cases hbody
  | .otherwise body, _, htarget, merged, a => by
    obtain ⟨only, honly, hawaits⟩ := htarget
    rw [List.mem_singleton.mp honly] at hawaits
    exact h.merged (onset_block h hroot body hawaits { a with scope := before } hbefore) merged
  | .arm condition body rest, hconditions, htarget, merged, a => by
    obtain ⟨⟨hmem, hkind⟩, hmore⟩ := List.forall_mem_cons.mp hconditions
    have hcondition := h.expr hroot hmem hkind (a := { a with scope := before }) hbefore
    obtain ⟨chosen, hchosen, hawaits⟩ := htarget
    -- After the block with the target the branches below can only add to what was joined.
    rcases List.mem_cons.mp hchosen with heq | hchosen
    · rw [heq] at hawaits
      exact h.branches (h.merged (onset_block h hroot body hawaits _ hcondition) merged) rest _
    · exact onset_branches h hroot hbefore rest hmore ⟨chosen, hchosen, hawaits⟩ _ _

end

/-! ### What is known of a variable -/

theorem Step.contains {s s' : Scope} (hstep : Step ctx root s s') (hs : s.contains x = true) :
    s'.contains x = true := by
  cases hstep with
  | keep => exact hs
  | anew | change | first => exact Scope.contains_set.mpr (.inr hs)

/-- A variable that was bound stays known. -/
theorem onset_contains (ctx : Context) (root : Tree Mark) (x : String) :
    Onset ctx root x (fun _ => True) (fun _ => True) (·.contains x = true) where
  rebinds _ _ := trivial
  upto _ := invariant_true ctx _
  lasts := invariant_of_step (J := (·.contains x = true)) Step.contains fun hs _ =>
    Scope.contains_merge_left _ hs
  left s' hs := Scope.contains_merge_left s' hs
  right s _ hs := Scope.contains_merge_right s hs
  assigned _ _ := Scope.contains_set.mpr (.inl rfl)
  updated _ _ _ _ := by
    unfold Scope.update
    split <;> exact Scope.contains_set.mpr (.inl rfl)

section

variable {P : Origin → Prop}

/-- An origin of a variable with the property is replaced only by another one. -/
theorem Step.exists_origin {s s' : Scope} (hstep : Step ctx root s s')
    (hrebinds : ∀ n, root.Rebinds x n → P (ctx.origin n.note))
    (hs : ∃ o ∈ s.originsOf x, P o) : ∃ o ∈ s'.originsOf x, P o := by
  cases hstep with
  | keep => exact hs
  | @anew name n b rebinds origins =>
    by_cases hx : x = name
    · subst hx
      rw [Scope.originsOf_set_self, origins]
      exact ⟨_, List.mem_singleton_self _, hrebinds n rebinds⟩
    · rwa [Scope.originsOf_set_of_ne s hx]
  | @change name b old known origins =>
    by_cases hx : x = name
    · subst hx
      simpa [Scope.originsOf, known, Scope.get?_set_self, origins] using hs
    · rwa [Scope.originsOf_set_of_ne s hx]
  | @first name n b unknown binds origins =>
    by_cases hx : x = name
    · subst hx
      -- A variable that is not known has no origin.
      simp [Scope.originsOf, unknown] at hs
    · rwa [Scope.originsOf_set_of_ne s hx]

theorem invariant_exists_origin (hrebinds : ∀ n, root.Rebinds x n → P (ctx.origin n.note)) :
    Invariant ctx root (fun a => ∃ o ∈ a.scope.originsOf x, P o)
      (fun s => ∃ o ∈ s.originsOf x, P o) :=
  invariant_of_step (fun hstep hs => hstep.exists_origin hrebinds hs) fun hs _ =>
    hs.imp fun _ ho => ⟨Scope.mem_originsOf_merge_left _ ho.1, ho.2⟩

/-- The origins of a variable change only where it is bound anew, or where it was not known. -/
theorem Step.each {s s' : Scope} {Q : List Origin → Prop} (hstep : Step ctx root s s')
    (hanew : ∀ n, root.Rebinds x n → Q [ctx.origin n.note])
    (hfirst : s.get? x = none → ∀ n, root.Binds x n → Q [ctx.origin n.note]) (hs : s.Each x Q) :
    s'.Each x Q := by
  cases hstep with
  | keep => exact hs
  | anew rebinds origins => exact hs.set fun hx => origins ▸ hanew _ (hx ▸ rebinds)
  | change known origins => exact hs.set fun hx => origins ▸ hs.get? (hx ▸ known)
  | first unknown binds origins =>
    exact hs.set fun hx => origins ▸ hfirst (hx ▸ unknown) _ (hx ▸ binds)

/-- Every origin has the property, and there is one. -/
def AllOrigins (P : Origin → Prop) (l : List Origin) : Prop := l ≠ [] ∧ ∀ o ∈ l, P o

theorem AllOrigins.exists_mem {l : List Origin} (h : AllOrigins P l) : ∃ o ∈ l, P o := by
  obtain ⟨o, ho⟩ := List.exists_mem_of_ne_nil l h.1
  exact ⟨o, ho, h.2 o ho⟩

theorem AllOrigins.merge {l l' : List Origin} (h : AllOrigins P l) (h' : AllOrigins P l') :
    AllOrigins P (Binding.addOrigins l l') := by
  obtain ⟨o, ho⟩ := List.exists_mem_of_ne_nil l h.1
  refine ⟨List.ne_nil_of_mem (Binding.mem_addOrigins.mpr (.inl ho)), fun o ho => ?_⟩
  exact (Binding.mem_addOrigins.mp ho).elim (h.2 o) (h'.2 o)

/-- From a binding on, the variable has an origin with the property when all nodes that bind it anew
have it. A variable that an operator changes has its origins from before, which have the property
as well. -/
theorem onset_origin (ctx : Context)
    (hrebinds : ∀ n, root.Rebinds x n → P (ctx.origin n.note)) :
    Onset ctx root x (fun n => P (ctx.origin n.note)) (Scope.Each x (AllOrigins P))
      (fun s => ∃ o ∈ s.originsOf x, P o) where
  rebinds := hrebinds
  upto {part} hbinds := by
    have hone : ∀ n, part.Binds x n → AllOrigins P [ctx.origin n.note] := fun n hn =>
      ⟨List.cons_ne_nil _ _, List.forall_mem_singleton.mpr (hbinds n hn)⟩
    exact invariant_of_step (fun hstep => hstep.each (fun n hn => hone n hn.binds) fun _ => hone)
      (Scope.Each.merge AllOrigins.merge)
  lasts := invariant_exists_origin hrebinds
  left _ h := h.imp fun _ ho => ⟨Scope.mem_originsOf_merge_left _ ho.1, ho.2⟩
  right _ _ h := h.imp fun _ ho => ⟨Scope.mem_originsOf_merge_right _ ho.1, ho.2⟩
  assigned _ hB := by
    rw [Scope.assign, Scope.originsOf_set_self]
    exact ⟨_, List.mem_singleton_self _, hB⟩
  updated _ hB hs _ := by
    unfold Scope.update
    -- A variable that is known keeps its origins, and has one with the property. One that is not
    -- known gets the origin of the target.
    split
    · next b hb =>
      rw [Scope.originsOf_set_self]
      exact (hs.get? hb).exists_mem
    · rw [Scope.assign, Scope.originsOf_set_self]
      exact ⟨_, List.mem_singleton_self _, hB⟩

/-- A variable that no operator changes has an origin from a binding on. -/
theorem onset_some_origin (ctx : Context)
    (hplain : ∀ u ∈ root.preorder, u.compoundTarget? ≠ some x) :
    Onset ctx root x (fun _ => True) (fun _ => True) (fun s => ∃ o ∈ s.originsOf x, True) where
  rebinds _ _ := trivial
  upto _ := invariant_true ctx _
  lasts := invariant_exists_origin fun _ _ => trivial
  left _ h := h.imp fun _ ho => ⟨Scope.mem_originsOf_merge_left _ ho.1, ho.2⟩
  right _ _ h := h.imp fun _ ho => ⟨Scope.mem_originsOf_merge_right _ ho.1, ho.2⟩
  assigned _ _ := by
    rw [Scope.assign, Scope.originsOf_set_self]
    exact ⟨_, List.mem_singleton_self _, trivial⟩
  updated _ _ _ hu := by
    obtain ⟨u, hu, hcompound⟩ := hu
    exact absurd hcompound (hplain u hu)

/-- The variable is known, without an origin or with one that has the property. -/
structure KnownFrom (P : Origin → Prop) (x : String) (s : Scope) : Prop where
  contains : s.contains x = true
  each : s.Each x fun l => l = [] ∨ ∃ o ∈ l, P o

/-- This lasts from the start of a file when all nodes that bind the variable anew have the
property. -/
theorem invariant_knownFrom (hrebinds : ∀ n, root.Rebinds x n → P (ctx.origin n.note)) :
    Invariant ctx root (fun a => KnownFrom P x a.scope) (KnownFrom P x) := by
  refine invariant_of_step (fun hstep hs => ⟨hstep.contains hs.contains, ?_⟩) fun hs hs' =>
    ⟨Scope.contains_merge_left _ hs.contains, .merge (fun h h' => ?_) hs.each hs'.each⟩
  · refine hstep.each (fun n hn => .inr ⟨_, List.mem_singleton_self _, hrebinds n hn⟩) ?_ hs.each
    intro hunknown
    have hknown := hs.contains
    rw [Scope.contains, hunknown] at hknown
    cases hknown
  · -- Two variables without origins are joined to one without origins.
    rcases h with rfl | ⟨o, ho, hP⟩
    · rcases h' with rfl | ⟨o, ho, hP⟩
      · exact .inl rfl
      · exact .inr ⟨o, Binding.mem_addOrigins.mpr (.inr ho), hP⟩
    · exact .inr ⟨o, Binding.mem_addOrigins.mpr (.inl ho), hP⟩

end

end

end Analyze

/-! ### Whole files -/

/-- The origin is in another file, or before a place of this file. -/
def Origin.Earlier (file : Path) (line column : Nat) (o : Origin) : Prop :=
  o.file ≠ file ∨ o.span.start.precedes line column = true

instance (file : Path) (line column : Nat) (o : Origin) : Decidable (o.Earlier file line column) :=
  inferInstanceAs (Decidable (_ ∨ _))

namespace SourceFile

open Analyze

variable {text : String} {ctx : Context} {x : String}

/-- What holds after a target in a text without errors holds at the end of the text. -/
theorem holds_of_target (herrors : (parse text).errors = []) {B : Tree Mark → Prop}
    {K J : Scope → Prop} (h : Onset ctx (parse text).root x B K J)
    (horder : (parse text).root.preorder.Pairwise fun m n => B n → B m) {t n : Tree Mark}
    (ht : t ∈ (parse text).root.preorder) (hn : n ∈ t.targets) (hname : n.identifier? = some x)
    (hB : B n) (scope : Scope) (hscope : K scope) :
    J ((parse text).analyze ctx.catalog ctx.file scope).scope := by
  have hroot := wellFormed_root text herrors
  obtain ⟨m, hfile⟩ : ∃ m, (parse text).root = .file m (parse text).statements := ⟨_, rfl⟩
  have hkind : ∀ s ∈ (parse text).statements, s.kind.isStatement = true := by
    have hformed := hroot.formed
    rw [hfile] at hformed
    exact hformed
  have hawaits : Awaits (parse text).root x B (parse text).statements := by
    -- The whole file is the block that waits for the target.
    refine .body (Tree.mem_preorder_self _) (by rw [hfile]; exact .refl _) hkind horder ?_
    rw [hfile, Tree.preorder_eq, List.mem_cons, List.mem_flatMap] at ht
    rcases ht with rfl | ⟨c, hc, ht⟩
    · cases hn
    · exact ⟨c, hc, t, ht, n, hn, hname, hB⟩
  rw [analyze_eq]
  exact onset_block h hroot _ hawaits _ hscope

variable {t n : Tree Mark}

/-- In a text without errors every target is known at the end. -/
theorem contains_target (herrors : (parse text).errors = []) (ctx : Context)
    (ht : t ∈ (parse text).root.preorder) (hn : n ∈ t.targets) (hname : n.identifier? = some x)
    (scope : Scope) :
    ((parse text).analyze ctx.catalog ctx.file scope).scope.contains x = true :=
  holds_of_target herrors (onset_contains ctx _ x) (List.pairwise_of_forall fun _ _ h => h) ht hn
    hname trivial scope trivial

/-- And it comes from somewhere, unless an operator changes it. -/
theorem originsOf_target_ne_nil (herrors : (parse text).errors = []) (ctx : Context)
    (hplain : (parse text).NeverUpdates x) (ht : t ∈ (parse text).root.preorder)
    (hn : n ∈ t.targets) (hname : n.identifier? = some x) (scope : Scope) :
    ((parse text).analyze ctx.catalog ctx.file scope).scope.originsOf x ≠ [] := by
  obtain ⟨o, ho, -⟩ := holds_of_target herrors (onset_some_origin ctx hplain)
    (List.pairwise_of_forall fun _ _ h => h) ht hn hname trivial scope trivial
  exact List.ne_nil_of_mem ho

/-- Where nothing binds a variable anew after a place, and a target of it stands before the place,
the variable still comes from before the place at the end of the file. It comes from nowhere when it
is one of those that are always there. -/
theorem exists_earlier_origin (herrors : (parse text).errors = []) (ctx : Context)
    {line column : Nat}
    (hrebinds : ∀ n, (parse text).root.Rebinds x n → n.span.start.precedes line column = true)
    (ht : t ∈ (parse text).root.preorder) (hn : n ∈ t.targets) (hname : n.identifier? = some x)
    (hbefore : n.span.start.precedes line column = true) {scope : Scope}
    (hscope : scope.Each x fun l => ∀ o ∈ l, o.file ≠ ctx.file) :
    ∃ b, ((parse text).analyze ctx.catalog ctx.file scope).scope.get? x = some b ∧
      (b.origins = [] ∨ ∃ o ∈ b.origins, o.Earlier ctx.file line column) := by
  let P : Origin → Prop := Origin.Earlier ctx.file line column
  have hrebinds : ∀ n, (parse text).root.Rebinds x n → P (ctx.origin n.note) := fun n hn =>
    .inr (hrebinds n hn)
  -- A variable that is known at the start has origins in other files. One that is not known comes
  -- from the first target that is met.
  cases hknown : scope.contains x with
  | true =>
    have hstart : KnownFrom P x scope := by
      refine ⟨hknown, fun p hp hx => ?_⟩
      rcases List.eq_nil_or_concat p.2.origins with hnil | ⟨before, o, hl⟩
      · exact .inl hnil
      · have ho : o ∈ p.2.origins := by simp [hl]
        exact .inr ⟨o, ho, .inl (hscope p hp hx o ho)⟩
    have hend := (parse text).keeps_analyze ctx (invariant_knownFrom hrebinds) hstart
    obtain ⟨b, hb⟩ := Option.isSome_iff_exists.mp hend.contains
    exact ⟨b, hb, hend.each.get? hb⟩
  | false =>
    -- Targets are met in the order of the text, so those met before this one stand before the place
    -- as well.
    have hsorted := sorted_below (mem_nodes.mpr (Tree.mem_preorder_self (parse text).root))
      fun m _ _ hlate => by
        obtain ⟨e, he, -⟩ := hlate
        rw [herrors] at he
        cases he
    have horder : (parse text).root.preorder.Pairwise fun m n =>
        P (ctx.origin n.note) → P (ctx.origin m.note) := by
      refine (List.pairwise_map.mp hsorted).imp fun hle hP => ?_
      exact .inr (Position.precedes_of_le hle (hP.resolve_left fun h => h rfl))
    obtain ⟨o, ho, hP⟩ := holds_of_target herrors (onset_origin ctx hrebinds) horder ht hn hname
      (.inr hbefore) scope (Scope.each_of_contains_eq_false hknown)
    unfold Scope.originsOf at ho
    cases hb : ((parse text).analyze ctx.catalog ctx.file scope).scope.get? x with
    | none =>
      rw [hb] at ho
      cases ho
    | some b =>
      rw [hb] at ho
      exact ⟨b, rfl, .inr ⟨o, ho, hP⟩⟩

end SourceFile

end MesonLens
