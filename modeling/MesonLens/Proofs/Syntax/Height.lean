import MesonLens.Proofs.Syntax.Expression
import MesonLens.Proofs.Syntax.Layout

/-!
# `MesonLens.Proofs.Syntax.Height`: no tree is taller than the limits allow

The limit on expressions is checked where an expression ends, and every block costs a level of
nesting. So a statement with some number of levels left is at most that much taller than an
assignment (`Parse.reaches_statement`), whatever the text is.

* `Tree.height_number`: numbers make no tree taller;
* `Tree.length_le_height`: no way down from a node has more nodes than the node is tall;
* `SourceFile.height_root`: the height of a whole file.
-/

set_option autoImplicit false

namespace MesonLens

namespace Tree

variable {α : Type}

theorem foldl_max_le {ns : List Nat} {n : Nat} (h : ∀ m ∈ ns, m ≤ n) : ns.foldl max 0 ≤ n := by
  induction ns with
  | nil => exact Nat.zero_le n
  | cons m ns ih =>
    rw [List.foldl_cons, foldl_max_eq]
    have hm := h m List.mem_cons_self
    have hns := ih fun k hk => h k (List.mem_cons_of_mem _ hk)
    omega

/-- A node is one taller than its tallest part. -/
theorem height_le_succ {t : Tree α} {n : Nat} (h : ∀ c ∈ t.children, c.height ≤ n) :
    t.height ≤ n + 1 := by
  have hparts : (t.children.map height).foldl max 0 ≤ n := by
    apply foldl_max_le
    intro m hm
    obtain ⟨c, hc, rfl⟩ := List.mem_map.mp hm
    exact h c hc
  rw [height_eq]
  omega

theorem height_lt_of_mem_children {t c : Tree α} (h : c ∈ t.children) : c.height < t.height := by
  have hle : c.height ≤ (t.children.map height).foldl max 0 :=
    le_foldl_max (List.mem_map_of_mem h)
  rw [height_eq t]
  omega

/-- On every way down from a node there are at most as many nodes as the node is tall. -/
theorem length_le_height {t : Tree α} {below : List (Tree α)}
    (h : (t :: below).IsChain fun a b => b ∈ a.children) : (t :: below).length ≤ t.height := by
  induction below generalizing t with
  | nil =>
    rw [height_eq, List.length_singleton]
    omega
  | cons c below ih =>
    obtain ⟨hc, hbelow⟩ := List.isChain_cons_cons.mp h
    have hlength := ih hbelow
    have hlt := height_lt_of_mem_children hc
    rw [List.length_cons]
    omega

/-- Numbers make no tree taller. -/
theorem height_number (t : Tree Span) (n : Nat) : (t.number.run n).1.height ≤ t.height := by
  induction t using inductionOnParts generalizing n with
  | node t ih =>
    have hparts : ∀ c' ∈ (t.number.run n).1.children, c'.height + 1 ≤ t.height := by
      intro c' hc'
      rw [(number_run t n).1] at hc'
      obtain ⟨c, hc, k, rfl⟩ := mem_numberAll hc'
      have hle := ih c hc k
      have hlt := height_lt_of_mem_children hc
      omega
    have hpos : 1 ≤ t.height := by
      rw [height_eq]
      omega
    have hheight := height_le_succ (t := (t.number.run n).1) (n := t.height - 1) fun c' hc' =>
      Nat.le_sub_of_add_le (hparts c' hc')
    omega

end Tree

/-- The parts of branches are among the conditions and in the blocks. -/
theorem Branches.mem_children_ofLists {α : Type} {t : Tree α} :
    ∀ {conditions : List (Tree α)} {bodies : List (List (Tree α))},
      t ∈ (ofLists conditions bodies).children → t ∈ conditions ∨ ∃ body ∈ bodies, t ∈ body
  | [], [], h => absurd h List.not_mem_nil
  | _ :: _, [], h => absurd h List.not_mem_nil
  | [], body :: bodies, h => by
    obtain ⟨b, hb, ht⟩ := List.mem_flatten.mp h
    exact .inr ⟨b, hb, ht⟩
  | condition :: conditions, body :: bodies, h => by
    rcases List.mem_cons.mp h with rfl | h
    · exact .inl List.mem_cons_self
    rcases List.mem_append.mp h with h | h
    · exact .inr ⟨body, List.mem_cons_self, h⟩
    · rcases mem_children_ofLists h with h | ⟨b, hb, ht⟩
      · exact .inl (List.mem_cons_of_mem _ h)
      · exact .inr ⟨b, List.mem_cons_of_mem _ hb, ht⟩

namespace Parse

open Cursor

variable {inner : Level} {n : Nat} {c c' : Cursor} {t : Tree Span}

/-- Every tree that the step gives is at most so tall. -/
def Reaches (m : Parse (Tree Span)) (n : Nat) : Prop :=
  ∀ c t c', m.on c = (.ok t, c') → t.height ≤ n

/-- Every tree of the list that the step gives is at most so tall. -/
def ReachesAll (m : Reading (List (Tree Span))) (n : Nat) : Prop :=
  ∀ c, ∀ t ∈ (m.run c).1, t.height ≤ n

/-! ### Expressions and lines -/

theorem reaches_expression (inner : Level) : Reaches inner.expression maxHeight := by
  intro c t c' h
  obtain ⟨e, mid, -, h⟩ := on_bind_ok h
  dsimp only at h
  split at h
  · cases h
  · next hshort =>
    cases h
    exact Nat.not_lt.mp hshort

theorem height_leaf (h : t.children = []) : t.height = 1 := by
  rw [Tree.height_eq, h]
  rfl

theorem height_recover (start : List Lexeme) (e : SyntaxError) (c : Cursor) :
    ((recover start e).run c).1.height = 1 :=
  height_leaf rfl

theorem height_orRecover {p : Parse (Tree Span)} (hp : Reaches p n) (hn : 1 ≤ n) (c : Cursor) :
    ((orRecover p).run c).1.height ≤ n := by
  rw [orRecover_run]
  rcases hrun : p.on c with ⟨e | t, c'⟩
  · exact (height_recover _ _ _).trans_le hn
  · exact hp c t c' hrun

theorem reachesAll_finishLine : ReachesAll finishLine 1 := by
  intro c t ht
  obtain hrun | ⟨l, ls, -, -, hrun⟩ | ⟨l, ls, -, -, hrun⟩ := finishLine_cases c
  · rw [hrun] at ht
    cases ht
  · rw [hrun] at ht
    cases ht
  · rw [hrun, List.mem_singleton] at ht
    rw [ht, height_recover]

theorem reaches_simpleStatement (inner : Level) :
    Reaches (simpleStatement inner) (maxHeight + 1) := by
  intro c t c' h
  obtain ⟨target, c₁, htarget, h⟩ := on_bind_ok h
  have htarget' := reaches_expression inner c target c₁ htarget
  rw [on_lift_bind] at h
  dsimp only at h
  split at h
  · cases h
    omega
  · next op hop =>
    rw [on_discard_bind] at h
    -- A bad target is only reported.
    have hassign : ∀ mid, (do
        let value ← inner.expression
        pure (Tree.assignment (target.note.join value.note) target op value)
        : Parse (Tree Span)).on mid = (.ok t, c') → t.height ≤ maxHeight + 1 := by
      intro mid hrun
      obtain ⟨value, c₃, hvalue, hrun⟩ := on_bind_ok hrun
      cases hrun
      apply Tree.height_le_succ
      simp only [Tree.children, List.forall_mem_cons, List.not_mem_nil, false_imp_iff,
        implies_true, and_true]
      exact ⟨htarget', reaches_expression inner mid value _ hvalue⟩
    split at h
    · rw [on_lift_bind] at h
      exact hassign _ h
    · exact hassign _ h

/-! ### Selections -/

/-- Conditions are as tall as expressions may be, and the statements of the blocks at most so
tall. -/
structure ReachesBranches (r : List (Tree Span) × List (List (Tree Span))) (n : Nat) : Prop where
  conditions : ∀ t ∈ r.1, t.height ≤ maxHeight
  blocks : ∀ body ∈ r.2, ∀ t ∈ body, t.height ≤ n

theorem reachesBranches_nil : ReachesBranches ([], []) n :=
  ⟨fun _ h => absurd h List.not_mem_nil, fun _ h => absurd h List.not_mem_nil⟩

theorem ReachesBranches.otherwise {conditions : List (Tree Span)} {bodies : List (List (Tree Span))}
    (h : ReachesBranches (conditions, bodies) n) {body : List (Tree Span)}
    (hbody : ∀ t ∈ body, t.height ≤ n) : ReachesBranches (conditions, body :: bodies) n :=
  ⟨h.conditions, List.forall_mem_cons.mpr ⟨hbody, h.blocks⟩⟩

theorem ReachesBranches.arm {conditions : List (Tree Span)} {bodies : List (List (Tree Span))}
    (h : ReachesBranches (conditions, bodies) n) {condition : Tree Span}
    (hcondition : condition.height ≤ maxHeight) {body : List (Tree Span)}
    (hbody : ∀ t ∈ body, t.height ≤ n) :
    ReachesBranches (condition :: conditions, body :: bodies) n :=
  ⟨List.forall_mem_cons.mpr ⟨hcondition, h.conditions⟩,
    List.forall_mem_cons.mpr ⟨hbody, h.blocks⟩⟩

theorem height_condition (inner : Level) (c : Cursor) :
    ((orRecover inner.expression).run c).1.height ≤ maxHeight :=
  height_orRecover (reaches_expression inner) (by decide) c

theorem reachesBranches_moreBranches {block : Reading (List (Tree Span))}
    (hblock : ReachesAll block n) (rounds : Nat) (seenElse : Bool) (c : Cursor) :
    ReachesBranches ((moreBranches inner block rounds seenElse).run c).1 n := by
  induction rounds generalizing seenElse c with
  | zero => exact reachesBranches_nil
  | succ rounds ih =>
    obtain ⟨span, raw, hhead⟩ | ⟨span, raw, hhead⟩ | ⟨span, raw, hhead⟩ | hother := branch_cases c
    · rw [moreBranches_run_elif hhead]
      exact (ih _ _).arm (height_condition inner _) (hblock _)
    · rw [moreBranches_run_else hhead]
      exact (ih _ _).otherwise (hblock _)
    · rw [moreBranches_run_endif hhead]
      exact reachesBranches_nil
    · rw [moreBranches_run_other inner block rounds seenElse hother]
      exact reachesBranches_nil

theorem ReachesBranches.height_le {conditions : List (Tree Span)}
    {bodies : List (List (Tree Span))} (h : ReachesBranches (conditions, bodies) n)
    (hn : maxHeight ≤ n) (span : Span) :
    (Tree.selection span (Branches.ofLists conditions bodies)).height ≤ n + 1 := by
  apply Tree.height_le_succ
  intro t ht
  rcases Branches.mem_children_ofLists ht with ht | ⟨body, hbody, ht⟩
  · exact (h.conditions t ht).trans hn
  · exact h.blocks body hbody t ht

theorem height_selection (inner : Level) {block : Reading (List (Tree Span))}
    (hblock : ReachesAll block n) (hn : maxHeight ≤ n) (c : Cursor) :
    ((selection inner block).run c).1.height ≤ n + 1 := by
  obtain ⟨span, hrun⟩ := selection_run inner block c
  rw [hrun]
  refine ReachesBranches.height_le ?_ hn span
  exact (reachesBranches_moreBranches hblock _ _ _).arm (height_condition inner _) (hblock _)

/-! ### Loops -/

theorem height_loopVariables {rounds : Nat} {names : List (Tree Span)}
    (h : (loopVariables rounds).on c = (.ok names, c')) : ∀ t ∈ names, t.height ≤ 1 := by
  induction rounds generalizing c c' names with
  | zero =>
    rw [loopVariables, failWanting_on] at h
    cases h
  | succ rounds ih =>
    have hname : ∀ (span : Span) (name : String), (Tree.identifier span name).height ≤ 1 :=
      fun span name => (height_leaf rfl).le
    rw [loopVariables, on_lift_bind] at h
    dsimp only at h
    split at h
    · next name span raw hnext =>
      rw [on_discard_bind, on_lift_bind] at h
      split at h
      · obtain ⟨more, mid, hmore, h⟩ := on_bind_ok h
        cases h
        exact List.forall_mem_cons.mpr ⟨hname span name, ih hmore⟩
      · cases h
        exact List.forall_mem_cons.mpr ⟨hname span name, fun _ ht => absurd ht List.not_mem_nil⟩
    · rw [failWanting_on] at h
      cases h

theorem height_loopHeader {header : List (Tree Span) × Tree Span}
    (h : (loopHeader inner).on c = (.ok header, c')) :
    (∀ t ∈ header.1, t.height ≤ 1) ∧ header.2.height ≤ maxHeight := by
  unfold loopHeader at h
  rw [on_get_bind] at h
  obtain ⟨names, c₁, hnames, h⟩ := on_bind_ok h
  dsimp only at h
  split at h
  · cases h
  · obtain ⟨-, c₂, -, h⟩ := on_bind_ok h
    obtain ⟨iterable, c₃, hiterable, h⟩ := on_bind_ok h
    cases h
    exact ⟨height_loopVariables hnames, reaches_expression inner _ _ _ hiterable⟩

theorem height_headerOrRecover (inner : Level) (c : Cursor) :
    (∀ t ∈ ((headerOrRecover inner).run c).1.1, t.height ≤ 1) ∧
      ((headerOrRecover inner).run c).1.2.height ≤ maxHeight := by
  rw [headerOrRecover_run]
  rcases hrun : (loopHeader inner).on c with ⟨e | header, c'⟩
  · exact ⟨fun _ ht => absurd ht List.not_mem_nil, (height_recover _ _ _).trans_le (by decide)⟩
  · exact height_loopHeader hrun

theorem height_iteration (inner : Level) {block : Reading (List (Tree Span))}
    (hblock : ReachesAll block n) (hn : maxHeight ≤ n) (c : Cursor) :
    ((iteration inner block).run c).1.height ≤ n + 1 := by
  obtain ⟨span, hrun⟩ := iteration_run inner block c
  obtain ⟨hnames, hiterable⟩ := height_headerOrRecover inner (advance.run c.settle).2
  have hone : 1 ≤ n := (by decide : 1 ≤ maxHeight).trans hn
  rw [hrun]
  apply Tree.height_le_succ
  intro t ht
  rcases List.mem_append.mp ht with ht | ht
  · exact (hnames t ht).trans hone
  · rcases List.mem_cons.mp ht with rfl | ht
    · exact hiterable.trans hn
    · exact hblock _ t ht

/-! ### Statements -/

theorem reachesAll_blockRounds {one : Parse (Tree Span)} (hone : Reaches one n) (hn : 1 ≤ n)
    (top : Bool) (rounds : Nat) : ReachesAll (blockRounds one top rounds) n := by
  induction rounds with
  | zero => exact fun c t ht => absurd ht List.not_mem_nil
  | succ rounds ih =>
    intro c
    cases hrest : c.rest with
    | nil =>
      rw [blockRounds_run_nil hrest]
      exact fun t ht => absurd ht List.not_mem_nil
    | cons l ls =>
      -- A round passes an empty line, ends the block or skips a stray word, or reads a statement.
      by_cases hline : l.token = .newline
      · rw [blockRounds_run_newline hrest hline]
        exact ih _
      cases hcloses : l.token.closesBlock with
      | true =>
        cases top with
        | false =>
          rw [blockRounds_run_closes hrest hcloses]
          exact fun t ht => absurd ht List.not_mem_nil
        | true =>
          rw [blockRounds_run_stray hrest hcloses]
          exact List.forall_mem_cons.mpr ⟨(height_recover _ _ _).trans_le hn, ih _⟩
      | false =>
        rw [blockRounds_run_statement hrest hline hcloses]
        rcases hrun : one.on { c with depth := 0 } with ⟨e | t, c'⟩
        · exact List.forall_mem_cons.mpr ⟨(height_recover _ _ _).trans_le hn, ih _⟩
        · refine List.forall_mem_cons.mpr ⟨hone _ t c' hrun, List.forall_mem_append.mpr ⟨?_, ih _⟩⟩
          exact fun junk hjunk => (reachesAll_finishLine c' junk hjunk).trans hn

theorem reachesAll_block {one : Parse (Tree Span)} (hone : Reaches one n) (hn : 1 ≤ n)
    (top : Bool) : ReachesAll (block one top) n := fun c =>
  reachesAll_blockRounds hone hn top (c.rest.length + 1) c

/-- A statement with blocks is one taller than the statements in them may be, and takes a level of
nesting. -/
theorem reaches_statement_of_inner {room : Nat}
    (hinner : ∀ k < room, Reaches (statement k) (k + maxHeight + 1)) :
    Reaches (statement room) (room + maxHeight + 1) := by
  have hblock : ∀ k < room, ReachesAll (block (statement k) false) (k + maxHeight + 1) :=
    fun k hk => reachesAll_block (hinner k hk) (by omega) false
  intro c t c' h
  by_cases hstarts : ∃ l, c.settle.rest.head? = some l ∧ startsStatement l.token = true
  · obtain ⟨l, hhead, hl⟩ := hstarts
    cases htoken : l.token with
    | kwBreak =>
      have hrun := statement_on_break room hhead htoken
      cases hrun.symm.trans h
      exact (height_leaf rfl).trans_le (by omega)
    | kwContinue =>
      have hrun := statement_on_continue room hhead htoken
      cases hrun.symm.trans h
      exact (height_leaf rfl).trans_le (by omega)
    | kwIf =>
      cases room with
      | zero =>
        rw [statement_on_zero hhead (.inl htoken)] at h
        cases h
      | succ room =>
        rw [statement_on_selection hhead htoken] at h
        cases h
        have hheight := height_selection (level room) (hblock room (by omega)) (by omega) c.settle
        omega
    | kwForeach =>
      cases room with
      | zero =>
        rw [statement_on_zero hhead (.inr htoken)] at h
        cases h
      | succ room =>
        rw [statement_on_iteration hhead htoken] at h
        cases h
        have hheight := height_iteration (level room) (hblock room (by omega)) (by omega) c.settle
        omega
    | _ => rw [htoken] at hl; cases hl
  · rw [statement_on_simple fun l hl => by simpa using fun hs => hstarts ⟨l, hl, hs⟩] at h
    have hheight := reaches_simpleStatement (level room) _ t c' h
    omega

theorem reaches_statement (room : Nat) : Reaches (statement room) (room + maxHeight + 1) := by
  induction room using Nat.strongRecOn with
  | ind room ih => exact reaches_statement_of_inner ih

theorem height_statements (lexemes : List Lexeme) (eof : Position) :
    ∀ t ∈ (statements lexemes eof).1, t.height ≤ maxNesting + maxHeight + 1 :=
  reachesAll_block (reaches_statement maxNesting) (by omega) true { rest := lexemes, eof }

end Parse

/-- A file is one taller than its statements. -/
theorem SourceFile.height_root (text : String) :
    (parse text).root.height ≤ maxNesting + maxHeight + 2 := by
  have hparts := Parse.height_statements (Lexed.ofText text).lexemes (Position.after {} text.toList)
  exact (Tree.height_number _ 0).trans (Tree.height_le_succ hparts)

end MesonLens
