import MesonLens.Proofs.Syntax.Grades
import Mathlib.Data.List.Forall2

/-!
# `MesonLens.Proofs.Syntax.Expression`: reading an expression that was written

An expression that is written as tokens and read again gives its tree, if there is room for its
nesting and it is not too tall.

* `Tree.height_bare`: the height of a tree does not depend on its notes, so the limit on heights
  can be stated for programs;
* `untilClose_on`: items with commas between them;
* `ReadsBack`: the rule of its own grade reads an expression as it is written. From this,
  `ReadsBack.stands_at` reads it at any place, with parentheses where they are needed;
* `readsBack`: every expression is read as it is written, by induction on its parts.
-/

set_option autoImplicit false

namespace MesonLens

/-! ### Heights -/

namespace Tree

variable {α : Type}

theorem foldl_max_eq (ns : List Nat) (n : Nat) : ns.foldl max n = max n (ns.foldl max 0) := by
  induction ns generalizing n with
  | nil => simp
  | cons m ns ih => rw [List.foldl_cons, List.foldl_cons, ih, ih (max 0 m)]; omega

theorem le_foldl_max {ns : List Nat} {n : Nat} (h : n ∈ ns) : n ≤ ns.foldl max 0 := by
  induction ns with
  | nil => cases h
  | cons m ns ih =>
    rw [List.foldl_cons, foldl_max_eq]
    rcases List.mem_cons.mp h with rfl | h
    · omega
    · have := ih h
      omega

theorem height_eq (t : Tree α) : t.height = 1 + (t.children.map height).foldl max 0 := by
  rw [height, List.attach_map_val]

/-- A part is no taller than the node may be. -/
theorem height_le_of_mem_children {t c : Tree α} {n : Nat} (ht : t.height ≤ n)
    (h : c ∈ t.children) : c.height ≤ n := by
  have hle : c.height ≤ (t.children.map height).foldl max 0 :=
    le_foldl_max (List.mem_map_of_mem h)
  rw [height_eq t] at ht
  omega

theorem bareAll_eq_map (ts : List (Tree α)) : bareAll ts = ts.map bare := by
  induction ts with
  | nil => rfl
  | cons t ts ih => rw [bareAll, ih, List.map_cons]

end Tree

theorem Branches.children_bare {α : Type} (branches : Branches α) :
    branches.bare.children = branches.children.map Tree.bare := by
  fun_induction Branches.children branches with
  | case1 => rfl
  | case2 body => exact Tree.bareAll_eq_map body
  | case3 condition body rest ih =>
    rw [Branches.bare, Branches.children, ih, Tree.bareAll_eq_map, List.map_cons,
      List.map_append]

namespace Tree

variable {α : Type}

theorem children_bare (t : Tree α) : t.bare.children = t.children.map bare := by
  cases t with
  | file | arguments | array | dictionary => exact bareAll_eq_map _
  | iteration _ names iterable body =>
    rw [bare, children, children, bareAll_eq_map, bareAll_eq_map, List.map_append, List.map_cons]
  | method _ object name args => cases args <;> rfl
  | selection _ branches => exact branches.children_bare
  | _ => rfl

/-- Notes do not change how tall a tree is. -/
theorem height_bare (t : Tree α) : t.bare.height = t.height := by
  -- The recursion goes to the parts, whichever kind of node they are parts of.
  have hparts : ∀ c ∈ t.children, c.bare.height = c.height := fun c hc => height_bare c
  rw [height_eq, height_eq t, children_bare, List.map_map]
  congr 2
  exact List.map_congr_left hparts
  termination_by sizeOf t
  decreasing_by exact sizeOf_lt_of_mem_children hc

theorem kind_bare (t : Tree α) : t.bare.kind = t.kind := by
  cases t with
  | method _ _ _ args => cases args <;> rfl
  | _ => rfl

end Tree

namespace Parse

open Cursor

variable {inner : Level} {g d : Nat} {t : Token} {ts follow : List Token} {tree : Tree Unit}
  {c : Cursor} {e : Expr} {room : Nat}

/-! ### Items with commas between them -/

/-- Nothing goes on with an expression at a comma, a colon or a closing bracket. -/
theorem ends_cons (hjoins : joins? t = none) (ht : t ≠ .newline) : Ends g d (t :: follow) where
  stops := by
    intro t' ht' k hk
    cases ht'
    rw [hjoins] at hk
    cases hk
  calm := calm_cons ht

/-- An item is read whether a comma or the closing bracket follows. -/
structure GivesItem (item : Parse (Tree Span)) (d : Nat) (ts : List Token) (tree : Tree Unit) :
    Prop where
  starts : ∃ t ∈ ts.head?, startsExpression t = true
  gives : ∀ t follow, t = .comma ∨ t.closes = true → Gives item d ts tree (t :: follow)

theorem GivesItem.length_pos {item : Parse (Tree Span)} (h : GivesItem item d ts tree) :
    1 ≤ ts.length := by
  obtain ⟨t, ht, -⟩ := h.starts
  cases ts with
  | nil => cases ht
  | cons => exact Nat.succ_pos _

/-- The closing bracket is not the start of an item. -/
theorem GivesItem.eat_close {item : Parse (Tree Span)} {close : Token}
    (h : GivesItem item d ts tree) (hclose : close.closes = true) (hc : c.At d (ts ++ follow)) :
    (eat close).run c = (none, c) := by
  obtain ⟨t, hhead, hstarts⟩ := h.starts
  cases ts with
  | nil => cases hhead
  | cons t' ts =>
    cases hhead
    refine eat_run_at_none hc (calm_cons (ne_newline_of_startsExpression hstarts)) ?_
    rintro ⟨⟩
    cases close <;> cases hclose <;> cases hstarts

theorem depthAfter_closes (h : t.closes = true) : depthAfter (d + 1) t = d := by
  cases t <;> cases h <;> rfl

theorem ne_newline_of_closes (h : t.closes = true) : t ≠ .newline := by
  rintro rfl
  cases h

/-- Items with commas between them are read up to the closing bracket. -/
theorem commaList_on {item : Parse (Tree Span)} {close : Token} {tss : List (List Token)}
    {trees : List (Tree Unit)} (hclose : close.closes = true)
    (hitems : List.Forall₂ (GivesItem item (d + 1)) tss trees) {rounds : Nat}
    (hrounds : tss.length < rounds) (hc : c.At (d + 1) (commas tss ++ close :: follow)) :
    ∃ items span c', (commaList item close rounds).on c = (.ok (items, span), c') ∧
      Tree.bareAll items = trees ∧ c'.Past d follow := by
  have hdepth : depthAfter (d + 1) close = d := depthAfter_closes hclose
  obtain ⟨n, rfl⟩ : ∃ n, rounds = n + 1 := ⟨rounds - 1, by omega⟩
  induction hitems generalizing n c with
  | nil =>
    obtain ⟨span, c', heat, hpast⟩ := eat_run_at hc (ne_newline_of_closes hclose)
    refine ⟨[], span, c', ?_, rfl, hdepth ▸ hpast⟩
    rw [commaList, on_lift_bind, heat]
    rfl
  -- A closing bracket follows the last item, and a comma every other one.
  | @cons ts tree tss trees hitem hitems ih =>
    cases hitems with
    | nil =>
      have hgives := hitem.gives close follow (.inr hclose)
      obtain ⟨t, c₁, hrun, ht, hpast⟩ := hgives c hc
      have hcomma : (close :: follow).head? ≠ some .comma := by
        rintro ⟨⟩
        cases hclose
      obtain ⟨span, c₂, hexpect, hpast₂⟩ :=
        expectAs_on_at (.commaOr close) hpast.toAt (ne_newline_of_closes hclose)
      refine ⟨[t], span, c₂, ?_, by rw [Tree.bareAll, ht]; rfl, hdepth ▸ hpast₂⟩
      rw [commaList, on_lift_bind, hitem.eat_close hclose hc]
      dsimp only
      rw [on_bind_of_ok hrun, on_lift_bind, eat_run_at_none hpast.toAt
        (calm_cons (ne_newline_of_closes hclose)) hcomma]
      exact on_bind_of_ok hexpect
    | @cons ts' tree' tss trees hitem' hitems =>
      have hc' : c.At (d + 1) (ts ++ .comma :: (commas (ts' :: tss) ++ close :: follow)) := by
        simpa [commas] using hc
      have hgives := hitem.gives .comma (commas (ts' :: tss) ++ close :: follow) (.inl rfl)
      obtain ⟨t, c₁, hrun, ht, hpast⟩ := hgives c hc'
      obtain ⟨_, c₂, heat, hpast₂⟩ := eat_run_at hpast.toAt nofun
      simp only [List.length_cons] at hrounds
      obtain ⟨m, rfl⟩ : ∃ m, n = m + 1 := ⟨n - 1, by omega⟩
      obtain ⟨items, span, c₃, hrest, hitems, hpast₃⟩ :=
        ih hpast₂.toAt m (by simpa using hrounds)
      refine ⟨t :: items, span, c₃, ?_, by rw [Tree.bareAll, ht, hitems], hpast₃⟩
      rw [commaList, on_lift_bind, hitem.eat_close hclose hc']
      dsimp only
      rw [on_bind_of_ok hrun, on_lift_bind, heat]
      exact on_bind_of_ok hrest

theorem length_le_length_commas {item : Parse (Tree Span)} {tss : List (List Token)}
    {trees : List (Tree Unit)} (h : List.Forall₂ (GivesItem item d) tss trees) :
    tss.length ≤ (commas tss).length := by
  induction h with
  | nil => exact Nat.zero_le 0
  | @cons ts tree tss trees hitem hitems ih =>
    have hts := hitem.length_pos
    cases hitems with
    | nil => exact hts
    | cons =>
      simp only [commas, List.length_append, List.length_cons] at ih ⊢
      omega

theorem untilClose_on {item : Parse (Tree Span)} {close : Token} {tss : List (List Token)}
    {trees : List (Tree Unit)} (hclose : close.closes = true)
    (hitems : List.Forall₂ (GivesItem item (d + 1)) tss trees)
    (hc : c.At (d + 1) (commas tss ++ close :: follow)) :
    ∃ items span c', (untilClose item close).on c = (.ok (items, span), c') ∧
      Tree.bareAll items = trees ∧ c'.Past d follow := by
  have hlength := length_le_length_commas hitems
  have hrounds : tss.length < c.rest.length + 1 := by
    rw [hc.length_eq, List.length_append]
    omega
  rw [untilClose, on_get_bind]
  exact commaList_on hclose hitems hrounds hc

/-- Arguments in brackets. -/
theorem gives_arguments {tss : List (List Token)} {trees : List (Tree Unit)}
    (hitems : List.Forall₂ (GivesItem (argument inner) (d + 1)) tss trees) :
    Gives (arguments inner) d (.lparen :: commas tss ++ [.rparen]) (.arguments () trees)
      follow := by
  intro c hc
  have hc' : c.At d (.lparen :: (commas tss ++ .rparen :: follow)) := by simpa using hc
  obtain ⟨start, c₁, hstart, hpast⟩ := expectAs_on_at (.token .lparen) hc' nofun
  have hexpect : (expect .lparen).on c = (.ok start, c₁) := hstart
  obtain ⟨items, stop, c₂, hrun, htrees, hpast₂⟩ := untilClose_on rfl hitems hpast.toAt
  refine ⟨.arguments (start.join stop) items, c₂, ?_, by rw [Tree.bare, htrees], hpast₂⟩
  rw [arguments, on_bind_of_ok hexpect, on_bind_of_ok hrun]
  rfl

/-! ### The first token -/

/-- The tokens start an expression, which an operator stands before only if it may. -/
def Starts (bare : Prop) (ts : List Token) : Prop :=
  ∃ t ∈ ts.head?, startsExpression t = true ∧ (bare → unaryOp? t = none)

theorem Starts.append {bare : Prop} (h : Starts bare ts) (more : List Token) :
    Starts bare (ts ++ more) := by
  obtain ⟨t, hhead, ht⟩ := h
  cases ts with
  | nil => cases hhead
  | cons => exact ⟨t, hhead, ht⟩

theorem Starts.parenthesize (asked : Nat) (h : Starts (e.grade = 7) e.tokens) :
    Starts (asked = 7) (parenthesize asked e.grade e.tokens) := by
  unfold MesonLens.parenthesize
  split
  · exact ⟨.lparen, rfl, rfl, fun _ => rfl⟩
  · next hle =>
    obtain ⟨t, hhead, hstarts, hop⟩ := h
    refine ⟨t, hhead, hstarts, fun hasked => hop ?_⟩
    have hgrade := e.grade_le
    omega

/-- An expression starts with its first operand. An operand has no operator before it. -/
theorem starts_tokens : ∀ e : Expr, Starts (e.grade = 7) e.tokens
  | .identifier _ | .integer _ | .boolean _ | .string .. => by
    rw [Expr.tokens]
    exact ⟨_, rfl, rfl, fun _ => rfl⟩
  | .array _ | .dictionary _ | .call .. => by
    rw [Expr.tokens]
    exact ⟨_, rfl, rfl, fun _ => rfl⟩
  | .unary op e => by
    rw [Expr.tokens]
    refine ⟨op.token, rfl, ?_, nofun⟩
    cases op <;> rfl
  | .binary l op r => by
    rw [Expr.tokens]
    obtain ⟨t, hhead, hstarts, -⟩ :=
      (((starts_tokens l).parenthesize op.grade).append op.tokens).append
        (parenthesize (op.grade + 1) r.grade r.tokens)
    refine ⟨t, hhead, hstarts, fun hgrade => ?_⟩
    cases op <;> cases hgrade
  | .conditional c t f => by
    rw [Expr.tokens, List.append_assoc]
    obtain ⟨t, hhead, hstarts, -⟩ := ((starts_tokens c).parenthesize 1).append _
    exact ⟨t, hhead, hstarts, nofun⟩
  | .subscript e i => by
    rw [Expr.tokens, List.append_assoc]
    obtain ⟨t, hhead, hstarts, hop⟩ := ((starts_tokens e).parenthesize 7).append _
    exact ⟨t, hhead, hstarts, fun _ => hop rfl⟩
  | .method e name args => by
    rw [Expr.tokens, List.append_assoc]
    obtain ⟨t, hhead, hstarts, hop⟩ := ((starts_tokens e).parenthesize 7).append _
    exact ⟨t, hhead, hstarts, fun _ => hop rfl⟩

/-! ### Places -/

/-- The rule of its own grade reads the expression as it is written, wherever there is room for
it and nothing tighter follows. -/
def ReadsBack (e : Expr) : Prop :=
  ∀ room d follow, e.nesting ≤ room → e.toTree.height ≤ maxHeight → Ends (tail e.grade) d follow →
    Stands (level room) e.grade d e.tokens e.toTree follow

/-- A place that asks for no grade reads the expression one level further in. -/
theorem ReadsBack.expression (h : ReadsBack e) (hnesting : e.nesting + 1 ≤ room)
    (hheight : e.toTree.height ≤ maxHeight) (hends : Ends 0 d follow) :
    Gives (level room).expression d e.tokens e.toTree follow := by
  obtain ⟨room, rfl⟩ : ∃ n, room = n + 1 := ⟨room - 1, by omega⟩
  have hstands : Stands (level room) 0 d e.tokens e.toTree follow := by
    refine (h room d follow (by omega) hheight (hends.mono (Nat.zero_le _))).lower_le
      (Nat.zero_le _) e.grade_le (fun hgrade => ?_) hends
    obtain ⟨t, hhead, hstarts, hop⟩ := starts_tokens e
    exact ⟨t, hhead, hstarts, hop hgrade⟩
  intro c hc
  obtain ⟨t, c', hrun, ht, hpast⟩ := hstands.gives hends c hc
  have hconditional : (level (room + 1)).conditional.on c = (.ok t, c') := hrun
  have hshort : ¬ maxHeight < t.height := by
    rw [← t.height_bare, ht]
    exact Nat.not_lt.mpr hheight
  refine ⟨t, c', ?_, ht, hpast⟩
  rw [Level.expression, on_bind_of_ok hconditional, if_neg hshort]
  rfl

/-- The first token of an operand is read. -/
theorem primary_on_at (hc : c.At d (t :: ts)) (ht : t ≠ .newline) :
    ∃ span raw c', (primary inner).on c = (startedBy inner ⟨t, span, raw⟩).on c' ∧
      c'.Past (depthAfter d t) ts := by
  obtain ⟨⟨token, span, raw⟩, c', hpeek, hl, hadvance, hpast⟩ := advance_run_at hc ht
  cases hl
  refine ⟨span, raw, c', ?_, hpast⟩
  unfold primary
  rw [on_lift_bind, hpeek]
  dsimp only
  rw [if_neg ht, on_discard_bind, hadvance]

/-- An expression in parentheses is an operand. -/
theorem ReadsBack.parentheses (h : ReadsBack e) (hnesting : e.nesting + 1 ≤ room)
    (hheight : e.toTree.height ≤ maxHeight) :
    Gives (primary (level room)) d (.lparen :: e.tokens ++ [.rparen]) e.toTree follow := by
  intro c hc
  have hc' : c.At d (.lparen :: (e.tokens ++ .rparen :: follow)) := by simpa using hc
  obtain ⟨span, raw, c₁, hprimary, hpast₁⟩ := primary_on_at hc' nofun
  have hends : Ends 0 (d + 1) (.rparen :: follow) := ends_cons rfl nofun
  obtain ⟨t, c₂, hrun, ht, hpast₂⟩ := h.expression hnesting hheight hends c₁ hpast₁.toAt
  obtain ⟨c₃, hclose, hpast₃⟩ := discard_expect_on_at hpast₂.toAt nofun
  refine ⟨t, c₃, ?_, ht, hpast₃⟩
  rw [hprimary, startedBy]
  dsimp only
  rw [on_bind_of_ok hrun, on_bind_of_ok hclose]
  rfl

/-- An expression is read at any place, with parentheses where it needs them. -/
theorem ReadsBack.stands_at (h : ReadsBack e) (hg : g ≤ 7) (hnesting : e.nestingAt g ≤ room)
    (hheight : e.toTree.height ≤ maxHeight) (hends : Ends (tail g) d follow) :
    Stands (level room) g d (e.tokensAt g) e.toTree follow := by
  obtain ⟨t, hhead, hstarts, hop⟩ := starts_tokens e
  unfold Expr.tokensAt parenthesize
  unfold Expr.nestingAt parenthesizedNesting at hnesting
  split
  · next hlt =>
    rw [if_pos hlt] at hnesting
    have hoperand : Stands (level room) 7 d (.lparen :: e.tokens ++ [.rparen]) e.toTree follow :=
      (h.parentheses hnesting hheight).stands_operand
    -- In parentheses it is an operand, which is at home at every place.
    exact hoperand.lower_le hg (Nat.le_refl 7) (fun _ => ⟨.lparen, rfl, rfl, rfl⟩) hends
  · next hle =>
    rw [if_neg hle] at hnesting
    -- Without parentheses, it is read by the rule of its own grade, which is tight enough.
    have hgrade : g ≤ e.grade := Nat.not_lt.mp hle
    exact (h room d follow hnesting hheight (hends.mono (tail_mono hgrade))).lower_le hgrade
      e.grade_le
      (fun hgrade => ⟨t, hhead, hstarts, hop hgrade⟩) hends

/-- An expression is read at any place where nothing goes on with it. -/
theorem ReadsBack.gives_at (h : ReadsBack e) (hg : g ≤ 7) (hnesting : e.nestingAt g ≤ room)
    (hheight : e.toTree.height ≤ maxHeight) (hends : Ends g d follow) :
    Gives (rule (level room) g) d (e.tokensAt g) e.toTree follow :=
  (h.stands_at hg hnesting hheight (hends.mono (le_tail g))).gives hends

/-! ### Operators -/

/-- An operator follows its left operand. -/
theorem ends_operator (op : BinaryOp) (more : List Token) :
    Ends (tail op.grade) d (op.tokens ++ more) where
  stops := by
    intro t ht k hk
    have hhead : op.tokens.head? = some t := by cases op <;> exact ht
    rw [joins?_of_tokens hhead] at hk
    cases hk
    cases op <;> decide
  calm := by cases op <;> exact calm_cons nofun

theorem readsBack_binary {l r : Expr} {op : BinaryOp} (hl : ReadsBack l) (hr : ReadsBack r) :
    ReadsBack (.binary l op r) := by
  intro room d follow hnesting hheight hends
  rw [Expr.nesting, Nat.max_le] at hnesting
  have hgrade := op.grade_le
  rw [Expr.toTree] at hheight ⊢
  have hparts : ∀ t ∈ [l.toTree, r.toTree], t.height ≤ maxHeight :=
    fun t => Tree.height_le_of_mem_children hheight
  have htail : tail op.grade = op.grade + 1 := by cases op <;> rfl
  have hright : Gives (rule (level room) (op.grade + 1)) d (r.tokensAt (op.grade + 1)) r.toTree
      follow :=
    hr.gives_at (by omega) hnesting.2 (hparts _ (by simp)) (htail ▸ hends)
  -- The left operand may be of the same grade. The rule that reads it is the one that goes on with
  -- the operator.
  have hleft : Stands (level room) op.grade d (l.tokensAt op.grade) l.toTree
      (op.tokens ++ r.tokensAt (op.grade + 1) ++ follow) := by
    rw [List.append_assoc]
    exact hl.stands_at (by omega) hnesting.1 (hparts _ (by simp))
      (ends_operator op _)
  rw [Expr.tokens]
  exact hleft.binary hright

/-- The operand of a unary operator is one level further in. -/
theorem readsBack_unary {op : UnaryOp} (h : ReadsBack e) : ReadsBack (.unary op e) := by
  intro room d follow hnesting hheight hends
  rw [Expr.nesting] at hnesting
  obtain ⟨room, rfl⟩ : ∃ n, room = n + 1 := ⟨room - 1, by omega⟩
  rw [Expr.toTree] at hheight ⊢
  have hpart : e.toTree.height ≤ maxHeight :=
    Tree.height_le_of_mem_children hheight List.mem_cons_self
  have hoperand : Stands (level room) 6 d (e.tokensAt 6) e.toTree follow :=
    h.stands_at (by decide) (Nat.le_of_succ_le_succ hnesting) hpart hends
  -- The operator is seen first, and read before the level is opened.
  refine Gives.stands (.inr rfl) fun c hc => ?_
  rw [Expr.tokens] at hc
  have hline : op.token ≠ .newline := by cases op <;> nofun
  have hdepth : depthAfter d op.token = d := by cases op <;> rfl
  have hop : unaryOp? op.token = some op := by cases op <;> rfl
  obtain ⟨l, c₁, hpeek, hl, hadvance, hpast₁⟩ := advance_run_at hc hline
  rw [hdepth] at hpast₁
  obtain ⟨rounds, t, c₂, hrun, ht, hpast₂, -⟩ := hoperand c₁ hpast₁.toAt
  have hunary : (level (room + 1)).unary.on c₁ = (.ok t, c₂) := hrun
  refine ⟨.unary (l.span.join t.note) op t, c₂, ?_, by rw [Tree.bare, ht], hpast₂⟩
  change (Parse.unary (level (room + 1))).on c = _
  unfold Parse.unary
  rw [on_lift_bind, hpeek]
  dsimp only
  rw [hl, hop]
  dsimp only
  rw [on_discard_bind, hadvance, on_bind_of_ok hunary]
  rfl

/-- The arms of a conditional are one level further in. -/
theorem readsBack_conditional {p q r : Expr} (hp : ReadsBack p) (hq : ReadsBack q)
    (hr : ReadsBack r) : ReadsBack (.conditional p q r) := by
  intro room d follow hnesting hheight hends
  rw [Expr.nesting, Nat.max_le, Nat.max_le] at hnesting
  obtain ⟨hpnesting, hqnesting, hrnesting⟩ := hnesting
  obtain ⟨room, rfl⟩ : ∃ n, room = n + 1 := ⟨room - 1, by omega⟩
  rw [Expr.toTree] at hheight ⊢
  have hparts : ∀ t ∈ [p.toTree, q.toTree, r.toTree], t.height ≤ maxHeight :=
    fun t => Tree.height_le_of_mem_children hheight
  -- The condition is read on this level, and both arms one level further in.
  have hcondition : Gives (rule (level (room + 1)) 1) d (p.tokensAt 1) p.toTree
      (.question :: q.tokens ++ .colon :: r.tokens ++ follow) := by
    refine hp.gives_at (by decide) hpnesting (hparts _ (by simp)) ⟨?_, calm_cons nofun⟩
    rintro _ ⟨⟩ k ⟨⟩
    decide
  have htrue : Gives (rule (level room) 0) d q.tokens q.toTree (.colon :: r.tokens ++ follow) :=
    hq.gives_at (Nat.zero_le 7) (Nat.le_of_succ_le_succ hqnesting) (hparts _ (by simp))
      (ends_cons rfl nofun)
  have hfalse : Gives (rule (level room) 0) d r.tokens r.toTree follow :=
    hr.gives_at (Nat.zero_le 7) (Nat.le_of_succ_le_succ hrnesting) (hparts _ (by simp)) hends
  refine Gives.stands (.inl rfl) fun c hc => ?_
  rw [Expr.tokens] at hc
  -- The parts are read one after the other, each from where the one before it ended.
  obtain ⟨t₁, c₁, hrun₁, ht₁, hpast₁⟩ := hcondition c (by simpa [Expr.tokensAt] using hc)
  obtain ⟨_, c₂, heat, hpast₂⟩ := eat_run_at hpast₁.toAt nofun
  obtain ⟨t₂, c₃, hrun₂, ht₂, hpast₃⟩ := htrue c₂ (List.append_assoc .. ▸ hpast₂.toAt)
  obtain ⟨c₄, hcolon, hpast₄⟩ := discard_expect_on_at hpast₃.toAt nofun
  obtain ⟨t₃, c₅, hrun₃, ht₃, hpast₅⟩ := hfalse c₄ hpast₄.toAt
  refine ⟨.conditional (t₁.note.join t₃.note) t₁ t₂ t₃, c₅, ?_,
    by rw [Tree.bare, ht₁, ht₂, ht₃], hpast₅⟩
  have hdisjunction : (disjunction (level (room + 1))).on c = (.ok t₁, c₁) := hrun₁
  have hsecond : (level (room + 1)).conditional.on c₂ = (.ok t₂, c₃) := hrun₂
  have hthird : (level (room + 1)).conditional.on c₄ = (.ok t₃, c₅) := hrun₃
  change (Parse.conditional (level (room + 1))).on c = _
  rw [Parse.conditional, on_bind_of_ok hdisjunction, on_lift_bind, heat]
  dsimp only
  rw [on_bind_of_ok hsecond, on_bind_of_ok hcolon, on_bind_of_ok hthird]
  rfl

/-! ### Operands -/

/-- What starts an operand reads the expression. -/
theorem readsBack_of_primary (hgrade : e.grade = 7)
    (h : ∀ room d follow, e.nesting ≤ room → e.toTree.height ≤ maxHeight → Ends 8 d follow →
      Gives (primary (level room)) d e.tokens e.toTree follow) : ReadsBack e := by
  intro room d follow hnesting hheight hends
  rw [hgrade] at hends ⊢
  exact (h room d follow hnesting hheight hends).stands_operand

/-- A literal is one token. -/
theorem readsBack_literal (hgrade : e.grade = 7) (htokens : e.tokens = [t]) (ht : t ≠ .newline)
    (hdepth : ∀ d, depthAfter d t = d)
    (hread : ∀ inner span raw c, ∃ literal,
      (startedBy inner ⟨t, span, raw⟩).on c = (.ok literal, c) ∧ literal.bare = e.toTree) :
    ReadsBack e := by
  refine readsBack_of_primary hgrade fun room d follow _ _ _ c hc => ?_
  rw [htokens] at hc
  obtain ⟨span, raw, c', hprimary, hpast⟩ := primary_on_at hc ht
  obtain ⟨literal, hrun, hliteral⟩ := hread (level room) span raw c'
  exact ⟨literal, c', hprimary.trans hrun, hliteral, hdepth d ▸ hpast⟩

theorem readsBack_integer (value : Nat) : ReadsBack (.integer value) :=
  readsBack_literal rfl rfl nofun (fun _ => rfl) fun _ span raw _ =>
    ⟨.integer span value raw, rfl, rfl⟩

theorem readsBack_boolean (value : Bool) : ReadsBack (.boolean value) :=
  readsBack_literal rfl rfl nofun (fun _ => rfl) fun _ span _ _ =>
    ⟨.boolean span value, rfl, rfl⟩

theorem readsBack_string (value : String) (format multiline : Bool) :
    ReadsBack (.string value format multiline) :=
  readsBack_literal rfl rfl nofun (fun _ => rfl) fun _ span _ _ =>
    ⟨.string span value format multiline, rfl, rfl⟩

/-- A name with no bracket after it is no call. -/
theorem readsBack_identifier (name : String) : ReadsBack (.identifier name) := by
  refine readsBack_of_primary rfl fun room d follow _ _ hends c hc => ?_
  rw [Expr.tokens] at hc
  obtain ⟨span, raw, c', hprimary, hpast⟩ := primary_on_at hc nofun
  refine ⟨.identifier span name, c', ?_, by rw [Tree.bare, Expr.toTree], hpast⟩
  have hparen : c'.rest.head?.map Lexeme.token ≠ some .lparen := by
    rw [← List.head?_map, hpast.tokens]
    exact fun hhead => absurd (hends.stops _ hhead 8 rfl) (Nat.lt_irrefl 8)
  rw [hprimary, startedBy]
  dsimp only
  rw [on_lift_bind, peek_run_at hpast.toAt hends.calm, if_neg hparen]
  rfl

/-- A name alone, as a keyword or the target of an assignment. -/
theorem gives_name (name : String) (hroom : 1 ≤ room) (hends : Ends 0 d follow) :
    Gives (level room).expression d [.name name] (.identifier () name) follow := by
  have hnesting : (Expr.identifier name).nesting + 1 ≤ room := by rwa [Expr.nesting]
  have hheight : (Expr.identifier name).toTree.height ≤ maxHeight := by
    rw [Expr.toTree, Tree.height_eq]
    change 1 ≤ maxHeight
    decide
  have hgives := (readsBack_identifier name).expression hnesting hheight hends
  rwa [Expr.tokens, Expr.toTree] at hgives

/-! ### Items -/

theorem ends_of_separates (ht : t = .comma ∨ t.closes = true) : Ends g d (t :: follow) := by
  rcases ht with rfl | ht
  · exact ends_cons rfl nofun
  · exact ends_cons (by cases t <;> cases ht <;> rfl) (ne_newline_of_closes ht)

/-- An expression is an item. -/
theorem ReadsBack.item (h : ReadsBack e) (hnesting : e.nesting + 1 ≤ room)
    (hheight : e.toTree.height ≤ maxHeight) :
    GivesItem (level room).expression d e.tokens e.toTree := by
  obtain ⟨t, hhead, hstarts, -⟩ := starts_tokens e
  exact ⟨⟨t, hhead, hstarts⟩, fun t follow ht =>
    h.expression hnesting hheight (ends_of_separates ht)⟩

theorem items_array {es : List Expr} (h : ∀ e ∈ es, ReadsBack e)
    (hnesting : Expr.nestingEach es ≤ room)
    (hheight : ∀ t ∈ Expr.toTrees es, t.height ≤ maxHeight) :
    List.Forall₂ (GivesItem (level room).expression d) (Expr.tokensEach es)
      (Expr.toTrees es) := by
  induction es with
  | nil =>
    rw [Expr.tokensEach, Expr.toTrees]
    exact .nil
  | cons e es ih =>
    rw [Expr.nestingEach, Nat.max_le] at hnesting
    rw [Expr.toTrees] at hheight ⊢
    rw [Expr.tokensEach]
    obtain ⟨he, hes⟩ := List.forall_mem_cons.mp h
    obtain ⟨hefits, hesfit⟩ := List.forall_mem_cons.mp hheight
    exact .cons (he.item hnesting.1 hefits) (ih hes hnesting.2 hesfit)

/-- A key, a colon and a value are an item of a dictionary. -/
theorem ReadsBack.item_entry {key value : Expr} (hkey : ReadsBack key) (hvalue : ReadsBack value)
    (hnesting : max (key.nesting + 1) (value.nesting + 1) ≤ room)
    (hheight : (Tree.entry () key.toTree value.toTree).height ≤ maxHeight) :
    GivesItem (entry (level room)) d (key.tokens ++ .colon :: value.tokens)
      (.entry () key.toTree value.toTree) := by
  rw [Nat.max_le] at hnesting
  have hparts : ∀ t ∈ [key.toTree, value.toTree], t.height ≤ maxHeight :=
    fun t => Tree.height_le_of_mem_children hheight
  obtain ⟨t, hhead, hstarts, -⟩ := (starts_tokens key).append (.colon :: value.tokens)
  refine ⟨⟨t, hhead, hstarts⟩, fun t follow ht c hc => ?_⟩
  rw [List.append_assoc] at hc
  have hends : Ends 0 d (.colon :: value.tokens ++ t :: follow) := ends_cons rfl nofun
  obtain ⟨k, c₁, hrun₁, hk, hpast₁⟩ :=
    hkey.expression hnesting.1 (hparts _ (by simp)) hends c hc
  obtain ⟨c₂, hcolon, hpast₂⟩ := discard_expect_on_at hpast₁.toAt nofun
  obtain ⟨v, c₃, hrun₂, hv, hpast₃⟩ :=
    hvalue.expression hnesting.2 (hparts _ (by simp)) (ends_of_separates ht) c₂ hpast₂.toAt
  refine ⟨.entry (k.note.join v.note) k v, c₃, ?_, by rw [Tree.bare, hk, hv], hpast₃⟩
  rw [entry, on_bind_of_ok hrun₁, on_bind_of_ok hcolon, on_bind_of_ok hrun₂]
  rfl

theorem items_dictionary {entries : List (Expr × Expr)}
    (h : ∀ p ∈ entries, ReadsBack p.1 ∧ ReadsBack p.2)
    (hnesting : Expr.entryNesting entries ≤ room)
    (hheight : ∀ t ∈ Expr.entryTrees entries, t.height ≤ maxHeight) :
    List.Forall₂ (GivesItem (entry (level room)) d) (Expr.entryTokens entries)
      (Expr.entryTrees entries) := by
  induction entries with
  | nil =>
    rw [Expr.entryTokens, Expr.entryTrees]
    exact .nil
  | cons entry entries ih =>
    obtain ⟨key, value⟩ := entry
    rw [Expr.entryNesting, Nat.max_le] at hnesting
    rw [Expr.entryTrees] at hheight ⊢
    rw [Expr.entryTokens]
    obtain ⟨⟨hkey, hvalue⟩, hrest⟩ := List.forall_mem_cons.mp h
    obtain ⟨hfits, hrestfit⟩ := List.forall_mem_cons.mp hheight
    exact .cons (hkey.item_entry hvalue hnesting.1 hfits) (ih hrest hnesting.2 hrestfit)

/-- An argument without a keyword. -/
theorem ReadsBack.item_argument (h : ReadsBack e) (hnesting : e.nesting + 1 ≤ room)
    (hheight : e.toTree.height ≤ maxHeight) :
    GivesItem (argument (level room)) d e.tokens e.toTree := by
  have hitem := h.item (d := d) hnesting hheight
  refine ⟨hitem.starts, fun t follow ht c hc => ?_⟩
  obtain ⟨e', c₁, hrun, he, hpast⟩ := hitem.gives t follow ht c hc
  have hcolon : (t :: follow).head? ≠ some .colon := by
    rintro ⟨⟩
    rcases ht with ht | ht
    · cases ht
    · cases ht
  refine ⟨e', c₁, ?_, he, hpast⟩
  rw [argument, on_bind_of_ok hrun, on_lift_bind,
    eat_run_at_none hpast.toAt (ends_of_separates (g := 0) ht).calm hcolon]
  rfl

/-- An argument with a keyword: the keyword is read as an expression first. -/
theorem ReadsBack.item_keyword {name : String} (h : ReadsBack e) (hnesting : e.nesting + 1 ≤ room)
    (hheight : (Tree.keyword () (.identifier () name) e.toTree).height ≤ maxHeight) :
    GivesItem (argument (level room)) d (.name name :: .colon :: e.tokens)
      (.keyword () (.identifier () name) e.toTree) := by
  have hvalue : e.toTree.height ≤ maxHeight :=
    Tree.height_le_of_mem_children hheight (List.mem_cons_of_mem _ List.mem_cons_self)
  refine ⟨⟨.name name, rfl, rfl⟩, fun t follow ht c hc => ?_⟩
  -- A keyword is known by its colon only after it was read as an expression.
  have hends : Ends 0 d (.colon :: e.tokens ++ t :: follow) := ends_cons rfl nofun
  have hkey := gives_name name (Nat.le_trans (Nat.le_add_left 1 _) hnesting) hends
  obtain ⟨k, c₁, hrun₁, hk, hpast₁⟩ := hkey c hc
  obtain ⟨_, c₂, heat, hpast₂⟩ := eat_run_at hpast₁.toAt nofun
  obtain ⟨v, c₃, hrun₂, hv, hpast₃⟩ :=
    h.expression hnesting hvalue (ends_of_separates ht) c₂ hpast₂.toAt
  have hkind : ¬ k.kind ≠ .identifier := by
    rw [← k.kind_bare, hk]
    exact fun hne => hne rfl
  refine ⟨.keyword (k.note.join v.note) k v, c₃, ?_, by rw [Tree.bare, hk, hv], hpast₃⟩
  rw [argument, on_bind_of_ok hrun₁, on_lift_bind, heat]
  dsimp only
  rw [if_neg hkind, on_bind_of_ok hrun₂]
  rfl

theorem items_arguments {args : List (Option String × Expr)} (h : ∀ p ∈ args, ReadsBack p.2)
    (hnesting : Expr.argNesting args ≤ room)
    (hheight : ∀ t ∈ Expr.argTrees args, t.height ≤ maxHeight) :
    List.Forall₂ (GivesItem (argument (level room)) d) (Expr.argTokens args)
      (Expr.argTrees args) := by
  induction args with
  | nil =>
    rw [Expr.argTokens, Expr.argTrees]
    exact .nil
  | cons arg args ih =>
    obtain ⟨harg, hrest⟩ := List.forall_mem_cons.mp h
    obtain ⟨_ | name, e⟩ := arg
    · rw [Expr.argNesting, Nat.max_le] at hnesting
      rw [Expr.argTrees] at hheight ⊢
      rw [Expr.argTokens]
      obtain ⟨hfits, hrestfit⟩ := List.forall_mem_cons.mp hheight
      exact .cons (harg.item_argument hnesting.1 hfits) (ih hrest hnesting.2 hrestfit)
    · rw [Expr.argNesting, Nat.max_le] at hnesting
      rw [Expr.argTrees] at hheight ⊢
      rw [Expr.argTokens]
      obtain ⟨hfits, hrestfit⟩ := List.forall_mem_cons.mp hheight
      exact .cons (harg.item_keyword hnesting.1 hfits) (ih hrest hnesting.2 hrestfit)

/-! ### Brackets -/

/-- Items between an opening and a closing bracket are an operand. -/
theorem gives_brackets {item : Parse (Tree Span)} {opening close : Token}
    {node : Span → List (Tree Span) → Tree Span} {tss : List (List Token)}
    {trees : List (Tree Unit)} (hopens : opening.opens = true) (hclose : close.closes = true)
    (hstart : ∀ span raw, startedBy inner ⟨opening, span, raw⟩ = do
      let (items, stop) ← untilClose item close
      return node (span.join stop) items)
    (hitems : List.Forall₂ (GivesItem item (d + 1)) tss trees)
    (hnode : ∀ span items, Tree.bareAll items = trees → (node span items).bare = tree) :
    Gives (primary inner) d (opening :: commas tss ++ [close]) tree follow := by
  intro c hc
  have hline : opening ≠ .newline := by
    rintro rfl
    cases hopens
  have hdepth : depthAfter d opening = d + 1 := by rw [depthAfter, if_pos hopens]
  have hc' : c.At d (opening :: (commas tss ++ close :: follow)) := by simpa using hc
  obtain ⟨span, raw, c₁, hprimary, hpast₁⟩ := primary_on_at hc' hline
  rw [hdepth] at hpast₁
  obtain ⟨items, stop, c₂, hrun, htrees, hpast₂⟩ := untilClose_on hclose hitems hpast₁.toAt
  refine ⟨node (span.join stop) items, c₂, ?_, hnode _ items htrees, hpast₂⟩
  rw [hprimary, hstart, on_bind_of_ok hrun]
  rfl

theorem readsBack_array {es : List Expr} (h : ∀ e ∈ es, ReadsBack e) : ReadsBack (.array es) := by
  refine readsBack_of_primary rfl fun room d follow hnesting hheight _ => ?_
  rw [Expr.nesting] at hnesting
  rw [Expr.toTree] at hheight ⊢
  rw [Expr.tokens]
  refine gives_brackets rfl rfl (fun _ _ => rfl)
    (items_array h hnesting fun _ => Tree.height_le_of_mem_children hheight) ?_
  intro span items htrees
  rw [Tree.bare, htrees]

theorem readsBack_dictionary {entries : List (Expr × Expr)}
    (h : ∀ p ∈ entries, ReadsBack p.1 ∧ ReadsBack p.2) : ReadsBack (.dictionary entries) := by
  refine readsBack_of_primary rfl fun room d follow hnesting hheight _ => ?_
  rw [Expr.nesting] at hnesting
  rw [Expr.toTree] at hheight ⊢
  rw [Expr.tokens]
  refine gives_brackets rfl rfl (fun _ _ => rfl)
    (items_dictionary h hnesting fun _ => Tree.height_le_of_mem_children hheight) ?_
  intro span entries htrees
  rw [Tree.bare, htrees]

/-- The arguments of a call in their brackets. -/
theorem gives_args {args : List (Option String × Expr)} (h : ∀ p ∈ args, ReadsBack p.2)
    (hnesting : Expr.argNesting args ≤ room)
    (hheight : (Tree.arguments () (Expr.argTrees args)).height ≤ maxHeight) :
    Gives (arguments (level room)) d (.lparen :: commas (Expr.argTokens args) ++ [.rparen])
      (.arguments () (Expr.argTrees args)) follow :=
  gives_arguments (items_arguments h hnesting fun _ => Tree.height_le_of_mem_children hheight)

/-- A name with a bracket after it is a call. -/
theorem readsBack_call {name : String} {args : List (Option String × Expr)}
    (h : ∀ p ∈ args, ReadsBack p.2) : ReadsBack (.call name args) := by
  refine readsBack_of_primary rfl fun room d follow hnesting hheight _ c hc => ?_
  rw [Expr.nesting] at hnesting
  rw [Expr.toTree] at hheight ⊢
  have hargsheight : (Tree.arguments () (Expr.argTrees args)).height ≤ maxHeight :=
    Tree.height_le_of_mem_children hheight (List.mem_cons_of_mem _ List.mem_cons_self)
  rw [Expr.tokens] at hc
  obtain ⟨span, raw, c₁, hprimary, hpast₁⟩ := primary_on_at hc nofun
  obtain ⟨l, c', hpeek, hl, -, -⟩ := advance_run_at hpast₁.toAt nofun
  obtain ⟨a, c₂, hrun, ha, hpast₂⟩ := gives_args h hnesting hargsheight c₁ hpast₁.toAt
  refine ⟨.call (span.join a.note) (.identifier span name) a, c₂, ?_,
    by rw [Tree.bare, Tree.bare, ha], hpast₂⟩
  rw [hprimary, startedBy]
  dsimp only
  rw [on_lift_bind, hpeek]
  dsimp only [Option.map_some]
  rw [if_pos (by rw [hl]), on_bind_of_ok hrun]
  rfl

theorem readsBack_subscript {i : Expr} (he : ReadsBack e) (hi : ReadsBack i) :
    ReadsBack (.subscript e i) := by
  intro room d follow hnesting hheight _
  rw [Expr.nesting, Nat.max_le] at hnesting
  rw [Expr.toTree] at hheight ⊢
  have hparts : ∀ t ∈ [e.toTree, i.toTree], t.height ≤ maxHeight :=
    fun t => Tree.height_le_of_mem_children hheight
  have hobject : Stands (level room) 7 d (e.tokensAt 7) e.toTree
      (.lbracket :: i.tokens ++ .rbracket :: follow) := by
    refine he.stands_at (Nat.le_refl 7) hnesting.1 (hparts _ (by simp)) ⟨?_, calm_cons nofun⟩
    rintro _ ⟨⟩ k ⟨⟩
    decide
  have hindex : Gives (level room).expression (d + 1) i.tokens i.toTree (.rbracket :: follow) :=
    hi.expression hnesting.2 (hparts _ (by simp)) (ends_cons rfl nofun)
  rw [Expr.tokens]
  exact hobject.subscript hindex

theorem readsBack_method {name : String} {args : List (Option String × Expr)} (he : ReadsBack e)
    (h : ∀ p ∈ args, ReadsBack p.2) : ReadsBack (.method e name args) := by
  intro room d follow hnesting hheight _
  rw [Expr.nesting, Nat.max_le] at hnesting
  rw [Expr.toTree] at hheight ⊢
  have hparts : ∀ t ∈ [e.toTree, .identifier () name, .arguments () (Expr.argTrees args)],
      t.height ≤ maxHeight :=
    fun t => Tree.height_le_of_mem_children hheight
  have hargs : Gives (arguments (level room)) d
      (.lparen :: commas (Expr.argTokens args) ++ [.rparen])
      (.arguments () (Expr.argTrees args)) follow :=
    gives_args h hnesting.2 (hparts _ (by simp))
  have hobject : Stands (level room) 7 d (e.tokensAt 7) e.toTree
      (.dot :: .name name :: .lparen :: (commas (Expr.argTokens args) ++ [.rparen]) ++
        follow) := by
    refine he.stands_at (Nat.le_refl 7) hnesting.1 (hparts _ (by simp)) ⟨?_, calm_cons nofun⟩
    rintro _ ⟨⟩ k ⟨⟩
    decide
  rw [Expr.tokens, List.append_assoc]
  exact hobject.method hargs

/-! ### Every expression -/

theorem sizeOf_parts_lt_of_mem {α β : Type} [SizeOf α] [SizeOf β] {p : α × β}
    {ps : List (α × β)} (h : p ∈ ps) : sizeOf p.1 + sizeOf p.2 < sizeOf ps := by
  have hlt := List.sizeOf_lt_of_mem h
  obtain ⟨a, b⟩ := p
  simp only [Prod.mk.sizeOf_spec] at hlt ⊢
  omega

/-- Every expression is read as it is written. -/
theorem readsBack : ∀ e : Expr, ReadsBack e
  | .identifier name => readsBack_identifier name
  | .integer value => readsBack_integer value
  | .boolean value => readsBack_boolean value
  | .string value format multiline => readsBack_string value format multiline
  | .array _ => readsBack_array fun e _ => readsBack e
  | .dictionary _ => readsBack_dictionary fun p _ => ⟨readsBack p.1, readsBack p.2⟩
  | .unary _ e => readsBack_unary (readsBack e)
  | .binary l _ r => readsBack_binary (readsBack l) (readsBack r)
  | .conditional p q r => readsBack_conditional (readsBack p) (readsBack q) (readsBack r)
  | .subscript e i => readsBack_subscript (readsBack e) (readsBack i)
  | .call _ _ => readsBack_call fun p _ => readsBack p.2
  | .method e _ _ => readsBack_method (readsBack e) fun p _ => readsBack p.2
  termination_by e => sizeOf e
  decreasing_by
    all_goals simp_wf
    all_goals first
      | omega
      | have hlt := List.sizeOf_lt_of_mem ‹e ∈ _›
        omega
      | have hlt := sizeOf_parts_lt_of_mem ‹p ∈ _›
        omega

end Parse

end MesonLens
