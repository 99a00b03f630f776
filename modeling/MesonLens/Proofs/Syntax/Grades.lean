import MesonLens.Proofs.Syntax.Cursor
import MesonLens.Syntax.Program

/-!
# `MesonLens.Proofs.Syntax.Grades`: rules by the grades of what they read

The rules of the grammar are numbered by the grades of what they read: `rule inner g` reads
expressions of the grade `g` and tighter ones. `Gives` is the statement about a rule: it reads
the tokens of an expression, gives its tree, and stops at what follows. A rule stops there if
the next token does not go on with an expression at its grade (`Ends`).

Operators group to the left, so a rule cannot know after its first operand whether the
expression is complete. `Stands` says what it has done when it stands after an expression: it is
in the middle of its loop, with the tree of this expression in hand (`goOn`). From this place it
either ends (`Stands.gives`), or reads one more operator (`Stands.binary`). The same holds of the
method calls and subscripts after an operand (`Stands.method`, `Stands.subscript`).

A looser rule calls the tighter ones, so what a rule has in hand every looser rule has in hand
too (`Stands.lower_le`), unless something that joins more loosely follows.
-/

set_option autoImplicit false

namespace MesonLens

/-! ### Grades -/

theorem BinaryOp.one_le_grade (op : BinaryOp) : 1 ≤ op.grade := by
  cases op <;> decide

theorem BinaryOp.grade_le (op : BinaryOp) : op.grade ≤ 5 := by
  cases op <;> decide

theorem Expr.grade_le (e : Expr) : e.grade ≤ 7 := by
  cases e with
  | binary _ op _ => exact Nat.le_trans op.grade_le (by decide)
  | _ => simp [Expr.grade]

/-! ### Cursors and tokens -/

/-- The cursor stands before the tokens, with some number of brackets open, and nothing was
found wrong. -/
structure Cursor.At (depth : Nat) (ts : List Token) (c : Cursor) : Prop where
  tokens : c.rest.map Lexeme.token = ts
  depth : c.depth = depth
  errors : c.errors = []

/-- The cursor stands before the tokens and not at the start of a line. -/
structure Cursor.Past (depth : Nat) (ts : List Token) (c : Cursor) : Prop
    extends c.At depth ts where
  last : c.last.any (·.token = .newline) = false

/-- No line end is passed before the tokens. -/
def Calm (depth : Nat) (ts : List Token) : Prop := depth = 0 ∨ ts.head? ≠ some .newline

namespace Cursor

variable {d : Nat} {t : Token} {ts : List Token} {c : Cursor}

theorem At.settle_eq (h : c.At d ts) (hcalm : Calm d ts) : c.settle = c := by
  obtain ⟨rest, last, depth, eof, errors⟩ := c
  have htokens : rest.map Lexeme.token = ts := h.tokens
  have hdepth : depth = d := h.depth
  unfold settle
  rcases hcalm with rfl | hhead
  · simp [hdepth]
  · split
    · rfl
    · cases rest with
      | nil => rfl
      | cons l ls =>
        have hl : l.token ≠ .newline := by
          rintro hl
          rw [← htokens, List.map_cons, hl] at hhead
          exact hhead rfl
        simp [passLines, hl]

/-- The lexeme of the next token. -/
theorem At.cons (h : c.At d (t :: ts)) :
    ∃ l ls, c.rest = l :: ls ∧ l.token = t ∧ ls.map Lexeme.token = ts := by
  have htokens := h.tokens
  cases hrest : c.rest with
  | nil => simp [hrest] at htokens
  | cons l ls =>
    rw [hrest, List.map_cons] at htokens
    obtain ⟨hl, hls⟩ := List.cons.inj htokens
    exact ⟨l, ls, rfl, hl, hls⟩

theorem At.length_eq (h : c.At d ts) : c.rest.length = ts.length := by
  rw [← h.tokens, List.length_map]

end Cursor

theorem calm_cons {d : Nat} {t : Token} {ts : List Token} (ht : t ≠ .newline) :
    Calm d (t :: ts) := .inr (by simpa using ht)

namespace Parse

open Cursor

variable {d : Nat} {t : Token} {ts : List Token} {c : Cursor}

/-- Looking at the next token. -/
theorem peek_run_at (h : c.At d ts) (hcalm : Calm d ts) :
    peek.run c = (c.rest.head?, c) := by
  rw [peek_run, h.settle_eq hcalm]

/-- Reading the next token. -/
theorem advance_run_at (h : c.At d (t :: ts)) (ht : t ≠ .newline) :
    ∃ l c', peek.run c = (some l, c) ∧ l.token = t ∧ advance.run c = (some l, c') ∧
      c'.Past (depthAfter d t) ts := by
  obtain ⟨l, ls, hrest, hl, hls⟩ := h.cons
  have hsettle := h.settle_eq (calm_cons ht)
  have hhead : c.settle.rest = l :: ls := by rw [hsettle, hrest]
  refine ⟨l, after c l ls, ?_, hl, advance_run_cons hhead, ⟨hls, ?_, ?_⟩, ?_⟩
  · rw [peek_run, hsettle, hrest]
    rfl
  · simp [after, h.depth, hl]
  · simp [after, hsettle, h.errors]
  · simp [after, hl, ht]

/-- Eating the next token. -/
theorem eat_run_at (h : c.At d (t :: ts)) (ht : t ≠ .newline) :
    ∃ span c', (eat t).run c = (some span, c') ∧ c'.Past (depthAfter d t) ts := by
  obtain ⟨l, ls, hrest, hl, hls⟩ := h.cons
  have hhead : c.settle.rest = l :: ls := by rw [h.settle_eq (calm_cons ht), hrest]
  obtain ⟨l', c', -, -, hadvance, hpast⟩ := advance_run_at h ht
  refine ⟨l.span, c', ?_, hpast⟩
  rw [eat_run_some hhead hl]
  rw [advance_run_cons hhead] at hadvance
  cases hadvance
  rfl

/-- Another token is not eaten. -/
theorem eat_run_at_none (h : c.At d ts) (hcalm : Calm d ts) (ht : ts.head? ≠ some t) :
    (eat t).run c = (none, c) := by
  have hsettle := h.settle_eq hcalm
  rw [eat_run_none, hsettle]
  intro l hl heq
  rw [hsettle] at hl
  rw [← h.tokens, List.head?_map, hl, Option.map_some, heq] at ht
  exact ht rfl

theorem expectAs_on_at (wanted : Wanted) (h : c.At d (t :: ts)) (ht : t ≠ .newline) :
    ∃ span c', (expectAs t wanted).on c = (.ok span, c') ∧ c'.Past (depthAfter d t) ts := by
  obtain ⟨span, c', heat, hpast⟩ := eat_run_at h ht
  refine ⟨span, c', ?_, hpast⟩
  unfold expectAs
  rw [on_lift_bind, heat]
  rfl

theorem discard_expect_on_at (h : c.At d (t :: ts)) (ht : t ≠ .newline) :
    ∃ c', (discard (expect t)).on c = (.ok (), c') ∧ c'.Past (depthAfter d t) ts := by
  obtain ⟨span, c', hspan, hpast⟩ := expectAs_on_at (.token t) h ht
  refine ⟨c', ?_, hpast⟩
  have hexpect : (expect t).on c = (.ok span, c') := hspan
  exact on_bind_of_ok hexpect

/-! ### Rules by their grades -/

/-- The rule for expressions of a grade and tighter ones. -/
def rule (inner : Level) : Nat → Parse (Tree Span)
  | 0 => conditional inner
  | 1 => disjunction inner
  | 2 => conjunction inner
  | 3 => comparison inner
  | 4 => additive inner
  | 5 => multiplicative inner
  | 6 => unary inner
  | _ => operand inner

/-- The operators of a grade. -/
def operatorOf : Nat → Reading (Option BinaryOp)
  | 1 => operator orOp?
  | 2 => operator andOp?
  | 3 => comparisonOperator
  | 4 => operator additiveOp?
  | _ => operator multiplicativeOp?

/-- The rules between conditionals and unary operators read operands with operators between
them. -/
theorem rule_eq_leftGrouped (inner : Level) {g : Nat} (hlow : 1 ≤ g) (hhigh : g ≤ 5) :
    rule inner g = leftGrouped (operatorOf g) (rule inner (g + 1)) := by
  match g, hlow, hhigh with
  | 1, _, _ => rfl
  | 2, _, _ => rfl
  | 3, _, _ => rfl
  | 4, _, _ => rfl
  | 5, _, _ => rfl

/-- The grade at which a token goes on with an expression before it. A name with a bracket
after it is a call, which is the tightest. -/
def joins? : Token → Option Nat
  | .question => some 0
  | .kwOr => some 1
  | .kwAnd => some 2
  | .eq | .ne | .gt | .lt | .ge | .le | .kwIn | .kwNot => some 3
  | .add | .sub => some 4
  | .mul | .div | .mod => some 5
  | .dot | .lbracket => some 7
  | .lparen => some 8
  | _ => none

/-- What follows does not go on with an expression of the grade. -/
structure Ends (g d : Nat) (ts : List Token) : Prop where
  stops : ∀ t ∈ ts.head?, ∀ k ∈ joins? t, k < g
  calm : Calm d ts

theorem Ends.mono {g g' : Nat} (h : Ends g d ts) (hle : g ≤ g') : Ends g' d ts :=
  ⟨fun t ht k hk => Nat.lt_of_lt_of_le (h.stops t ht k hk) hle, h.calm⟩

/-- A token that starts an expression. -/
def startsExpression : Token → Bool
  | .name _ | .integer _ | .boolean _ | .string .. => true
  | .lparen | .lbracket | .lbrace | .kwNot | .sub => true
  | _ => false

theorem ne_newline_of_startsExpression (h : startsExpression t = true) : t ≠ .newline := by
  rintro rfl
  cases h

/-! ### Operators -/

/-- Nothing is read where no operator of the kind stands. -/
theorem operator_run_none {op? : Token → Option BinaryOp} (h : c.At d ts) (hcalm : Calm d ts)
    (hop : ∀ t ∈ ts.head?, op? t = none) : (operator op?).run c = (none, c) := by
  have hnone : (c.rest.head?.bind fun l => op? l.token) = none := by
    cases hhead : c.rest.head? with
    | none => rfl
    | some l => exact hop l.token (by rw [← h.tokens, List.head?_map, hhead]; rfl)
  unfold operator
  rw [run_bind, peek_run_at h hcalm]
  dsimp only
  rw [hnone]
  rfl

/-- An operator of one token is read. -/
theorem operator_run_some {op? : Token → Option BinaryOp} {op : BinaryOp} (h : c.At d (t :: ts))
    (hop : op? t = some op) (ht : t ≠ .newline) (hdepth : depthAfter d t = d) :
    ∃ c', (operator op?).run c = (some op, c') ∧ c'.Past d ts := by
  obtain ⟨l, c', hpeek, hl, hadvance, hpast⟩ := advance_run_at h ht
  refine ⟨c', ?_, hdepth ▸ hpast⟩
  unfold operator
  rw [run_bind, hpeek]
  dsimp only [Option.bind_some]
  rw [hl, hop]
  change (some op, (advance.run c).2) = _
  rw [hadvance]

/-- The operators that a function reads are those of a grade that are written as one token. -/
def ReadsGrade (op? : Token → Option BinaryOp) (g : Nat) : Prop :=
  ∀ t op, op? t = some op ↔ op.tokens = [t] ∧ op.grade = g

theorem readsGrade_orOp? : ReadsGrade orOp? 1 := by
  refine fun t op => ⟨fun h => ?_, fun ⟨ht, hg⟩ => ?_⟩
  · cases t <;> cases h
    exact ⟨rfl, rfl⟩
  · cases op <;> cases hg
    cases ht
    rfl

theorem readsGrade_andOp? : ReadsGrade andOp? 2 := by
  refine fun t op => ⟨fun h => ?_, fun ⟨ht, hg⟩ => ?_⟩
  · cases t <;> cases h
    exact ⟨rfl, rfl⟩
  · cases op <;> cases hg
    cases ht
    rfl

theorem readsGrade_comparison? : ReadsGrade BinaryOp.comparison? 3 := by
  refine fun t op => ⟨fun h => ?_, fun ⟨ht, hg⟩ => ?_⟩
  · cases t <;> cases h <;> exact ⟨rfl, rfl⟩
  · cases op <;> cases hg <;> cases ht <;> rfl

theorem readsGrade_additiveOp? : ReadsGrade additiveOp? 4 := by
  refine fun t op => ⟨fun h => ?_, fun ⟨ht, hg⟩ => ?_⟩
  · cases t <;> cases h <;> exact ⟨rfl, rfl⟩
  · cases op <;> cases hg <;> cases ht <;> rfl

theorem readsGrade_multiplicativeOp? : ReadsGrade multiplicativeOp? 5 := by
  refine fun t op => ⟨fun h => ?_, fun ⟨ht, hg⟩ => ?_⟩
  · cases t <;> cases h <;> exact ⟨rfl, rfl⟩
  · cases op <;> cases hg <;> cases ht <;> rfl

/-- The first token of an operator goes on with an expression of the operator's grade. -/
theorem joins?_of_tokens {op : BinaryOp} (h : op.tokens.head? = some t) :
    joins? t = some op.grade := by
  cases op <;> cases h <;> rfl

theorem operator_run_none_of_ends {op? : Token → Option BinaryOp} {g : Nat}
    (hop : ReadsGrade op? g) (h : c.At d ts) (hends : Ends g d ts) :
    (operator op?).run c = (none, c) := by
  refine operator_run_none h hends.calm fun t ht => ?_
  cases hsome : op? t with
  | none => rfl
  | some op =>
    obtain ⟨htokens, hgrade⟩ := (hop t op).mp hsome
    have hjoins : joins? t = some op.grade := joins?_of_tokens (by rw [htokens]; rfl)
    exact absurd (hends.stops t ht _ hjoins) (by omega)

/-- A single token is read as a comparison unless it is `not`. -/
theorem comparisonOperator_run (h : c.At d ts) (hcalm : Calm d ts)
    (hnot : ts.head? ≠ some .kwNot) :
    comparisonOperator.run c = (operator BinaryOp.comparison?).run c := by
  have hhead : c.rest.head?.map Lexeme.token ≠ some .kwNot := by
    rw [← List.head?_map, h.tokens]
    exact hnot
  unfold comparisonOperator
  rw [run_bind, peek_run_at h hcalm]
  dsimp only
  split
  · next heq => exact absurd heq hhead
  · rfl

/-- No operator of the grade is read where an expression of the grade ends. -/
theorem operatorOf_run_none {g : Nat} (hlow : 1 ≤ g) (hhigh : g ≤ 5) (h : c.At d ts)
    (hends : Ends g d ts) : (operatorOf g).run c = (none, c) := by
  match g, hlow, hhigh with
  | 1, _, _ => exact operator_run_none_of_ends readsGrade_orOp? h hends
  | 2, _, _ => exact operator_run_none_of_ends readsGrade_andOp? h hends
  | 3, _, _ =>
    have hnot : ts.head? ≠ some .kwNot := fun hhead =>
      absurd (hends.stops _ hhead 3 rfl) (Nat.lt_irrefl 3)
    rw [operatorOf, comparisonOperator_run h hends.calm hnot]
    exact operator_run_none_of_ends readsGrade_comparison? h hends
  | 4, _, _ => exact operator_run_none_of_ends readsGrade_additiveOp? h hends
  | 5, _, _ => exact operator_run_none_of_ends readsGrade_multiplicativeOp? h hends

/-- The two tokens `not in` are read as one operator. -/
theorem comparisonOperator_run_notIn (h : c.At d (.kwNot :: .kwIn :: ts)) :
    ∃ c', comparisonOperator.run c = (some .notIn, c') ∧ c'.Past d ts := by
  -- What is seen as the second token is what is next after reading the first one.
  obtain ⟨l, c₁, hpeek, hl, hadvance, hpast⟩ := advance_run_at h nofun
  obtain ⟨l', c₂, hpeek', hl', hadvance', hpast'⟩ := advance_run_at hpast.toAt nofun
  have hsettle := h.settle_eq (calm_cons nofun)
  have hsecond : peekSecond.run c = (some .kwIn, c) := by
    obtain ⟨l₁, ls, hrest, hl₁, -⟩ := h.cons
    have hhead : c.settle.rest = l₁ :: ls := by rw [hsettle, hrest]
    rw [advance_run_cons hhead] at hadvance
    cases hadvance
    have hnext := congrArg Prod.fst hpeek'
    rw [peek_run] at hnext
    rw [peekSecond_run hhead (by rw [hl]; rfl), hsettle]
    dsimp only at hnext
    rw [hnext, Option.map_some, hl']
  refine ⟨c₂, ?_, hpast'⟩
  unfold comparisonOperator
  rw [run_bind, hpeek]
  dsimp only [Option.map_some]
  rw [hl]
  dsimp only
  rw [run_bind, hsecond]
  change (some BinaryOp.notIn, (advance.run (advance.run c).2).2) = _
  rw [hadvance, hadvance']

/-- An operator of the grade is read. -/
theorem operatorOf_run_some {op : BinaryOp} (h : c.At d (op.tokens ++ ts)) :
    ∃ c', (operatorOf op.grade).run c = (some op, c') ∧ c'.Past d ts := by
  cases op with
  | notIn => exact comparisonOperator_run_notIn h
  | or => exact operator_run_some h rfl nofun rfl
  | and => exact operator_run_some h rfl nofun rfl
  | add | sub => exact operator_run_some h rfl nofun rfl
  | mul | div | mod => exact operator_run_some h rfl nofun rfl
  | eq | ne | gt | lt | ge | le | isIn =>
    change ∃ c', comparisonOperator.run c = _ ∧ _
    rw [comparisonOperator_run h (calm_cons nofun) nofun]
    exact operator_run_some h rfl nofun rfl

/-! ### Giving a tree -/

/-- The rule reads the tokens, gives the tree, and stops at what follows. -/
def Gives (m : Parse (Tree Span)) (d : Nat) (ts : List Token) (tree : Tree Unit)
    (follow : List Token) : Prop :=
  ∀ c : Cursor, c.At d (ts ++ follow) →
    ∃ t c', m.on c = (.ok t, c') ∧ t.bare = tree ∧ c'.Past d follow

/-- How a rule goes on after an expression of its grade, with some rounds of its loop left. The
rules for conditionals and unary operators have no loop. -/
def goOn (inner : Level) (g rounds : Nat) (t : Tree Span) : Parse (Tree Span) :=
  if g = 7 then suffixes inner rounds t
  else if 1 ≤ g ∧ g ≤ 5 then chain (operatorOf g) (rule inner (g + 1)) rounds t
  else pure t

/-- The rule has read the tokens and stands at what follows, with the tree in hand and enough
rounds for all that follows. -/
def Stands (inner : Level) (g d : Nat) (ts : List Token) (tree : Tree Unit)
    (follow : List Token) : Prop :=
  ∀ c : Cursor, c.At d (ts ++ follow) → ∃ rounds t c',
    (rule inner g).on c = (goOn inner g rounds t).on c' ∧
      t.bare = tree ∧ c'.Past d follow ∧ follow.length ≤ rounds

variable {inner : Level} {g : Nat} {tree left right : Tree Unit} {follow : List Token}

theorem goOn_chain (hlow : 1 ≤ g) (hhigh : g ≤ 5) (rounds : Nat) (t : Tree Span) :
    goOn inner g rounds t = chain (operatorOf g) (rule inner (g + 1)) rounds t := by
  have hne : g ≠ 7 := by omega
  rw [goOn, if_neg hne, if_pos ⟨hlow, hhigh⟩]

/-- The loops end where nothing goes on with the expression. -/
theorem goOn_on_ends (rounds : Nat) (t : Tree Span) (hc : c.At d follow)
    (hends : Ends g d follow) : (goOn inner g rounds t).on c = (.ok t, c) := by
  unfold goOn
  split
  · next hg =>
    -- After an operand only a dot or a bracket goes on.
    subst hg
    cases rounds with
    | zero => rfl
    | succ n =>
      rw [suffixes, on_lift_bind, peek_run_at hc hends.calm]
      have hstop : ∀ l ∈ c.rest.head?, joins? l.token ≠ some 7 := by
        intro l hl hjoins
        have hmem : l.token ∈ follow.head? := by
          rw [← hc.tokens, List.head?_map, hl]
          rfl
        exact absurd (hends.stops _ hmem 7 hjoins) (Nat.lt_irrefl 7)
      dsimp only
      split
      · next h => exact absurd rfl (hstop _ h)
      · next h => exact absurd rfl (hstop _ h)
      · rfl
  · split
    · next hrange =>
      -- A rule for operators goes on with an operator of its own grade.
      cases rounds with
      | zero => rfl
      | succ n =>
        rw [chain, on_lift_bind, operatorOf_run_none hrange.1 hrange.2 hc hends]
        rfl
    · rfl

/-- A rule gives what it has in hand where nothing goes on with it. -/
theorem Stands.gives (h : Stands inner g d ts tree follow) (hends : Ends g d follow) :
    Gives (rule inner g) d ts tree follow := by
  intro c hc
  obtain ⟨rounds, t, c', hrun, ht, hpast, -⟩ := h c hc
  exact ⟨t, c', by rw [hrun, goOn_on_ends rounds t hpast.toAt hends], ht, hpast⟩

/-- A rule without a loop has in hand what it gives. -/
theorem Gives.stands (hg : g = 0 ∨ g = 6) (h : Gives (rule inner g) d ts tree follow) :
    Stands inner g d ts tree follow := by
  intro c hc
  obtain ⟨t, c', hrun, ht, hpast⟩ := h c hc
  refine ⟨follow.length, t, c', ?_, ht, hpast, Nat.le_refl _⟩
  have hpure : goOn inner g follow.length t = pure t := by
    rcases hg with rfl | rfl
    · rfl
    · rfl
  rw [hrun, hpure, on_pure]

/-- A first operand is in hand. -/
theorem Gives.stands_chain (hlow : 1 ≤ g) (hhigh : g ≤ 5)
    (h : Gives (rule inner (g + 1)) d ts tree follow) : Stands inner g d ts tree follow := by
  intro c hc
  obtain ⟨t, c', hrun, ht, hpast⟩ := h c hc
  refine ⟨c'.rest.length, t, c', ?_, ht, hpast, Nat.le_of_eq hpast.length_eq.symm⟩
  rw [rule_eq_leftGrouped inner hlow hhigh, leftGrouped, on_bind_of_ok hrun, on_get_bind,
    goOn_chain hlow hhigh]

/-- What starts an operand is in hand. -/
theorem Gives.stands_operand (h : Gives (primary inner) d ts tree follow) :
    Stands inner 7 d ts tree follow := by
  intro c hc
  obtain ⟨t, c', hrun, ht, hpast⟩ := h c hc
  refine ⟨c'.rest.length, t, c', ?_, ht, hpast, Nat.le_of_eq hpast.length_eq.symm⟩
  change (operand inner).on c = (suffixes inner c'.rest.length t).on c'
  rw [operand, on_bind_of_ok hrun, on_get_bind]

/-- One more operator and operand are read after the left operand. -/
theorem Stands.binary {op : BinaryOp} {ts' : List Token}
    (hleft : Stands inner op.grade d ts left (op.tokens ++ ts' ++ follow))
    (hright : Gives (rule inner (op.grade + 1)) d ts' right follow) :
    Stands inner op.grade d (ts ++ op.tokens ++ ts') (.binary () left op right) follow := by
  have hlow := op.one_le_grade
  have hhigh := op.grade_le
  have hlength : 1 ≤ op.tokens.length := by cases op <;> decide
  intro c hc
  -- The rounds count the tokens that follow, and the operator is one of them at least, so the loop
  -- has a round left for it.
  obtain ⟨rounds, t, c₁, hrun, ht, hpast, hrounds⟩ := hleft c (by simpa using hc)
  obtain ⟨c₂, hop, hpast₂⟩ := operatorOf_run_some (by simpa using hpast.toAt)
  obtain ⟨t', c₃, hrun', ht', hpast₃⟩ := hright c₂ hpast₂.toAt
  simp only [List.length_append] at hrounds
  obtain ⟨n, rfl⟩ : ∃ n, rounds = n + 1 := ⟨rounds - 1, by omega⟩
  refine ⟨n, .binary (t.note.join t'.note) t op t', c₃, ?_, ?_, hpast₃, by omega⟩
  · rw [hrun, goOn_chain hlow hhigh, goOn_chain hlow hhigh, chain, on_lift_bind, hop]
    exact on_bind_of_ok hrun'
  · rw [Tree.bare, ht, ht']

/-- A subscript is read after its object. -/
theorem Stands.subscript {is : List Token} {index : Tree Unit}
    (hobject : Stands inner 7 d ts tree (.lbracket :: is ++ .rbracket :: follow))
    (hindex : Gives inner.expression (d + 1) is index (.rbracket :: follow)) :
    Stands inner 7 d (ts ++ .lbracket :: is ++ [.rbracket]) (.subscript () tree index)
      follow := by
  intro c hc
  obtain ⟨rounds, t, c₁, hrun, ht, hpast, hrounds⟩ := hobject c (by simpa using hc)
  obtain ⟨l, c₂, hpeek, hl, hadvance, hpast₂⟩ := advance_run_at hpast.toAt nofun
  obtain ⟨i, c₃, hrun₃, hi, hpast₃⟩ := hindex c₂ hpast₂.toAt
  obtain ⟨stop, c₄, hrun₄, hpast₄⟩ := expectAs_on_at (.token .rbracket) hpast₃.toAt nofun
  have hexpect : (expect .rbracket).on c₃ = (.ok stop, c₄) := hrun₄
  simp only [List.length_append, List.length_cons] at hrounds
  obtain ⟨n, rfl⟩ : ∃ n, rounds = n + 1 := ⟨rounds - 1, by omega⟩
  refine ⟨n, .subscript (t.note.join stop) t i, c₄, ?_, ?_, hpast₄, by omega⟩
  · obtain ⟨token, span, raw⟩ := l
    cases hl
    rw [hrun]
    change (suffixes inner (n + 1) t).on c₁ = (suffixes inner n _).on c₄
    rw [suffixes, on_lift_bind, hpeek]
    dsimp only
    rw [on_discard_bind, hadvance, on_bind_of_ok hrun₃, on_bind_of_ok hexpect]
  · rw [Tree.bare, ht, hi]

/-- A method call is read after its object. -/
theorem Stands.method {as : List Token} {args : Tree Unit} {name : String}
    (hobject : Stands inner 7 d ts tree (.dot :: .name name :: .lparen :: as ++ follow))
    (hargs : Gives (arguments inner) d (.lparen :: as) args follow) :
    Stands inner 7 d (ts ++ .dot :: .name name :: .lparen :: as)
      (.method () tree (.identifier () name) (some args)) follow := by
  intro c hc
  obtain ⟨rounds, t, c₁, hrun, ht, hpast, hrounds⟩ := hobject c (by simpa using hc)
  obtain ⟨l, c₂, hpeek, hl, hadvance, hpast₂⟩ := advance_run_at hpast.toAt nofun
  obtain ⟨l', c₃, hpeek', hl', hadvance', hpast₃⟩ := advance_run_at hpast₂.toAt nofun
  -- The bracket is only seen here. It is the rule for arguments that reads it.
  obtain ⟨l'', c₄, hpeek'', hl'', -, -⟩ := advance_run_at hpast₃.toAt nofun
  obtain ⟨a, c₅, hrun₅, ha, hpast₅⟩ := hargs c₃ hpast₃.toAt
  simp only [List.cons_append, List.length_cons, List.length_append] at hrounds
  obtain ⟨n, rfl⟩ : ∃ n, rounds = n + 1 := ⟨rounds - 1, by omega⟩
  obtain ⟨token, dot, raw⟩ := l
  obtain ⟨token', span, raw'⟩ := l'
  cases hl
  cases hl'
  have hmethod : (Parse.method inner t dot).on c₂ =
      (.ok (.method (t.note.join a.note) t (.identifier span name) (some a)), c₅) := by
    unfold Parse.method
    rw [on_lift_bind, hpeek']
    dsimp only
    rw [on_discard_bind, hadvance', on_lift_bind, hpeek'']
    dsimp only [Option.map_some]
    rw [if_pos (by rw [hl'']), on_bind_of_ok hrun₅]
    rfl
  refine ⟨n, .method (t.note.join a.note) t (.identifier span name) (some a), c₅, ?_, ?_, hpast₅,
    by omega⟩
  · rw [hrun]
    change (suffixes inner (n + 1) t).on c₁ = (suffixes inner n _).on c₅
    rw [suffixes, on_lift_bind, hpeek]
    dsimp only
    rw [on_discard_bind, hadvance, on_bind_of_ok hmethod]
  · rw [Tree.bare, ht, ha]
    rfl

/-! ### From a tighter rule to a looser one -/

/-- An operand that no unary operator stands before. -/
theorem Gives.unary (h : Gives (rule inner 7) d (t :: ts) tree follow) (ht : t ≠ .newline)
    (hop : unaryOp? t = none) : Gives (rule inner 6) d (t :: ts) tree follow := by
  intro c hc
  obtain ⟨l, c', hpeek, hl, -, -⟩ := advance_run_at hc ht
  change ∃ t c', (Parse.unary inner).on c = _ ∧ _
  unfold Parse.unary
  rw [on_lift_bind, hpeek]
  dsimp only
  rw [hl, hop]
  exact h c hc

/-- A condition that no arms follow. -/
theorem Gives.conditional (h : Gives (rule inner 1) d ts tree follow)
    (hends : Ends 0 d follow) : Gives (rule inner 0) d ts tree follow := by
  intro c hc
  obtain ⟨t, c', hrun, ht, hpast⟩ := h c hc
  have hdisjunction : (disjunction inner).on c = (.ok t, c') := hrun
  have hquestion : follow.head? ≠ some .question := fun hhead =>
    absurd (hends.stops _ hhead 0 rfl) (Nat.lt_irrefl 0)
  refine ⟨t, c', ?_, ht, hpast⟩
  change (Parse.conditional inner).on c = _
  rw [Parse.conditional, on_bind_of_ok hdisjunction, on_lift_bind,
    eat_run_at_none hpast.toAt hends.calm hquestion]
  rfl

/-- What may follow an expression at a place that asks for a grade: an operator of the grade may
follow its left operand, but nothing tighter. Conditionals group to the right, and nothing
follows them. -/
def tail : Nat → Nat
  | 0 => 0
  | g + 1 => g + 2

theorem le_tail (g : Nat) : g ≤ tail g := by
  cases g with
  | zero => exact Nat.le_refl 0
  | succ g => exact Nat.le_succ (g + 1)

theorem tail_mono {g' : Nat} (h : g ≤ g') : tail g ≤ tail g' := by
  cases g with
  | zero => exact Nat.zero_le _
  | succ g =>
    obtain ⟨k, rfl⟩ : ∃ k, g' = k + 1 := ⟨g' - 1, by omega⟩
    exact Nat.succ_le_succ h

theorem tail_le_succ (g : Nat) : tail g ≤ g + 1 := by
  cases g with
  | zero => exact Nat.zero_le 1
  | succ g => exact Nat.le_refl (g + 2)

/-- The next looser rule has in hand what a rule gives. -/
theorem Stands.lower (hg : g ≤ 6) (hop : g = 6 → ∃ t ∈ ts.head?, startsExpression t = true ∧
      unaryOp? t = none)
    (h : Stands inner (g + 1) d ts tree follow) (hends : Ends (tail g) d follow) :
    Stands inner g d ts tree follow := by
  -- The tighter rule is done with the expression, for an operator of the grade `g` ends it. Then
  -- the looser rule is right after its first operand.
  have hgives := h.gives (hends.mono (tail_le_succ g))
  rcases Nat.eq_zero_or_pos g with rfl | hlow
  · exact (hgives.conditional hends).stands (.inl rfl)
  · by_cases hhigh : g ≤ 5
    · exact hgives.stands_chain hlow hhigh
    · obtain rfl : g = 6 := by omega
      obtain ⟨t, hhead, hstarts, hunary⟩ := hop rfl
      cases ts with
      | nil => cases hhead
      | cons t' ts =>
        cases hhead
        exact (hgives.unary (ne_newline_of_startsExpression hstarts) hunary).stands (.inr rfl)

/-- A looser rule has in hand what a tighter one has. -/
theorem Stands.lower_le {g' : Nat} (h : Stands inner g' d ts tree follow) (hle : g ≤ g')
    (hg' : g' ≤ 7)
    (hop : g' = 7 → ∃ t ∈ ts.head?, startsExpression t = true ∧ unaryOp? t = none)
    (hends : Ends (tail g) d follow) : Stands inner g d ts tree follow := by
  induction g' with
  | zero => exact Nat.le_zero.mp hle ▸ h
  | succ k ih =>
    rcases Nat.lt_or_eq_of_le hle with hlt | rfl
    · have hk : g ≤ k := Nat.le_of_lt_succ hlt
      have hlower : Stands inner k d ts tree follow :=
        h.lower (by omega) (fun h6 => hop (by omega)) (hends.mono (tail_mono hk))
      exact ih hlower hk (by omega) (by omega)
    · exact h

end Parse

end MesonLens
