import Mathlib.Logic.Basic
import MesonLens.Proofs.Syntax.Cursor
import MesonLens.Syntax.SourceFile
import MesonLens.Syntax.Words

/-!
# `MesonLens.Proofs.Syntax.Lossless`: a tree has all the words of its text

When nothing is wrong with a text, the words of its tree are the words of the text: none is
lost, none stands twice, and they keep their order.

`Reads n words c c'` says that the parser has gone from one cursor to another, has passed `n`
tokens at least, and has passed exactly these words. It says so only if there is no error at
the end: a step that notes an error may drop what it likes. So `recover` and `report` need no
further thought, and each rule of the grammar has one lemma which follows its steps with
`Reads.trans`.

The count of tokens serves the loops. A block is read in a bounded number of rounds, and the
bound is enough because every round passes a token.
-/

set_option autoImplicit false

namespace MesonLens

open Token (wordsOf)

/-- The words that are still to be read. -/
def Cursor.words (c : Cursor) : List Token := wordsOf (c.rest.map Lexeme.token)

/-- From `c` to `c'` the parser passes the words, and `n` tokens at least, unless there is an
error. -/
def Reads (n : Nat) (words : List Token) (c c' : Cursor) : Prop :=
  c'.errors = [] →
    c.errors = [] ∧ c.words = words ++ c'.words ∧ c'.rest.length + n ≤ c.rest.length

namespace Reads

variable {n m : Nat} {words more : List Token} {a b c : Cursor}

theorem refl (c : Cursor) : Reads 0 [] c c := fun h => ⟨h, rfl, Nat.le_refl _⟩

theorem trans (h : Reads n words a b) (h' : Reads m more b c) :
    Reads (n + m) (words ++ more) a c := by
  intro hc
  obtain ⟨hb, hmore, hm⟩ := h' hc
  obtain ⟨ha, hwords, hn⟩ := h hb
  refine ⟨ha, ?_, by omega⟩
  rw [hwords, hmore, List.append_assoc]

/-- A step with an error may do anything. -/
theorem of_errors (h : b.errors ≠ []) : Reads n words a b := fun hb => absurd hb h

theorem mono (h : Reads n words a b) (hm : m ≤ n) : Reads m words a b :=
  fun hb => ⟨(h hb).1, (h hb).2.1, by have := (h hb).2.2; omega⟩

theorem congr (h : Reads n words a b) (hm : m ≤ n) (hmore : more = words) : Reads m more a b :=
  hmore ▸ h.mono hm

end Reads

theorem Tree.wordsAll_append {α : Type} (ts us : List (Tree α)) :
    Tree.wordsAll (ts ++ us) = Tree.wordsAll ts ++ Tree.wordsAll us := by
  induction ts with
  | nil => rfl
  | cons t ts ih => simp [Tree.wordsAll, ih]

namespace Parse

open Cursor

/-! ### Looking and reading -/

theorem wordsOf_passLines (last : Option Lexeme) (ls : List Lexeme) :
    wordsOf ((passLines last ls).2.map Lexeme.token) = wordsOf (ls.map Lexeme.token) ∧
      (passLines last ls).2.length ≤ ls.length := by
  induction ls generalizing last with
  | nil => exact ⟨rfl, Nat.le_refl _⟩
  | cons l ls ih =>
    by_cases hl : l.token = .newline
    · obtain ⟨hwords, hlength⟩ := ih (some l)
      simp only [passLines, hl, if_true]
      refine ⟨hwords.trans ?_, Nat.le_succ_of_le hlength⟩
      simp [wordsOf, hl, Token.isSeparator]
    · simp [passLines, hl]

/-- Looking at the next token passes no word. -/
theorem reads_settle (c : Cursor) : Reads 0 [] c c.settle := by
  intro h
  rw [c.settle_errors] at h
  refine ⟨h, ?_⟩
  unfold settle
  split
  · exact ⟨rfl, Nat.le_refl _⟩
  · obtain ⟨hwords, hlength⟩ := wordsOf_passLines c.last c.rest
    exact ⟨hwords.symm, hlength⟩

/-- Reading a token passes it. -/
theorem reads_after {c : Cursor} {l : Lexeme} {ls : List Lexeme} (h : c.settle.rest = l :: ls) :
    Reads 1 (wordsOf [l.token]) c (after c l ls) := by
  have hread : Reads 1 (wordsOf [l.token]) c.settle (after c l ls) := by
    intro herrors
    refine ⟨herrors, ?_, by rw [h]; simp [after]⟩
    simp only [Cursor.words, h, after, wordsOf, List.map_cons, ← List.filter_append]
    rfl
  exact ((reads_settle c).trans hread).congr (by omega) rfl

theorem reads_peek {c c' : Cursor} {next : Option Lexeme} (h : peek.run c = (next, c')) :
    Reads 0 [] c c' := by
  cases h
  exact reads_settle c

/-- Reading the token that was seen passes it. -/
theorem reads_advance {c c' : Cursor} {l : Lexeme} (h : peek.run c = (some l, c')) :
    Reads 1 (wordsOf [l.token]) c (advance.run c').2 := by
  rw [peek_run] at h
  obtain ⟨hl, rfl⟩ := Prod.mk.inj h
  obtain ⟨ls, hls⟩ : ∃ ls, c.settle.rest = l :: ls := by
    cases hrest : c.settle.rest with
    | nil => rw [hrest] at hl; cases hl
    | cons l' ls => rw [hrest] at hl; cases hl; exact ⟨ls, rfl⟩
  rw [advance_run_cons (settle_rest_settle hls), after_settle]
  exact reads_after hls

theorem reads_eat_some {t : Token} {c c' : Cursor} {span : Span}
    (h : (eat t).run c = (some span, c')) : Reads 1 (wordsOf [t]) c c' := by
  cases hrest : c.settle.rest with
  | nil =>
    rw [eat_run_none (by simp [hrest])] at h
    cases h
  | cons l ls =>
    by_cases hl : l.token = t
    · rw [eat_run_some hrest hl] at h
      cases h
      exact hl ▸ reads_after hrest
    · rw [eat_run_none (by simpa [hrest] using hl)] at h
      cases h

theorem reads_eat_none {t : Token} {c c' : Cursor} (h : (eat t).run c = (none, c')) :
    Reads 0 [] c c' := by
  cases hrest : c.settle.rest with
  | nil =>
    rw [eat_run_none (by simp [hrest])] at h
    cases h
    exact reads_settle c
  | cons l ls =>
    by_cases hl : l.token = t
    · rw [eat_run_some hrest hl] at h
      cases h
    · rw [eat_run_none (by simpa [hrest] using hl)] at h
      cases h
      exact reads_settle c

theorem reads_expectAs {t : Token} {wanted : Wanted} {c c' : Cursor} {span : Span}
    (h : (expectAs t wanted).on c = (.ok span, c')) : Reads 1 (wordsOf [t]) c c' := by
  unfold expectAs at h
  rw [on_lift_bind] at h
  rcases heat : (eat t).run c with ⟨_ | found, mid⟩
  · rw [heat] at h
    cases h
  · rw [heat] at h
    cases h
    exact reads_eat_some heat

theorem reads_discard_expect {t : Token} {c c' : Cursor} {u : Unit}
    (h : (discard (expect t)).on c = (.ok u, c')) : Reads 1 (wordsOf [t]) c c' := by
  obtain ⟨span, mid, hspan, h⟩ := on_bind_ok h
  cases h
  exact reads_expectAs hspan

/-! ### Expressions -/

attribute [local simp] Tree.words Tree.wordsAll Token.isSeparator

/-- A rule passes the words of the tree that it gives, and a token at least. -/
def Keeps (m : Parse (Tree Span)) : Prop :=
  ∀ c t c', m.on c = (.ok t, c') → Reads 1 t.words c c'

/-- What is read one level further in keeps its words. -/
structure Level.Keeps (inner : Level) : Prop where
  conditional : Parse.Keeps inner.conditional
  unary : Parse.Keeps inner.unary

variable {inner : Level}

theorem Level.Keeps.expression (h : inner.Keeps) : Parse.Keeps inner.expression := by
  intro c t c' hrun
  obtain ⟨e, mid, hconditional, hrest⟩ := on_bind_ok hrun
  have hread := h.conditional c e mid hconditional
  split at hrest
  · obtain ⟨_, _, hthrow, _⟩ := on_bind_ok hrest
    cases hthrow
  · cases hrest
    exact hread

/-- Items with commas between them keep their words. -/
theorem reads_commaList {item : Parse (Tree Span)} (hitem : Keeps item) {close : Token}
    (hclose : wordsOf [close] = []) {rounds : Nat} {c c' : Cursor} {ts : List (Tree Span)}
    {span : Span} (h : (commaList item close rounds).on c = (.ok (ts, span), c')) :
    Reads 1 (Tree.wordsAll ts) c c' := by
  induction rounds generalizing c ts with
  | zero => cases h
  | succ rounds ih =>
    unfold commaList at h
    rw [on_lift_bind] at h
    rcases heat : (eat close).run c with ⟨_ | found, c₁⟩
    · rw [heat] at h
      obtain ⟨first, c₂, hfirst, h⟩ := on_bind_ok h
      have hread := (reads_eat_none heat).trans (hitem _ _ _ hfirst)
      rw [on_lift_bind] at h
      rcases hcomma : (eat .comma).run c₂ with ⟨_ | comma, c₃⟩
      · rw [hcomma] at h
        obtain ⟨stop, c₄, hstop, h⟩ := on_bind_ok h
        cases h
        refine ((hread.trans (reads_eat_none hcomma)).trans (reads_expectAs hstop)).congr
          (by omega) ?_
        simp [hclose]
      · rw [hcomma] at h
        obtain ⟨⟨more, stop⟩, c₄, hmore, h⟩ := on_bind_ok h
        cases h
        refine ((hread.trans (reads_eat_some hcomma)).trans (ih hmore)).congr (by omega) ?_
        simp [wordsOf]
    · rw [heat] at h
      cases h
      exact (reads_eat_some heat).congr (by omega) (by rw [hclose]; rfl)

theorem reads_untilClose {item : Parse (Tree Span)} (hitem : Keeps item) {close : Token}
    (hclose : wordsOf [close] = []) {c c' : Cursor} {ts : List (Tree Span)} {span : Span}
    (h : (untilClose item close).on c = (.ok (ts, span), c')) :
    Reads 1 (Tree.wordsAll ts) c c' :=
  reads_commaList hitem hclose h

theorem keeps_argument (hinner : inner.Keeps) : Keeps (argument inner) := by
  intro c t c' h
  obtain ⟨key, c₁, hkey, h⟩ := on_bind_ok h
  have hread := hinner.expression _ _ _ hkey
  rw [on_lift_bind] at h
  rcases hcolon : (eat .colon).run c₁ with ⟨_ | colon, c₂⟩
  · rw [hcolon] at h
    cases h
    exact (hread.trans (reads_eat_none hcolon)).congr (by omega) (by simp)
  · rw [hcolon] at h
    dsimp only at h
    split at h
    · obtain ⟨_, _, hthrow, _⟩ := on_bind_ok h
      cases hthrow
    · obtain ⟨value, c₃, hvalue, h⟩ := on_bind_ok h
      cases h
      refine ((hread.trans (reads_eat_some hcolon)).trans
        (hinner.expression _ _ _ hvalue)).congr (by omega) ?_
      simp [wordsOf]

theorem keeps_arguments (hinner : inner.Keeps) : Keeps (arguments inner) := by
  intro c t c' h
  obtain ⟨start, c₁, hstart, h⟩ := on_bind_ok h
  obtain ⟨⟨items, stop⟩, c₂, hitems, h⟩ := on_bind_ok h
  cases h
  refine ((reads_expectAs hstart).trans
    (reads_untilClose (keeps_argument hinner) rfl hitems)).congr (by omega) ?_
  simp [wordsOf]

theorem keeps_entry (hinner : inner.Keeps) : Keeps (entry inner) := by
  intro c t c' h
  obtain ⟨key, c₁, hkey, h⟩ := on_bind_ok h
  obtain ⟨colon, c₂, hcolon, h⟩ := on_bind_ok h
  obtain ⟨value, c₃, hvalue, h⟩ := on_bind_ok h
  cases h
  refine (((hinner.expression _ _ _ hkey).trans (reads_discard_expect hcolon)).trans
    (hinner.expression _ _ _ hvalue)).congr (by omega) ?_
  simp [wordsOf]

/-- An operand passes the token that it starts with, and the words inside its brackets. -/
theorem keeps_primary (hinner : inner.Keeps) : Keeps (primary inner) := by
  intro c t c' h
  unfold primary at h
  rw [on_lift_bind] at h
  rcases hpeek : peek.run c with ⟨_ | l, c₁⟩
  · rw [hpeek] at h
    cases h
  rw [hpeek] at h
  dsimp only at h
  split at h
  · obtain ⟨_, _, hfail, _⟩ := on_bind_ok h
    cases hfail
  rw [on_discard_bind] at h
  have hfirst := reads_advance hpeek
  unfold startedBy at h
  split at h
  -- A number, a boolean or a string is a word itself.
  case h_1 value htoken | h_2 value htoken | h_3 value format multiline htoken =>
    cases h
    exact hfirst.congr (by omega) (by rw [htoken]; rfl)
  -- A name, and the arguments when it is called.
  case h_4 name htoken =>
    rw [on_lift_bind] at h
    have hnext := hfirst.trans (reads_settle (advance.run c₁).2)
    split at h
    · obtain ⟨args, c₂, hargs, h⟩ := on_bind_ok h
      cases h
      refine (hnext.trans (keeps_arguments hinner _ _ _ hargs)).congr (by omega) ?_
      simp [htoken, wordsOf]
    · cases h
      exact hnext.congr (by omega) (by simp [htoken, wordsOf])
  -- Parentheses, commas and the brackets of lists are no words.
  case h_5 htoken =>
    obtain ⟨e, c₂, he, h⟩ := on_bind_ok h
    obtain ⟨_, c₃, hclose, h⟩ := on_bind_ok h
    cases h
    refine ((hfirst.trans (hinner.expression _ _ _ he)).trans (reads_discard_expect hclose)).congr
      (by omega) ?_
    simp [htoken, wordsOf]
  case h_6 htoken =>
    obtain ⟨⟨elements, stop⟩, c₂, helements, h⟩ := on_bind_ok h
    cases h
    refine (hfirst.trans (reads_untilClose hinner.expression rfl helements)).congr (by omega) ?_
    simp [htoken, wordsOf]
  case h_7 htoken =>
    obtain ⟨⟨entries, stop⟩, c₂, hentries, h⟩ := on_bind_ok h
    cases h
    refine (hfirst.trans (reads_untilClose (keeps_entry hinner) rfl hentries)).congr
      (by omega) ?_
    simp [htoken, wordsOf]
  case h_8 => cases h

/-- Noting an error is no error-free step. -/
theorem report_errors_ne (fault : Fault) (span : Span) (c : Cursor) :
    ((report fault span).run c).2.errors ≠ [] := by
  change c.errors ++ [_] ≠ []
  simp

/-- A method call passes the name and the arguments. -/
theorem reads_method (hinner : inner.Keeps) {object t : Tree Span} {dot : Span} {c c' : Cursor}
    (h : (method inner object dot).on c = (.ok t, c')) :
    ∃ words, t.words = object.words ++ words ∧ Reads 0 words c c' := by
  unfold method at h
  rw [on_lift_bind] at h
  rcases hpeek : peek.run c with ⟨next, c₁⟩
  rw [hpeek] at h
  dsimp only at h
  split at h
  · next name span raw =>
    rw [on_discard_bind, on_lift_bind] at h
    have hname := (reads_advance hpeek).trans (reads_settle (advance.run c₁).2)
    split at h
    · obtain ⟨args, c₂, hargs, h⟩ := on_bind_ok h
      cases h
      refine ⟨.name name :: args.words, by simp, ?_⟩
      refine (hname.trans (keeps_arguments hinner _ _ _ hargs)).congr (by omega) ?_
      simp [wordsOf]
    · rw [on_lift_bind, on_lift_bind] at h
      cases h
      exact ⟨[.name name], by simp, .of_errors (report_errors_ne _ _ _)⟩
  · rw [on_lift_bind] at h
    cases h
    exact ⟨[], by simp, .of_errors (report_errors_ne _ _ _)⟩

/-- Method calls and subscripts go on after their object. -/
theorem reads_suffixes (hinner : inner.Keeps) {rounds : Nat} {object t : Tree Span}
    {c c' : Cursor} (h : (suffixes inner rounds object).on c = (.ok t, c')) :
    ∃ words, t.words = object.words ++ words ∧ Reads 0 words c c' := by
  induction rounds generalizing object c with
  | zero =>
    cases h
    exact ⟨[], by simp, .refl _⟩
  | succ rounds ih =>
    unfold suffixes at h
    rw [on_lift_bind] at h
    rcases hpeek : peek.run c with ⟨next, c₁⟩
    rw [hpeek] at h
    dsimp only at h
    split at h
    · rw [on_discard_bind] at h
      obtain ⟨call, c₂, hcall, h⟩ := on_bind_ok h
      obtain ⟨words, hwords, hread⟩ := reads_method hinner hcall
      obtain ⟨more, hmore, hrest⟩ := ih h
      refine ⟨words ++ more, by rw [hmore, hwords, List.append_assoc], ?_⟩
      refine (((reads_advance hpeek).trans hread).trans hrest).congr (by omega) ?_
      simp [wordsOf]
    · rw [on_discard_bind] at h
      obtain ⟨index, c₂, hindex, h⟩ := on_bind_ok h
      obtain ⟨stop, c₃, hstop, h⟩ := on_bind_ok h
      obtain ⟨more, hmore, hrest⟩ := ih h
      refine ⟨index.words ++ more, by rw [hmore]; simp, ?_⟩
      refine ((((reads_advance hpeek).trans (hinner.expression _ _ _ hindex)).trans
        (reads_expectAs hstop)).trans hrest).congr (by omega) ?_
      simp [wordsOf]
    · cases h
      exact ⟨[], by simp, reads_peek hpeek⟩

theorem keeps_operand (hinner : inner.Keeps) : Keeps (operand inner) := by
  intro c t c' h
  obtain ⟨e, c₁, he, h⟩ := on_bind_ok h
  obtain ⟨words, hwords, hread⟩ := reads_suffixes hinner h
  exact ((keeps_primary hinner _ _ _ he).trans hread).congr (by omega) hwords

theorem unaryOp?_token {t : Token} {op : UnaryOp} (h : unaryOp? t = some op) : t = op.token := by
  cases t <;> cases h <;> rfl

theorem keeps_unary (hinner : inner.Keeps) : Keeps (unary inner) := by
  intro c t c' h
  unfold unary at h
  rw [on_lift_bind] at h
  rcases hpeek : peek.run c with ⟨_ | l, c₁⟩
  · rw [hpeek] at h
    exact ((reads_peek hpeek).trans (keeps_operand hinner _ _ _ h)).congr (by omega) (by simp)
  rw [hpeek] at h
  dsimp only at h
  split at h
  · next op hop =>
    rw [on_discard_bind] at h
    obtain ⟨e, c₂, he, h⟩ := on_bind_ok h
    cases h
    refine ((reads_advance hpeek).trans (hinner.unary _ _ _ he)).congr (by omega) ?_
    rw [unaryOp?_token hop]
    cases op <;> simp [wordsOf, UnaryOp.token]
  · exact ((reads_peek hpeek).trans (keeps_operand hinner _ _ _ h)).congr (by omega) (by simp)

/-! ### Operators -/

/-- Reading an operator passes its words, or nothing. -/
def KeepsOp (op : Reading (Option BinaryOp)) : Prop :=
  ∀ c o c', op.run c = (o, c') → Reads 0 ((o.map BinaryOp.tokens).getD []) c c'

theorem keepsOp_operator {op? : Token → Option BinaryOp}
    (hop : ∀ t o, op? t = some o → o.tokens = wordsOf [t]) : KeepsOp (operator op?) := by
  intro c o c' h
  unfold operator at h
  rw [run_bind, peek_run] at h
  cases hrest : c.settle.rest with
  | nil =>
    rw [hrest] at h
    cases h
    exact reads_settle c
  | cons l ls =>
    rw [hrest] at h
    dsimp only [List.head?_cons, Option.bind_some] at h
    split at h
    · next op hl =>
      have hadvance : (advance.run c.settle).2 = after c l ls := by
        rw [advance_run_cons (settle_rest_settle hrest), after_settle]
      obtain ⟨rfl, rfl⟩ := Prod.mk.inj h
      change Reads 0 op.tokens c (advance.run c.settle).2
      rw [hadvance, hop _ _ hl]
      exact (reads_after hrest).mono (by omega)
    · cases h
      exact reads_settle c

/-- The two tokens `not in` are passed together. -/
theorem keepsOp_comparisonOperator : KeepsOp comparisonOperator := by
  intro c o c' h
  unfold comparisonOperator at h
  rw [run_bind, peek_run] at h
  dsimp only at h
  split at h
  · next hnot =>
    obtain ⟨l, hhead, hl⟩ := Option.map_eq_some_iff.mp hnot
    obtain ⟨ls, hrest⟩ := List.head?_eq_some_iff.mp hhead
    -- The second token is the one that stands next after the first one is read.
    have hsecond := peekSecond_run (settle_rest_settle hrest) (by rw [hl]; rfl)
    rw [after_settle, c.settle_settle] at hsecond
    rw [run_bind, hsecond] at h
    dsimp only at h
    split at h
    · next hin =>
      obtain ⟨l', hhead', hl'⟩ := Option.map_eq_some_iff.mp hin
      obtain ⟨ls', hrest'⟩ := List.head?_eq_some_iff.mp hhead'
      have hadvance : (advance.run c.settle).2 = after c l ls := by
        rw [advance_run_cons (settle_rest_settle hrest), after_settle]
      have hadvance' : (advance.run (after c l ls)).2 = after (after c l ls) l' ls' := by
        rw [advance_run_cons hrest']
      obtain ⟨rfl, rfl⟩ := Prod.mk.inj h
      change Reads 0 [.kwNot, .kwIn] c (advance.run (advance.run c.settle).2).2
      rw [hadvance, hadvance']
      refine ((reads_after hrest).trans (reads_after hrest')).congr (by omega) ?_
      rw [hl, hl']
      rfl
    · cases h
      exact reads_settle c
  · have hoperator : KeepsOp (operator BinaryOp.comparison?) := by
      refine keepsOp_operator fun t o ht => ?_
      cases t <;> cases ht <;> rfl
    exact ((reads_settle c).trans (hoperator _ _ _ h)).congr (by omega) (by simp)

/-- Operands and operators after the first operand. -/
theorem reads_chain {op : Reading (Option BinaryOp)} (hop : KeepsOp op)
    {next : Parse (Tree Span)} (hnext : Keeps next) {rounds : Nat} {left t : Tree Span}
    {c c' : Cursor} (h : (chain op next rounds left).on c = (.ok t, c')) :
    ∃ words, t.words = left.words ++ words ∧ Reads 0 words c c' := by
  induction rounds generalizing left c with
  | zero =>
    cases h
    exact ⟨[], by simp, .refl _⟩
  | succ rounds ih =>
    unfold chain at h
    rw [on_lift_bind] at h
    rcases hrun : op.run c with ⟨_ | o, c₁⟩
    · rw [hrun] at h
      cases h
      exact ⟨[], by simp, hop _ _ _ hrun⟩
    · rw [hrun] at h
      obtain ⟨right, c₂, hright, h⟩ := on_bind_ok h
      obtain ⟨more, hmore, hrest⟩ := ih h
      -- The tree so far is the left operand of the next one, so its words stay in front.
      refine ⟨o.tokens ++ right.words ++ more, by rw [hmore]; simp, ?_⟩
      exact (((hop _ _ _ hrun).trans (hnext _ _ _ hright)).trans hrest).congr (by omega) (by simp)

theorem keeps_leftGrouped {op : Reading (Option BinaryOp)} (hop : KeepsOp op)
    {next : Parse (Tree Span)} (hnext : Keeps next) : Keeps (leftGrouped op next) := by
  intro c t c' h
  obtain ⟨first, c₁, hfirst, h⟩ := on_bind_ok h
  obtain ⟨words, hwords, hread⟩ := reads_chain hop hnext h
  exact ((hnext _ _ _ hfirst).trans hread).congr (by omega) hwords

theorem keeps_disjunction (hinner : inner.Keeps) : Keeps (disjunction inner) := by
  refine keeps_leftGrouped (keepsOp_operator fun t o ht => ?_)
    (keeps_leftGrouped (keepsOp_operator fun t o ht => ?_)
      (keeps_leftGrouped keepsOp_comparisonOperator
        (keeps_leftGrouped (keepsOp_operator fun t o ht => ?_)
          (keeps_leftGrouped (keepsOp_operator fun t o ht => ?_) (keeps_unary hinner)))))
  all_goals cases t <;> cases ht <;> rfl

theorem keeps_conditional (hinner : inner.Keeps) : Keeps (conditional inner) := by
  intro c t c' h
  obtain ⟨condition, c₁, hcondition, h⟩ := on_bind_ok h
  have hread := keeps_disjunction hinner _ _ _ hcondition
  rw [on_lift_bind] at h
  rcases hquestion : (eat .question).run c₁ with ⟨_ | question, c₂⟩
  · rw [hquestion] at h
    cases h
    exact (hread.trans (reads_eat_none hquestion)).congr (by omega) (by simp)
  · rw [hquestion] at h
    obtain ⟨ifTrue, c₃, htrue, h⟩ := on_bind_ok h
    obtain ⟨_, c₄, hcolon, h⟩ := on_bind_ok h
    obtain ⟨ifFalse, c₅, hfalse, h⟩ := on_bind_ok h
    cases h
    refine ((((hread.trans (reads_eat_some hquestion)).trans
      (hinner.conditional _ _ _ htrue)).trans (reads_discard_expect hcolon)).trans
      (hinner.conditional _ _ _ hfalse)).congr (by omega) ?_
    simp [wordsOf]

theorem keeps_tooDeep : Keeps tooDeep := by
  intro c t c' h
  obtain ⟨span, mid, -, hthrow⟩ := on_bind_ok h
  exact absurd (congrArg Prod.fst hthrow) nofun

/-- Every level keeps its words. -/
theorem keeps_level (room : Nat) : (level room).Keeps := by
  induction room with
  | zero => exact ⟨keeps_tooDeep, keeps_tooDeep⟩
  | succ room ih => exact ⟨keeps_conditional ih, keeps_unary ih⟩

/-! ### Lines -/

/-- What could not be read is an error, and has no words. -/
theorem recover_run (start : List Lexeme) (e : SyntaxError) (c : Cursor) :
    ((recover start e).run c).1.words = [] ∧ ((recover start e).run c).2.errors ≠ [] := by
  constructor
  · rfl
  · change _ ++ [e] ≠ []
    simp

theorem reads_orRecover {p : Parse (Tree Span)} (hp : Keeps p) (c : Cursor) :
    Reads 1 ((orRecover p).run c).1.words c ((orRecover p).run c).2 := by
  rw [orRecover_run]
  rcases hrun : p.on c with ⟨e | found, c₁⟩
  · exact .of_errors (recover_run _ _ _).2
  · exact hp _ _ _ hrun

theorem reads_closeBrackets (c : Cursor) : Reads 0 [] c (closeBrackets.run c).2 :=
  fun h => ⟨h, rfl, Nat.le_refl _⟩

/-- A line ends without words of its own. -/
theorem reads_finishLine (c : Cursor) :
    Tree.wordsAll (finishLine.run c).1 = [] ∧ Reads 0 [] c (finishLine.run c).2 := by
  obtain hclose | ⟨l, ls, hrest, hl, hline⟩ | ⟨l, ls, -, -, herror⟩ := finishLine_cases c
  · rw [hclose]
    exact ⟨rfl, reads_closeBrackets c⟩
  · rw [hline]
    refine ⟨rfl, fun herrors => ⟨herrors, ?_, ?_⟩⟩
    · simp [Cursor.words, hrest, wordsOf, hl]
    · simp [hrest]
  · rw [herror]
    exact ⟨rfl, .of_errors (recover_run _ _ _).2⟩

theorem reads_finishHeader (c : Cursor) : Reads 0 [] c (finishHeader.run c).2 :=
  (reads_finishLine c).2

theorem assignOp_token {t : Token} {op : AssignOp} (h : AssignOp.ofToken? t = some op) :
    t = op.token := by
  cases t <;> cases h <;> rfl

theorem keeps_simpleStatement (hinner : inner.Keeps) : Keeps (simpleStatement inner) := by
  intro c t c' h
  obtain ⟨target, c₁, htarget, h⟩ := on_bind_ok h
  have hread := hinner.expression _ _ _ htarget
  rw [on_lift_bind] at h
  rcases hpeek : peek.run c₁ with ⟨next, c₂⟩
  rw [hpeek] at h
  dsimp only at h
  split at h
  · cases h
    exact (hread.trans (reads_peek hpeek)).congr (by omega) (by simp)
  · next op hop =>
    obtain ⟨l, rfl, hl⟩ := Option.bind_eq_some_iff.mp hop
    rw [on_discard_bind] at h
    have hsign : Reads 1 [op.token] c₁ (advance.run c₂).2 := by
      refine (reads_advance hpeek).congr (by omega) ?_
      rw [assignOp_token hl]
      cases op <;> rfl
    -- A bad target is an error, and reading goes on after it as after a good one.
    have hvalue : ∀ mid, Reads 0 [] (advance.run c₂).2 mid →
        (do let value ← inner.expression
            pure (Tree.assignment (target.note.join value.note) target op value)
          : Parse (Tree Span)).on mid = (.ok t, c') → Reads 1 t.words c c' := by
      intro mid hmid hrun
      obtain ⟨value, c₃, hvalue, hrun⟩ := on_bind_ok hrun
      cases hrun
      refine (((hread.trans hsign).trans hmid).trans (hinner.expression _ _ _ hvalue)).congr
        (by omega) ?_
      simp
    split at h
    · rw [on_lift_bind] at h
      exact hvalue _ (.of_errors (report_errors_ne _ _ _)) h
    · exact hvalue _ (.refl _) h

/-! ### Selections -/

/-- A block passes the words of its statements. -/
def KeepsAll (m : Reading (List (Tree Span))) : Prop :=
  ∀ c, Reads 0 (Tree.wordsAll (m.run c).1) c (m.run c).2

theorem peek_run_of_depth {c : Cursor} {l : Lexeme} (hdepth : c.depth = 0)
    (hhead : c.rest.head? = some l) : peek.run c = (some l, c) := by
  have hsettle : c.settle = c := by simp [settle, hdepth]
  rw [peek_run, hsettle, hhead]

/-- The keyword that a branch starts with, its condition, the end of the line and its block. -/
theorem reads_guarded (hinner : inner.Keeps) {block : Reading (List (Tree Span))}
    (hblock : KeepsAll block) {c c₁ : Cursor} {l : Lexeme} (hpeek : peek.run c = (some l, c₁)) :
    let condition := (orRecover inner.expression).run (advance.run c₁).2
    let body := block.run (finishHeader.run condition.2).2
    Reads 2 (wordsOf [l.token] ++ condition.1.words ++ Tree.wordsAll body.1) c body.2 := by
  intro condition body
  have hcondition := reads_orRecover hinner.expression (advance.run c₁).2
  have hbody := (reads_finishHeader condition.2).trans (hblock _)
  exact (((reads_advance hpeek).trans hcondition).trans hbody).congr (by omega)
    (by simp [condition, body])

/-- The keyword `else`, the end of the line and its block. -/
theorem reads_otherwise {block : Reading (List (Tree Span))} (hblock : KeepsAll block)
    {c c₁ : Cursor} {l : Lexeme} (hpeek : peek.run c = (some l, c₁)) :
    let body := block.run (finishHeader.run (advance.run c₁).2).2
    Reads 1 (wordsOf [l.token] ++ Tree.wordsAll body.1) c body.2 := by
  intro body
  have hbody := (reads_finishHeader (advance.run c₁).2).trans (hblock _)
  exact ((reads_advance hpeek).trans hbody).congr (by omega) (by simp [body])

/-- What is known of the branches after the first. Their words are those that are passed, when
there are rounds enough; after `else` there is only the end of the selection. -/
def KeepsBranches (rounds : Nat) (seenElse : Bool) (c : Cursor)
    (r : (List (Tree Span) × List (List (Tree Span))) × Cursor) : Prop :=
  (r.2.errors = [] → c.errors = []) ∧ (c.rest.length < rounds →
    Reads 1 ((Branches.ofLists r.1.1 r.1.2).words .kwElif) c r.2 ∧
      (seenElse = true → r.2.errors = [] → r.1 = ([], [])))

/-- A branch before further ones. -/
theorem KeepsBranches.cons {rounds n : Nat} {seenElse : Bool} {words : List Token}
    {c mid : Cursor} {r : (List (Tree Span) × List (List (Tree Span))) × Cursor}
    (hread : Reads (n + 1) words c mid) (h : KeepsBranches rounds seenElse mid r) :
    (r.2.errors = [] → c.errors = []) ∧ (c.rest.length < rounds + 1 → r.2.errors = [] →
      Reads 1 (words ++ (Branches.ofLists r.1.1 r.1.2).words .kwElif) c r.2 ∧
        (seenElse = true → r.1 = ([], []))) := by
  refine ⟨fun herrors => (hread (h.1 herrors)).1, fun hrounds herrors => ?_⟩
  -- The branch has passed a token, so that there is a round less to go.
  have hlength := (hread (h.1 herrors)).2.2
  obtain ⟨hrest, hseen⟩ := h.2 (by omega)
  exact ⟨(hread.trans hrest).mono (by omega), fun hs => hseen hs herrors⟩

/-- A keyword that starts a branch can be read, and is an error after `else`. -/
theorem atBranch_spec {c : Cursor} {l : Lexeme} (hhead : c.rest.head? = some l) (seenElse : Bool)
    (fault : Fault) (span : Span) :
    peek.run (atBranch seenElse fault span c) = (some l, atBranch seenElse fault span c) ∧
      Reads 0 [] c (atBranch seenElse fault span c) ∧
      (seenElse = true → (atBranch seenElse fault span c).errors ≠ []) := by
  cases seenElse with
  | true =>
    have herrors : (atBranch true fault span c).errors ≠ [] := report_errors_ne fault span _
    exact ⟨peek_run_of_depth rfl hhead, .of_errors herrors, fun _ => herrors⟩
  | false => exact ⟨peek_run_of_depth rfl hhead, reads_closeBrackets c, nofun⟩

/-- The branches of a selection after the first keep their words. -/
theorem keepsBranches_moreBranches (hinner : inner.Keeps) {block : Reading (List (Tree Span))}
    (hblock : KeepsAll block) (rounds : Nat) (seenElse : Bool) (c : Cursor) :
    KeepsBranches rounds seenElse c ((moreBranches inner block rounds seenElse).run c) := by
  induction rounds generalizing seenElse c with
  | zero => exact ⟨fun h => h, fun h => absurd h (Nat.not_lt_zero _)⟩
  | succ rounds ih =>
    obtain ⟨span, raw, hhead⟩ | ⟨span, raw, hhead⟩ | ⟨span, raw, hhead⟩ | hother := branch_cases c
    · obtain ⟨hpeek, hmid, hseen⟩ := atBranch_spec hhead seenElse .elifAfterElse span
      obtain ⟨herrors, hwords⟩ := KeepsBranches.cons (reads_guarded hinner hblock hpeek)
        (ih seenElse _)
      rw [moreBranches_run_elif hhead]
      refine ⟨fun h => (hmid (herrors h)).1, fun hrounds => ⟨fun h => ?_, fun hs h => ?_⟩⟩
      · have hlength := (hmid (herrors h)).2.2
        obtain ⟨hrest, -⟩ := hwords (by omega) h
        refine (hmid.trans hrest).congr (by omega) ?_ h
        simp [wordsOf, Branches.ofLists, Branches.words]
      · exact absurd (herrors h) (hseen hs)
    · obtain ⟨hpeek, hmid, hseen⟩ := atBranch_spec hhead seenElse .repeatedElse span
      obtain ⟨herrors, hwords⟩ := KeepsBranches.cons (reads_otherwise hblock hpeek) (ih true _)
      rw [moreBranches_run_else hhead]
      refine ⟨fun h => (hmid (herrors h)).1, fun hrounds => ⟨fun h => ?_, fun hs h => ?_⟩⟩
      · have hlength := (hmid (herrors h)).2.2
        obtain ⟨hrest, hnone⟩ := hwords (by omega) h
        -- Nothing but the end of the selection comes after `else`.
        rw [hnone rfl] at hrest
        refine (hmid.trans hrest).congr (by omega) ?_ h
        dsimp only
        rw [hnone rfl]
        simp [wordsOf, Branches.ofLists, Branches.words]
      · exact absurd (herrors h) (hseen hs)
    · have hpeek := peek_run_of_depth (c := { c with depth := 0 }) rfl hhead
      have hread := (reads_closeBrackets c).trans (reads_advance hpeek)
      rw [moreBranches_run_endif hhead]
      exact ⟨fun h => (hread h).1, fun _ => ⟨hread.congr (by omega) rfl, fun _ _ => rfl⟩⟩
    · -- What is no branch is an error.
      let error := (unexpected (.token .kwEndif)).run { c with depth := 0 }
      have herrors := report_errors_ne error.1.fault error.1.span error.2
      rw [moreBranches_run_other inner block rounds seenElse hother]
      exact ⟨fun h => absurd h herrors, fun _ => ⟨.of_errors herrors, fun _ h => absurd h herrors⟩⟩

/-- A selection passes the words of all its branches. -/
theorem reads_selection (hinner : inner.Keeps) {block : Reading (List (Tree Span))}
    (hblock : KeepsAll block) {c : Cursor} {l : Lexeme} (hpeek : peek.run c = (some l, c.settle))
    (hl : l.token = .kwIf) :
    Reads 1 ((selection inner block).run c.settle).1.words c
      ((selection inner block).run c.settle).2 := by
  have hguarded := reads_guarded hinner hblock hpeek
  obtain ⟨span, hrun⟩ := selection_run inner block c.settle
  rw [c.settle_settle] at hrun
  rw [hrun]
  refine (hguarded.trans ((keepsBranches_moreBranches hinner hblock _ false _).2
    (Nat.lt_succ_self _)).1).congr (by omega) ?_
  simp [hl, wordsOf, Branches.ofLists, Branches.words]

/-! ### Loops -/

theorem reads_loopVariables {rounds : Nat} {c c' : Cursor} {names : List (Tree Span)}
    (h : (loopVariables rounds).on c = (.ok names, c')) : Reads 1 (Tree.wordsAll names) c c' := by
  induction rounds generalizing c names with
  | zero => cases h
  | succ rounds ih =>
    unfold loopVariables at h
    rw [on_lift_bind] at h
    rcases hpeek : peek.run c with ⟨next, c₁⟩
    rw [hpeek] at h
    dsimp only at h
    split at h
    · next name span raw =>
      rw [on_discard_bind, on_lift_bind] at h
      have hname := reads_advance hpeek
      rcases hcomma : (eat .comma).run (advance.run c₁).2 with ⟨_ | comma, c₂⟩
      · rw [hcomma] at h
        cases h
        refine (hname.trans (reads_eat_none hcomma)).congr (by omega) ?_
        simp [wordsOf]
      · rw [hcomma] at h
        obtain ⟨more, c₃, hmore, h⟩ := on_bind_ok h
        cases h
        refine ((hname.trans (reads_eat_some hcomma)).trans (ih hmore)).congr (by omega) ?_
        simp [wordsOf]
    · cases h

theorem reads_loopHeader (hinner : inner.Keeps) {c c' : Cursor}
    {header : List (Tree Span) × Tree Span} (h : (loopHeader inner).on c = (.ok header, c')) :
    Reads 2 (Tree.wordsAll header.1 ++ header.2.words) c c' := by
  unfold loopHeader at h
  rw [on_get_bind] at h
  obtain ⟨names, c₁, hnames, h⟩ := on_bind_ok h
  have hread := reads_loopVariables hnames
  dsimp only at h
  split at h
  · rw [on_get_bind] at h
    obtain ⟨_, _, hthrow, _⟩ := on_bind_ok h
    cases hthrow
  · obtain ⟨_, c₂, hcolon, h⟩ := on_bind_ok h
    obtain ⟨iterable, c₃, hiterable, h⟩ := on_bind_ok h
    cases h
    refine ((hread.trans (reads_discard_expect hcolon)).trans
      (hinner.expression _ _ _ hiterable)).congr (by omega) ?_
    simp [wordsOf]

theorem reads_headerOrRecover (hinner : inner.Keeps) (c : Cursor) :
    let header := (headerOrRecover inner).run c
    Reads 0 (Tree.wordsAll header.1.1 ++ header.1.2.words) c header.2 := by
  rw [headerOrRecover_run]
  rcases hrun : (loopHeader inner).on c with ⟨e | header, c₁⟩
  · exact .of_errors (recover_run _ _ _).2
  · exact (reads_loopHeader hinner hrun).mono (by omega)

theorem reads_closeLoop (c : Cursor) : Reads 0 [.kwEndforeach] c (closeLoop.run c).2 := by
  by_cases hend : ∃ l, c.rest.head? = some l ∧ l.token = .kwEndforeach
  · obtain ⟨l, hhead, hl⟩ := hend
    have hpeek := peek_run_of_depth (c := { c with depth := 0 }) rfl hhead
    rw [closeLoop_run hhead hl]
    refine ((reads_closeBrackets c).trans (reads_advance hpeek)).congr (by omega) ?_
    rw [hl]
    rfl
  · obtain ⟨fault, span, mid, hrun⟩ := closeLoop_run_other (c := c) fun l hl hend' =>
      hend ⟨l, hl, hend'⟩
    rw [hrun]
    exact .of_errors (report_errors_ne _ _ _)

/-- A loop passes the words of its header and its block. -/
theorem reads_iteration (hinner : inner.Keeps) {block : Reading (List (Tree Span))}
    (hblock : KeepsAll block) {c : Cursor} {l : Lexeme} (hpeek : peek.run c = (some l, c.settle))
    (hl : l.token = .kwForeach) :
    Reads 1 ((iteration inner block).run c.settle).1.words c
      ((iteration inner block).run c.settle).2 := by
  obtain ⟨span, hrun⟩ := iteration_run inner block c.settle
  rw [c.settle_settle] at hrun
  rw [hrun]
  have hheader := (reads_advance hpeek).trans (reads_headerOrRecover hinner _)
  refine (((hheader.trans (reads_finishHeader _)).trans (hblock _)).trans
    (reads_closeLoop _)).congr (by omega) ?_
  simp [hl, wordsOf]

/-! ### Statements -/

/-- A block passes the words of its statements. The statements of a file go on to its end,
when there are rounds enough. -/
theorem reads_blockRounds {one : Parse (Tree Span)} (hone : Keeps one) (top : Bool)
    (rounds : Nat) (c : Cursor) :
    let r := (blockRounds one top rounds).run c
    Reads 0 (Tree.wordsAll r.1) c r.2 ∧
      (top = true → c.rest.length < rounds → r.2.errors = [] → r.2.rest = []) := by
  induction rounds generalizing c with
  | zero => exact ⟨.refl c, fun _ h => absurd h (Nat.not_lt_zero _)⟩
  | succ rounds ih =>
    have hclose := reads_closeBrackets c
    -- A round passes a token, and the rounds after it do the rest.
    have hround : ∀ (words : List Token) (mid : Cursor) (ts : List (Tree Span)),
        Reads 1 words c mid →
        Tree.wordsAll ts = words ++ Tree.wordsAll ((blockRounds one top rounds).run mid).1 →
        Reads 0 (Tree.wordsAll ts) c ((blockRounds one top rounds).run mid).2 ∧
          (top = true → c.rest.length < rounds + 1 →
            ((blockRounds one top rounds).run mid).2.errors = [] →
              ((blockRounds one top rounds).run mid).2.rest = []) := by
      intro words mid ts hmid hts
      obtain ⟨hread, hend⟩ := ih mid
      refine ⟨(hmid.trans hread).congr (by omega) hts, fun htop hlength herrors => ?_⟩
      have hmore := (hmid (hread herrors).1).2.2
      exact hend htop (by omega) herrors
    cases hrest : c.rest with
    | nil =>
      rw [blockRounds_run_nil hrest]
      exact ⟨hclose, fun _ _ _ => hrest⟩
    | cons l ls =>
      rw [← hrest]
      by_cases hline : l.token = .newline
      · rw [blockRounds_run_newline hrest hline]
        refine hround [] _ _ (fun h => ⟨h, ?_, by simp [hrest]⟩) rfl
        simp [Cursor.words, hrest, wordsOf, hline]
      -- A word that closes a block ends it, unless no block is open.
      cases hcloses : l.token.closesBlock with
      | true =>
        cases top with
        | true =>
          rw [blockRounds_run_stray hrest hcloses]
          exact hround [] _ _ (.of_errors (recover_run _ _ _).2) rfl
        | false =>
          rw [blockRounds_run_closes hrest hcloses]
          exact ⟨hclose, nofun⟩
      | false =>
        rw [blockRounds_run_statement hrest hline hcloses]
        rcases hrun : one.on { c with depth := 0 } with ⟨e | t, c₁⟩
        · exact hround [] _ _ (.of_errors (recover_run _ _ _).2) rfl
        · have hstatement := (hclose.trans (hone _ _ _ hrun)).trans (reads_finishLine c₁).2
          refine hround t.words _ _ (hstatement.congr (by omega) (by simp)) ?_
          have hjunk := (reads_finishLine c₁).1
          simp [Tree.wordsAll_append, hjunk]

theorem keepsAll_block {one : Parse (Tree Span)} (hone : Keeps one) (top : Bool) :
    KeepsAll (block one top) :=
  fun c => (reads_blockRounds hone top _ c).1

/-- A statement keeps its words when those further in do. -/
theorem reads_statement {room : Nat} (hinner : ∀ k < room, Keeps (statement k)) :
    Keeps (statement room) := by
  intro c t c' h
  by_cases hstarts : ∃ l, c.settle.rest.head? = some l ∧ startsStatement l.token = true
  · obtain ⟨l, hhead, hl⟩ := hstarts
    have hpeek : peek.run c = (some l, c.settle) := by rw [peek_run, hhead]
    have hword := reads_advance hpeek
    cases htoken : l.token with
    | kwBreak =>
      have hrun := statement_on_break room hhead htoken
      cases hrun.symm.trans h
      exact hword.congr (by omega) (by rw [htoken]; rfl)
    | kwContinue =>
      have hrun := statement_on_continue room hhead htoken
      cases hrun.symm.trans h
      exact hword.congr (by omega) (by rw [htoken]; rfl)
    | kwIf =>
      cases room with
      | zero =>
        rw [statement_on_zero hhead (.inl htoken)] at h
        exact ((reads_settle c).trans (keeps_tooDeep _ _ _ h)).congr (by omega) (by simp)
      | succ room =>
        rw [statement_on_selection hhead htoken] at h
        cases h
        exact reads_selection (keeps_level room)
          (keepsAll_block (hinner room (Nat.lt_succ_self room)) false) hpeek htoken
    | kwForeach =>
      cases room with
      | zero =>
        rw [statement_on_zero hhead (.inr htoken)] at h
        exact ((reads_settle c).trans (keeps_tooDeep _ _ _ h)).congr (by omega) (by simp)
      | succ room =>
        rw [statement_on_iteration hhead htoken] at h
        cases h
        exact reads_iteration (keeps_level room)
          (keepsAll_block (hinner room (Nat.lt_succ_self room)) false) hpeek htoken
    | _ => rw [htoken] at hl; cases hl
  · rw [statement_on_simple fun l hl => by simpa using fun hs => hstarts ⟨l, hl, hs⟩] at h
    exact ((reads_settle c).trans (keeps_simpleStatement (keeps_level room) _ _ _ h)).congr
      (by omega) (by simp)

/-- Every statement keeps its words. -/
theorem keeps_statement (room : Nat) : Keeps (statement room) := by
  induction room using Nat.strongRecOn with
  | ind room ih => exact reads_statement ih

/-- The statements of a file have all of its words, when there is no error. -/
theorem wordsAll_statements {lexemes : List Lexeme} {eof : Position}
    (h : (statements lexemes eof).2 = []) :
    Tree.wordsAll (statements lexemes eof).1 = wordsOf (lexemes.map Lexeme.token) := by
  obtain ⟨hread, hend⟩ := reads_blockRounds (keeps_statement maxNesting) true
    (lexemes.length + 1) { rest := lexemes, eof }
  obtain ⟨-, hwords, -⟩ := hread h
  rw [Cursor.words, Cursor.words, hend rfl (Nat.lt_succ_self _) h, List.map_nil] at hwords
  exact (hwords.trans (List.append_nil _)).symm

end Parse

/-! ### Whole files -/

mutual

/-- Numbering a tree keeps its words. -/
theorem Tree.words_number : ∀ (t : Tree Span) (n : Nat), (t.number.run n).1.words = t.words
  | .file _ ts, n | .arguments _ ts, n | .array _ ts, n | .dictionary _ ts, n =>
    Tree.words_numberAll ts n
  | .assignment _ l op r, n =>
    congrArg₂ (· ++ op.token :: ·) (Tree.words_number l n) (Tree.words_number r _)
  | .binary _ l op r, n =>
    congrArg₂ (· ++ op.tokens ++ ·) (Tree.words_number l n) (Tree.words_number r _)
  | .conditional _ c t f, n =>
    congrArg₂ (· ++ ·) (congrArg₂ (· ++ ·) (Tree.words_number c n) (Tree.words_number t _))
      (Tree.words_number f _)
  | .call _ l r, n | .entry _ l r, n | .keyword _ l r, n | .subscript _ l r, n
  | .method _ l r none, n =>
    congrArg₂ (· ++ ·) (Tree.words_number l n) (Tree.words_number r _)
  | .method _ object name (some args), n =>
    congrArg₂ (· ++ ·) (congrArg₂ (· ++ ·) (Tree.words_number object n)
      (Tree.words_number name _)) (Tree.words_number args _)
  | .iteration _ names iterable body, n =>
    congrArg₂ (.kwForeach :: · ++ · ++ [.kwEndforeach])
      (congrArg₂ (· ++ ·) (Tree.words_numberAll names n) (Tree.words_number iterable _))
      (Tree.words_numberAll body _)
  | .selection _ branches, n => Branches.words_number branches .kwIf n
  | .unary _ op t, n => congrArg (op.token :: ·) (Tree.words_number t n)
  | .boolean .., _ | .identifier .., _ | .integer .., _ | .string .., _ | .malformed .., _
  | .breakLoop .., _ | .continueLoop .., _ => rfl

theorem Tree.words_numberAll : ∀ (ts : List (Tree Span)) (n : Nat),
    Tree.wordsAll ((Tree.numberAll ts).run n).1 = Tree.wordsAll ts
  | [], _ => rfl
  | t :: ts, n => congrArg₂ (· ++ ·) (Tree.words_number t n) (Tree.words_numberAll ts _)

theorem Branches.words_number : ∀ (b : Branches Span) (first : Token) (n : Nat),
    (b.number.run n).1.words first = b.words first
  | .done, _, _ => rfl
  | .otherwise body, _, n =>
    congrArg (.kwElse :: · ++ [.kwEndif]) (Tree.words_numberAll body n)
  | .arm condition body rest, first, n =>
    congrArg₂ (first :: · ++ ·) (congrArg₂ (· ++ ·) (Tree.words_number condition n)
      (Tree.words_numberAll body _)) (Branches.words_number rest .kwElif _)

end

namespace SourceFile

/-- Nothing is lost. When nothing is wrong with a text, the words of its tree are the words of
its tokens: names, literals, operators and keywords, each once and in the order of the text. -/
theorem words_parse (text : String) (h : (parse text).errors = []) :
    wordsOf ((Lexed.ofText text).lexemes.map Lexeme.token) = (parse text).root.words := by
  have hnone : (Lexed.ofText text).errors ++
      (Parse.statements (Lexed.ofText text).lexemes (Position.after {} text.toList)).2 = [] := by
    have hlength := congrArg List.length h
    rw [show (parse text).errors = sortErrors _ from rfl, sortErrors, List.length_mergeSort]
      at hlength
    exact List.length_eq_zero_iff.mp hlength
  have hwords := Parse.wordsAll_statements (List.append_eq_nil_iff.mp hnone).2
  exact hwords.symm.trans (Tree.words_number (.file _ _) 0).symm

/-- A selection with brackets over two lines, and an operator of two tokens. -/
theorem words_parse_selection :
    (parse "if a not in [\n b,]\n c += d.e(f: (1))\nelse\n g = h ? -i : 'j'\nendif\n").errors = [] ∧
      wordsOf ((Lexed.ofText
          "if a not in [\n b,]\n c += d.e(f: (1))\nelse\n g = h ? -i : 'j'\nendif\n"
          ).lexemes.map Lexeme.token) =
        (parse "if a not in [\n b,]\n c += d.e(f: (1))\nelse\n g = h ? -i : 'j'\nendif\n"
          ).root.words :=
  ⟨by decide +kernel, words_parse _ (by decide +kernel)⟩

end SourceFile

end MesonLens
