import MesonLens.Token.Lexer
import Mathlib.Order.Basic
import Mathlib.Tactic.ByContra

/-!
# `MesonLens.Proofs.Token.Order`: the tokens of a text stand in order

A place of a text tells an offset, a line and a column. They agree with each other because
places are counted on from the start of the text, character by character: `p ≤ q` says that
some text leads from `p` to `q`.

* `Position.eq_of_le_of_offset_le`: of two such places the offset tells which comes first, so that
  `Span.join` can go by offsets (`Span.join_eq`);
* `Position.follows_of_le`: line and column tell it too, so that `Span.contains` can go by them;
* `Lexer.inOrder_scan`: the lexemes of a text cover some text each, and none of them starts
  before the last one has ended.
-/

set_option autoImplicit false

namespace MesonLens

theorem byteLength_eq_zero {cs : List Char} (h : byteLength cs = 0) : cs = [] := by
  cases cs with
  | nil => rfl
  | cons c cs =>
    have hpos := c.utf8Size_pos
    simp only [byteLength] at h
    omega

namespace Position

/-- A place comes before another one, or is the same: some text leads from it to the other. -/
instance : LE Position := ⟨fun p q => ∃ cs, p.after cs = q⟩

theorem le_after (p : Position) (cs : List Char) : p ≤ p.after cs := ⟨cs, rfl⟩

theorem after_append (p : Position) (cs ds : List Char) :
    p.after (cs ++ ds) = (p.after cs).after ds := List.foldl_append

theorem offset_next (p : Position) (c : Char) : (p.next c).offset = p.offset + c.utf8Size := by
  unfold next
  split <;> rfl

theorem offset_after (p : Position) (cs : List Char) :
    (p.after cs).offset = p.offset + byteLength cs := by
  induction cs generalizing p with
  | nil => rfl
  | cons c cs ih =>
    change ((p.next c).after cs).offset = _
    rw [ih, offset_next, byteLength, Nat.add_assoc]

/-- A place with a smaller offset does not come later. -/
theorem eq_of_le_of_offset_le {p q : Position} (h : p ≤ q) (hoffset : q.offset ≤ p.offset) :
    p = q := by
  obtain ⟨cs, rfl⟩ := h
  rw [offset_after] at hoffset
  have hnone : cs = [] := byteLength_eq_zero (by omega)
  rw [hnone]
  rfl

theorem offset_le_of_le {p q : Position} (h : p ≤ q) : p.offset ≤ q.offset := by
  obtain ⟨cs, rfl⟩ := h
  rw [offset_after]
  exact Nat.le_add_right _ _

instance : PartialOrder Position where
  le_refl p := ⟨[], rfl⟩
  le_trans := by
    rintro p _ _ ⟨cs, rfl⟩ ⟨ds, rfl⟩
    exact ⟨cs ++ ds, after_append p cs ds⟩
  le_antisymm _ _ h h' := eq_of_le_of_offset_le h (offset_le_of_le h')

/-- A character leads further on. -/
theorem lt_after_cons (p : Position) (c : Char) (cs : List Char) : p < p.after (c :: cs) := by
  refine lt_of_le_of_ne (le_after p _) fun heq => ?_
  have hoffset := congrArg offset heq
  have hpos := c.utf8Size_pos
  rw [offset_after, byteLength] at hoffset
  omega

theorem follows_iff {p : Position} {line column : Nat} :
    p.follows line column = true ↔ line < p.line ∨ p.line = line ∧ column < p.column := by
  simp [follows]

/-- A character leads to a later line, or to a later column of the same line. -/
theorem line_column_next (p : Position) (c : Char) :
    p.line < (p.next c).line ∨ (p.next c).line = p.line ∧ p.column < (p.next c).column := by
  unfold next
  split
  · exact .inl (Nat.lt_succ_self _)
  · refine .inr ⟨rfl, Nat.lt_add_of_pos_right ?_⟩
    unfold units16
    split <;> decide

/-- What a place comes after, a later place comes after too. -/
theorem follows_of_le {p q : Position} (h : p ≤ q) {line column : Nat}
    (hp : p.follows line column = true) : q.follows line column = true := by
  obtain ⟨cs, rfl⟩ := h
  induction cs generalizing p with
  | nil => exact hp
  | cons c cs ih =>
    refine ih ?_
    have hnext := line_column_next p c
    rw [follows_iff] at hp ⊢
    omega

theorem precedes_iff {p : Position} {line column : Nat} :
    p.precedes line column = true ↔ p.line < line ∨ p.line = line ∧ p.column < column := by
  simp [precedes]

/-- What a place comes before, an earlier place comes before too. -/
theorem precedes_of_le {p q : Position} (h : p ≤ q) {line column : Nat}
    (hq : q.precedes line column = true) : p.precedes line column = true := by
  obtain ⟨cs, rfl⟩ := h
  induction cs generalizing p with
  | nil => exact hq
  | cons c cs ih =>
    have hlater := ih hq
    have hnext := line_column_next p c
    rw [precedes_iff] at hlater ⊢
    omega

/-- A later place comes after this one by line and column. -/
theorem follows_of_lt {p q : Position} (h : p < q) : q.follows p.line p.column = true := by
  obtain ⟨⟨cs, rfl⟩, hne⟩ := lt_iff_le_and_ne.mp h
  cases cs with
  | nil => exact absurd rfl hne
  | cons c cs =>
    exact follows_of_le (le_after (p.next c) cs) (follows_iff.mpr (line_column_next p c))

theorem line_column_of_lt {p q : Position} (h : p < q) : p.line < q.line ∨ p.line = q.line ∧ p.column < q.column :=
  (follows_iff.mp (follows_of_lt h)).imp id fun hline => ⟨hline.1.symm, hline.2⟩

theorem line_column_of_le {p q : Position} (h : p ≤ q) :
    p.line < q.line ∨ p.line = q.line ∧ p.column ≤ q.column := by
  rcases h.eq_or_lt with rfl | hlt
  · exact .inr ⟨rfl, Nat.le_refl _⟩
  · exact (line_column_of_lt hlt).imp id fun hline => ⟨hline.1, Nat.le_of_lt hline.2⟩

end Position

namespace Span

/-- The stretch that covers two stretches in order reaches from the first to the second. -/
theorem join_eq {a b : Span} (hstart : a.start ≤ b.start) (hstop : a.stop ≤ b.stop) :
    a.join b = ⟨a.start, b.stop⟩ := by
  unfold join
  congr 1
  · exact if_pos (Position.offset_le_of_le hstart)
  · split
    · next hle => exact Position.eq_of_le_of_offset_le hstop hle
    · rfl

theorem contains_iff {s : Span} {line column : Nat} :
    s.contains line column = true ↔
      s.start.follows line column = false ∧ s.stop.follows line column = true := by
  simp [contains]

/-- A stretch that covers another one contains every place of it. -/
theorem contains_of_le {s u : Span} (hstart : u.start ≤ s.start) (hstop : s.stop ≤ u.stop)
    {line column : Nat} (h : s.contains line column = true) : u.contains line column = true := by
  obtain ⟨hbefore, hafter⟩ := contains_iff.mp h
  refine contains_iff.mpr ⟨?_, Position.follows_of_le hstop hafter⟩
  by_contra hu
  rw [Position.follows_of_le hstart (by simpa using hu)] at hbefore
  cases hbefore

/-- No place is in two stretches of which one ends before the other starts. -/
theorem contains_eq_false_of_le {s u : Span} (hle : s.stop ≤ u.start) {line column : Nat}
    (h : s.contains line column = true) : u.contains line column = false := by
  by_contra hu
  have hu' := (contains_iff.mp (by simpa using hu)).1
  rw [Position.follows_of_le hle (contains_iff.mp h).2] at hu'
  cases hu'

/-- A stretch contains the place where it starts, unless it is empty. -/
theorem contains_start {s : Span} (h : s.start < s.stop) :
    s.contains s.start.line s.start.column = true :=
  contains_iff.mpr ⟨by simp [Position.follows], Position.follows_of_lt h⟩

end Span

/-- The lexemes stand in order between two places, and each covers some text. -/
def Lexeme.InOrder : Position → List Lexeme → Position → Prop
  | p, [], q => p ≤ q
  | p, l :: ls, q => p ≤ l.span.start ∧ l.span.start < l.span.stop ∧ InOrder l.span.stop ls q

namespace Lexeme.InOrder

variable {p p' q : Position} {l : Lexeme} {ls rest : List Lexeme}

theorem of_le (hp : p' ≤ p) (h : InOrder p ls q) : InOrder p' ls q := by
  cases ls with
  | nil => exact hp.trans h
  | cons l ls => exact ⟨hp.trans h.1, h.2⟩

/-- A lexeme further on lies after the first place, and those after it follow in order. -/
theorem split (h : InOrder p (ls ++ l :: rest) q) :
    p ≤ l.span.start ∧ l.span.start < l.span.stop ∧ InOrder l.span.stop rest q := by
  induction ls generalizing p with
  | nil => exact h
  | cons first ls ih =>
    obtain ⟨hle, hlt, hrest⟩ := h
    obtain ⟨hle', hafter⟩ := ih hrest
    exact ⟨(hle.trans hlt.le).trans hle', hafter⟩

/-- Every lexeme covers some text after the first place, and each ends before the later ones. -/
theorem pairwise (h : InOrder p ls q) :
    (∀ l ∈ ls, p ≤ l.span.start ∧ l.span.start < l.span.stop) ∧
      ls.Pairwise fun a b => a.span.stop ≤ b.span.start := by
  induction ls generalizing p with
  | nil => exact ⟨List.forall_mem_nil _, .nil⟩
  | cons l ls ih =>
    obtain ⟨hle, hlt, hrest⟩ := h
    obtain ⟨hafter, hpairs⟩ := ih hrest
    refine ⟨List.forall_mem_cons.mpr ⟨⟨hle, hlt⟩, fun m hm => ?_⟩, .cons ?_ hpairs⟩
    · exact ⟨(hle.trans hlt.le).trans (hafter m hm).1, (hafter m hm).2⟩
    · exact fun m hm => (hafter m hm).1

end Lexeme.InOrder

namespace Lexer

/-- The lexemes of a text stand in order, up to its end. -/
theorem inOrder_scan (p : Position) (cs : List Char) :
    Lexeme.InOrder p (scan p cs).lexemes (p.after cs) := by
  fun_induction scan p cs with
  | case1 p => exact le_refl p
  | case2 p c cs head taken stop rest ih =>
    have hend : stop.after (cs.drop head.more) = p.after (c :: cs) := by
      rw [← Position.after_append, List.cons_append, List.take_append_drop]
    rw [hend] at ih
    cases htoken : head.token with
    | none => exact ih.of_le (Position.le_after p taken)
    | some token => exact ⟨le_refl p, Position.lt_after_cons p c _, ih⟩

end Lexer

end MesonLens
