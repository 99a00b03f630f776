import MesonLens.Proofs.Token.Order

/-!
# `MesonLens.Proofs.Token.Coverage`: the lexemes cover the text

The lexer counts bytes, lines and columns on while it reads, and `Position.ofOffset` counts them
from the start of the text. The two agree at every place that the lexer tells of, because each of
them is reached from the start by some characters of the text (`Position.Within`).

* `Position.ofOffset_after`: such a place can be found again by its offset alone;
* `Lexer.within_piece`: the errors of a piece are put at places of the text that the piece stands
  at the head of, also those inside escapes;
* `Lexeme.Cover`: a text is a gap, the text of a lexeme, a gap, and so on up to a last gap, where
  the gaps are blanks and comments (`Lexer.Skipped`). `Lexer.cover_scan` goes piece by piece;
* `Lexed.ofText_covers` puts these together for every text.
-/

set_option autoImplicit false

namespace MesonLens

theorem utf8ByteSize_ofList (cs : List Char) :
    (String.ofList cs).utf8ByteSize = byteLength cs := by
  induction cs with
  | nil => rfl
  | cons c cs ih =>
    rw [String.ofList_cons, String.utf8ByteSize_append, String.utf8ByteSize_singleton, ih,
      byteLength]

theorem utf8ByteSize_eq (text : String) : text.utf8ByteSize = byteLength text.toList := by
  rw [← utf8ByteSize_ofList, String.ofList_toList]

/-- A character takes no more UTF-16 units than bytes. -/
theorem units16_le_utf8Size (c : Char) : units16 c ≤ c.utf8Size := by
  have hpos := c.utf8Size_pos
  unfold units16
  split
  · exact hpos
  · next hlarge =>
    have hone : c.utf8Size ≠ 1 := by
      intro h
      rw [Char.utf8Size_eq_one_iff, UInt32.le_iff_toNat_le] at h
      rw [UInt32.lt_iff_toNat_lt] at hlarge
      simp only [UInt32.reduceToNat] at h hlarge
      omega
    omega

/-! ### Places of a text -/

namespace Position

/-- Characters at the head of the text `cs`, which starts at `p`, lead to `q`. -/
def Within (p : Position) (cs : List Char) (q : Position) : Prop :=
  ∃ before, before <+: cs ∧ p.after before = q

variable {p q : Position} {cs ds : List Char}

theorem within_start (p : Position) (cs : List Char) : p.Within cs p := ⟨[], List.nil_prefix, rfl⟩

theorem within_take (p : Position) (n : Nat) (cs : List Char) : p.Within cs (p.after (cs.take n)) :=
  ⟨cs.take n, List.take_prefix n cs, rfl⟩

/-- A place of what follows is a place of the whole. -/
theorem Within.append_left (h : (p.after cs).Within ds q) : p.Within (cs ++ ds) q := by
  obtain ⟨before, hbefore, rfl⟩ := h
  exact ⟨cs ++ before, (List.prefix_append_right_inj cs).mpr hbefore, after_append p cs before⟩

theorem Within.cons {c : Char} (h : (p.next c).Within cs q) : p.Within (c :: cs) q := by
  obtain ⟨before, hbefore, rfl⟩ := h
  exact ⟨c :: before, List.cons_prefix_cons.mpr ⟨rfl, hbefore⟩, rfl⟩

/-- The place after some characters is found from the number of their bytes. -/
theorem seek_after (p : Position) (before after : List Char) :
    seek (p.after before).offset p (before ++ after) = p.after before := by
  induction before generalizing p with
  | nil =>
    cases after with
    | nil => rfl
    | cons c after => exact if_pos (Nat.le_refl _)
  | cons c before ih =>
    have hlt : ¬ (p.after (c :: before)).offset ≤ p.offset := by
      have hpos := c.utf8Size_pos
      rw [offset_after, byteLength]
      omega
    rw [List.cons_append, seek, if_neg hlt]
    exact ih (p.next c)

theorem offset_lt_of_lt (h : p < q) : p.offset < q.offset :=
  Nat.lt_of_not_le fun hle => h.ne (eq_of_le_of_offset_le h.le hle)

theorem ofOffset_after {text : String} (h : Within {} text.toList q) :
    String.Pos.Raw.IsValid text ⟨q.offset⟩ ∧ ofOffset text q.offset = q := by
  obtain ⟨before, ⟨after, htext⟩, rfl⟩ := h
  have hoffset : (Position.after {} before).offset = byteLength before := by
    rw [offset_after, Nat.zero_add]
  have hsplit : text = String.ofList before ++ String.ofList after := by
    rw [← String.ofList_append, htext, String.ofList_toList]
  constructor
  · rw [String.Pos.Raw.isValid_iff_exists_append, hoffset]
    refine ⟨String.ofList before, String.ofList after, hsplit, ?_⟩
    rw [String.rawEndPos, utf8ByteSize_ofList]
  · have hsize : (Position.after {} before).offset ≤ text.utf8ByteSize := by
      rw [hoffset, hsplit, String.utf8ByteSize_append, utf8ByteSize_ofList]
      exact Nat.le_add_right _ _
    rw [ofOffset, ← htext, seek_after, Nat.min_eq_left hsize]

/-- Lines and columns are never more than the bytes before them. -/
theorem line_column_le_offset (before : List Char) {p : Position}
    (h : p.line ≤ p.offset ∧ p.column ≤ p.offset) :
    (p.after before).line ≤ (p.after before).offset ∧
      (p.after before).column ≤ (p.after before).offset := by
  induction before generalizing p with
  | nil => exact h
  | cons c before ih =>
    refine ih ?_
    have hpos := c.utf8Size_pos
    have hunits := units16_le_utf8Size c
    unfold next
    split
    · exact ⟨by dsimp only; omega, Nat.zero_le _⟩
    · exact ⟨by dsimp only; omega, by dsimp only; omega⟩

end Position

/-- Both ends of the stretch are places of the text `cs`, which starts at `p`. -/
def Span.Within (s : Span) (p : Position) (cs : List Char) : Prop :=
  p.Within cs s.start ∧ p.Within cs s.stop

theorem Span.Within.append_left {s : Span} {p : Position} {cs ds : List Char}
    (h : s.Within (p.after cs) ds) : s.Within p (cs ++ ds) :=
  ⟨h.1.append_left, h.2.append_left⟩

/-! ### The errors of a piece -/

namespace Lexer

variable {p : Position} {c : Char} {cs : List Char} {e : SyntaxError}

/-- An escape that is not valid lies inside its string. -/
theorem within_single (p : Position) (cs : List Char) :
    ∀ e ∈ (Literal.single p cs).errors, e.span.Within p cs := by
  fun_induction Literal.single p cs with
  | case1 p => exact List.forall_mem_nil _
  | case2 p cs => exact List.forall_mem_nil _
  | case3 p cs => exact List.forall_mem_nil _
  | case4 p cs escape _ _ start stop more ih =>
    intro e he
    -- What is wrong further on lies in the text behind the escape.
    have hmore : ∀ e ∈ more.errors, e.span.Within start cs := by
      intro e he
      have hrest := Span.Within.append_left (ih e he)
      rwa [List.take_append_drop] at hrest
    have hinside : e.span.Within start cs := by
      split at he
      · exact hmore e he
      · rcases List.mem_cons.mp he with rfl | he
        · exact ⟨Position.within_start start cs, Position.within_take start escape.taken cs⟩
        · exact hmore e he
    exact ⟨hinside.1.cons, hinside.2.cons⟩
  | case5 p c cs _ _ _ more ih =>
    exact fun e he => ⟨(ih e he).1.cons, (ih e he).2.cons⟩

/-- A string starts at `p`; `lead` is the text up to its opening quote. -/
theorem within_stringPiece (format : Bool) (n : Nat) (lead : List Char) :
    ∀ e ∈ (stringPiece p (p.after lead) format n cs).errors, e.span.Within p (lead ++ cs) := by
  have hopen : ∀ taken, Span.Within ⟨p, (p.after lead).after (cs.take taken)⟩ p (lead ++ cs) :=
    fun taken => ⟨Position.within_start _ _, (Position.within_take _ taken cs).append_left⟩
  unfold stringPiece
  split
  · intro e he
    dsimp only at he
    split at he
    · cases he
    · rw [List.mem_singleton.mp he]
      exact hopen _
  · intro e he
    rcases List.mem_append.mp he with he | he
    · exact Span.Within.append_left (within_single _ _ e he)
    · split at he
      · cases he
      · rw [List.mem_singleton.mp he]
        exact hopen _

theorem within_numberPiece : ∀ e ∈ (numberPiece p c cs).errors, e.span.Within p (c :: cs) := by
  unfold numberPiece
  intro e he
  dsimp only at he
  split at he
  · cases he
  · rw [List.mem_singleton.mp he]
    exact ⟨Position.within_start _ _, Position.within_take p _ (c :: cs)⟩

/-- A character that makes no token is told as it is. -/
theorem eq_of_operator1_eq_unknown {c d : Char} (h : operator1 c = .unknown d) : d = c := by
  unfold operator1 at h
  split at h
  case h_19 => exact (Token.unknown.inj h).symm
  all_goals cases h

theorem within_operatorPiece : ∀ e ∈ (operatorPiece p c cs).errors, e.span.Within p (c :: cs) := by
  unfold operatorPiece
  intro e he
  split at he
  · cases he
  · split at he
    · next d htoken =>
      rw [List.mem_singleton.mp he, eq_of_operator1_eq_unknown htoken]
      exact ⟨Position.within_start _ _, Position.within_take p 1 (c :: cs)⟩
    · cases he

/-- The errors of a piece are at places of the text that it stands at the head of. -/
theorem within_piece : ∀ e ∈ (piece p c cs).errors, e.span.Within p (c :: cs) := by
  unfold piece
  split
  · exact List.forall_mem_nil _
  split
  · exact List.forall_mem_nil _
  split
  · exact List.forall_mem_nil _
  split
  · exact within_stringPiece false 0 [c]
  split
  · next h =>
    obtain ⟨tail, rfl⟩ := List.head?_eq_some_iff.mp h.2
    exact within_stringPiece true 1 [c, '\'']
  split
  · exact within_numberPiece
  split
  · exact List.forall_mem_nil _
  · exact within_operatorPiece

theorem within_scan (p : Position) (cs : List Char) :
    ∀ e ∈ (scan p cs).errors, e.span.Within p cs := by
  fun_induction scan p cs with
  | case1 p => exact List.forall_mem_nil _
  | case2 p c cs head taken stop rest ih =>
    intro e he
    rcases List.mem_append.mp he with he | he
    · exact within_piece e he
    · have hrest := Span.Within.append_left (ih e he)
      rwa [List.cons_append, List.take_append_drop] at hrest

/-! ### Gaps -/

/-- Text without a token, when `rest` follows it: blanks and comments. A comment goes on to the end
of its line, and the line feed is not part of it. -/
inductive Skipped : List Char → List Char → Prop
  | done (rest : List Char) : Skipped [] rest
  | blank {c : Char} {cs rest : List Char} (blank : c = ' ' ∨ c = '\t' ∨ c = '\r')
      (more : Skipped cs rest) : Skipped (c :: cs) rest
  | comment {cs ds rest : List Char} (line : '\n' ∉ cs)
      (stops : ∀ c ∈ (ds ++ rest).head?, c = '\n') (more : Skipped ds rest) :
      Skipped ('#' :: (cs ++ ds)) rest

theorem stringPiece_token_ne (q : Position) (format : Bool) (n : Nat) :
    (stringPiece p q format n cs).token ≠ none := by
  unfold stringPiece
  split <;> exact Option.some_ne_none _

theorem numberPiece_token_ne : (numberPiece p c cs).token ≠ none := by
  unfold numberPiece
  dsimp only
  split <;> exact Option.some_ne_none _

theorem operatorPiece_token_ne : (operatorPiece p c cs).token ≠ none := by
  unfold operatorPiece
  split
  · exact Option.some_ne_none _
  · split <;> exact Option.some_ne_none _

/-- A piece without a token is a blank, or a comment up to the end of its line. -/
theorem piece_of_token_eq_none (h : (piece p c cs).token = none) :
    (c = ' ' ∨ c = '\t' ∨ c = '\r') ∧ (piece p c cs).more = 0 ∨
      c = '#' ∧ (piece p c cs).more = (cs.takeWhile (· ≠ '\n')).length := by
  unfold piece at h ⊢
  split at h
  · cases h
  split at h
  · next hblank =>
    simp [*]
  split at h
  · simp [*]
  split at h
  · exact absurd h (stringPiece_token_ne _ _ _)
  split at h
  · exact absurd h (stringPiece_token_ne _ _ _)
  split at h
  · exact absurd h numberPiece_token_ne
  split at h
  · cases h
  · exact absurd h operatorPiece_token_ne

end Lexer

/-- The text `cs`, which starts at `p`, is made of the texts of the lexemes with gaps before,
between and after them. -/
def Lexeme.Cover : Position → List Char → List Lexeme → Prop
  | _, cs, [] => Lexer.Skipped cs []
  | p, cs, l :: ls =>
    ∃ gap word rest, cs = gap ++ (word ++ rest) ∧ Lexer.Skipped gap (word ++ rest) ∧
      l.span = ⟨p.after gap, p.after (gap ++ word)⟩ ∧ Lexeme.Cover l.span.stop rest ls

/-- Lexemes that stand in order do so by their offsets. -/
theorem Lexeme.InOrder.offsets {p q : Position} {ls : List Lexeme} (h : InOrder p ls q) :
    (∀ l ∈ ls, p.offset ≤ l.span.start.offset ∧ l.span.start.offset < l.span.stop.offset) ∧
      ls.Pairwise fun a b => a.span.stop.offset ≤ b.span.start.offset := by
  obtain ⟨hplaces, hpairs⟩ := h.pairwise
  refine ⟨fun l hl => ?_, hpairs.imp Position.offset_le_of_le⟩
  exact ⟨Position.offset_le_of_le (hplaces l hl).1, Position.offset_lt_of_lt (hplaces l hl).2⟩

/-- The stretches before, between and after lexemes that stand between two places. -/
def Lexeme.gaps (p q : Position) : List Lexeme → List Span
  | [] => [⟨p, q⟩]
  | l :: ls => ⟨p, l.span.start⟩ :: gaps l.span.stop q ls

namespace Lexeme.Cover

open Lexer (Skipped)

variable {p : Position} {cs ds taken : List Char} {ls : List Lexeme}

/-- A blank or a comment before a text makes its first gap longer. -/
theorem skip (h : Cover (p.after taken) ds ls)
    (htaken : ∀ gap rest, ds = gap ++ rest → Skipped gap rest → Skipped (taken ++ gap) rest) :
    Cover p (taken ++ ds) ls := by
  cases ls with
  | nil => exact htaken ds [] (List.append_nil ds).symm h
  | cons l ls =>
    obtain ⟨gap, word, rest, rfl, hgap, hspan, hrest⟩ := h
    refine ⟨taken ++ gap, word, rest, ?_, htaken _ _ rfl hgap, ?_, hrest⟩
    · rw [List.append_assoc]
    · simp only [hspan, List.append_assoc, Position.after_append]

/-- The lexemes are at places of the text. -/
theorem within (h : Cover p cs ls) : ∀ l ∈ ls, l.span.Within p cs := by
  induction ls generalizing p cs with
  | nil => exact List.forall_mem_nil _
  | cons l ls ih =>
    obtain ⟨gap, word, rest, rfl, -, hspan, hrest⟩ := h
    refine List.forall_mem_cons.mpr ⟨?_, fun m hm => ?_⟩
    · rw [hspan, ← List.append_assoc]
      refine ⟨⟨gap, ?_, rfl⟩, ⟨gap ++ word, List.prefix_append _ _, rfl⟩⟩
      rw [List.append_assoc]
      exact List.prefix_append _ _
    · rw [hspan] at hrest
      rw [← List.append_assoc]
      exact (ih hrest m hm).append_left

/-- What lies between the lexemes is skipped. -/
theorem skipped (h : Cover p cs ls) :
    ∀ s ∈ gaps p (p.after cs) ls, ∃ before gap after, cs = before ++ (gap ++ after) ∧
      s = ⟨p.after before, p.after (before ++ gap)⟩ ∧ Skipped gap after := by
  induction ls generalizing p cs with
  | nil =>
    refine List.forall_mem_singleton.mpr ⟨[], cs, [], ?_, rfl, h⟩
    rw [List.append_nil, List.nil_append]
  | cons l ls ih =>
    obtain ⟨gap, word, rest, rfl, hgap, hspan, hrest⟩ := h
    refine List.forall_mem_cons.mpr ⟨⟨[], gap, word ++ rest, rfl, ?_, hgap⟩, fun s hs => ?_⟩
    · rw [hspan]
      rfl
    · have hstop : l.span.stop = p.after (gap ++ word) := by rw [hspan]
      rw [hstop] at hrest hs
      rw [← List.append_assoc, Position.after_append p (gap ++ word) rest] at hs
      obtain ⟨before, gap', after, rfl, rfl, hgap'⟩ := ih hrest s hs
      refine ⟨gap ++ word ++ before, gap', after, ?_, ?_, hgap'⟩
      · simp only [List.append_assoc]
      · simp only [List.append_assoc, Position.after_append]

end Lexeme.Cover

namespace Lexer

/-- The lexemes of a text cover it, piece by piece. -/
theorem cover_scan (p : Position) (cs : List Char) : Lexeme.Cover p cs (scan p cs).lexemes := by
  fun_induction scan p cs with
  | case1 p => exact .done []
  | case2 p c cs head taken stop rest ih =>
    have hsplit : taken ++ cs.drop head.more = c :: cs := by
      rw [List.cons_append, List.take_append_drop]
    cases htoken : head.token with
    | some token =>
      refine ⟨[], taken, cs.drop head.more, hsplit.symm, .done _, rfl, ih⟩
    | none =>
      rw [← hsplit]
      refine ih.skip fun gap more hgap hskipped => ?_
      -- A piece without a token belongs to the gap before the next lexeme.
      rcases piece_of_token_eq_none htoken with ⟨hblank, hmore⟩ | ⟨rfl, hmore⟩
      · have htaken : taken = [c] := congrArg (c :: cs.take ·) hmore
        rw [htaken]
        exact .blank hblank hskipped
      · have hline : cs.take head.more = cs.takeWhile (· ≠ '\n') := by
          rw [hmore]
          exact (List.prefix_iff_eq_take.mp (List.takeWhile_prefix _)).symm
        have hrest : cs.dropWhile (· ≠ '\n') = gap ++ more := by
          rw [← hgap, hmore]
          have hdrop := @List.drop_left _ (cs.takeWhile (· ≠ '\n')) (cs.dropWhile (· ≠ '\n'))
          rwa [List.takeWhile_append_dropWhile, eq_comm] at hdrop
        show Skipped ('#' :: (cs.take head.more ++ gap)) more
        rw [hline]
        refine .comment (fun hmem => ?_) (fun d hd => ?_) hskipped
        · simpa using List.all_eq_true.mp List.all_takeWhile _ hmem
        · rw [← hrest] at hd
          have hnot := List.head?_dropWhile_not (· ≠ '\n') cs
          rw [hd] at hnot
          simpa using hnot

end Lexer

/-- The lexemes of a text and their places, for every text. A lexeme is a token with its stretch.

* Every lexeme covers some text, and none starts before the one before it has ended.
* Where a lexeme or an error starts or stops there is a character boundary, and its line, column and
  offset are those that the offset has in the text. Lines and columns are bounded by the offset, so
  they all fit in 32 bits when the text is shorter than 2^32 bytes.
* The text before, between and after the lexemes is blanks and comments. -/
theorem Lexed.ofText_covers (text : String) :
    let lexed := Lexed.ofText text
    (lexed.lexemes.map Lexeme.span).length = (lexed.lexemes.map Lexeme.token).length ∧
    (∀ l ∈ lexed.lexemes, l.span.start.offset < l.span.stop.offset) ∧
    (lexed.lexemes.Pairwise fun a b => a.span.stop.offset ≤ b.span.start.offset) ∧
    (∀ s ∈ lexed.lexemes.map Lexeme.span ++ lexed.errors.map SyntaxError.span,
      ∀ p ∈ [s.start, s.stop], String.Pos.Raw.IsValid text ⟨p.offset⟩ ∧
        Position.ofOffset text p.offset = p ∧ p.line ≤ p.offset ∧ p.column ≤ p.offset) ∧
    ∀ s ∈ Lexeme.gaps {} (Position.after {} text.toList) lexed.lexemes,
      ∃ before gap after, text.toList = before ++ (gap ++ after) ∧
        byteLength before = s.start.offset ∧ byteLength (before ++ gap) = s.stop.offset ∧
        Lexer.Skipped gap after := by
  intro lexed
  have hcover := Lexer.cover_scan {} text.toList
  obtain ⟨hoffsets, hpairs⟩ := (Lexer.inOrder_scan {} text.toList).offsets
  refine ⟨by simp, fun l hl => (hoffsets l hl).2, hpairs, fun s hs => ?_, fun s hs => ?_⟩
  · have hwithin : s.Within {} text.toList := by
      rcases List.mem_append.mp hs with hs | hs
      · obtain ⟨l, hl, rfl⟩ := List.mem_map.mp hs
        exact hcover.within l hl
      · obtain ⟨e, he, rfl⟩ := List.mem_map.mp hs
        exact Lexer.within_scan {} text.toList e he
    have hplace : ∀ p, Position.Within {} text.toList p → String.Pos.Raw.IsValid text ⟨p.offset⟩ ∧
        Position.ofOffset text p.offset = p ∧ p.line ≤ p.offset ∧ p.column ≤ p.offset := by
      intro p hp
      obtain ⟨hvalid, hfound⟩ := Position.ofOffset_after hp
      obtain ⟨before, -, rfl⟩ := hp
      exact ⟨hvalid, hfound, Position.line_column_le_offset before ⟨Nat.le_refl _, Nat.le_refl _⟩⟩
    simpa using ⟨hplace s.start hwithin.1, hplace s.stop hwithin.2⟩
  · obtain ⟨before, gap, after, htext, rfl, hgap⟩ := hcover.skipped s hs
    refine ⟨before, gap, after, htext, ?_, ?_, hgap⟩
    · rw [Position.offset_after, Nat.zero_add]
    · rw [Position.offset_after, Nat.zero_add]

end MesonLens
