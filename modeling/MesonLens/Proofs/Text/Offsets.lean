import MesonLens.Proofs.Text.Edits
import MesonLens.Editor.Edit

/-!
# `MesonLens.Proofs.Text.Offsets`: from lines and columns back to bytes

A place is counted on from the start of the text, and `Position.toOffset` finds its bytes again: it
looks for the line and then goes on by columns, up to the first carriage return of the line. So it
finds every place before which no carriage return stands on its line.

* `Position.toOffset_after`: such a place;
* `TextEdit.Cuts`: the one place where the lines and columns of an edit are;
* `TextEdit.applied?`, `TextEdit.Cuts.applied?_eq`: an edit between two such places replaces what
  stands between them.
-/

set_option autoImplicit false

namespace MesonLens

namespace Position

/-- The characters after the last line feed. -/
def lastLine (cs : List Char) : List Char :=
  (cs.reverse.takeWhile (· ≠ '\n')).reverse

/-- The characters end with a line feed, or there are none. -/
def WholeLines (cs : List Char) : Prop := ∀ c ∈ cs.getLast?, c = '\n'

/-- A text is its whole lines and the characters after its last line feed. -/
theorem exists_append_lastLine (cs : List Char) :
    ∃ lines, cs = lines ++ lastLine cs ∧ WholeLines lines ∧ '\n' ∉ lastLine cs := by
  refine ⟨(cs.reverse.dropWhile (· ≠ '\n')).reverse, ?_, fun c hc => ?_, fun hmem => ?_⟩
  · rw [lastLine, ← List.reverse_append, List.takeWhile_append_dropWhile, List.reverse_reverse]
  · rw [List.getLast?_reverse] at hc
    have hnot := List.head?_dropWhile_not (· ≠ '\n') cs.reverse
    rw [Option.mem_def.mp hc] at hnot
    simpa using hnot
  · rw [lastLine, List.mem_reverse] at hmem
    simpa using List.all_eq_true.mp List.all_takeWhile _ hmem

/-- Characters without a line feed go on with the last line. -/
theorem lastLine_append {cs ds : List Char} (h : '\n' ∉ ds) :
    lastLine (cs ++ ds) = lastLine cs ++ ds := by
  have hds : ∀ c ∈ ds.reverse, decide (c ≠ '\n') = true := by
    intro c hc
    have hne : c ≠ '\n' := by
      rintro rfl
      exact h (List.mem_reverse.mp hc)
    simpa using hne
  rw [lastLine, List.reverse_append, List.takeWhile_append_of_pos hds, List.reverse_append,
    List.reverse_reverse, lastLine]

/-- Where carriage returns stand before line feeds, none stands before a character that goes on with
a line. -/
theorem not_mem_lastLine {before rest : List Char} {c : Char}
    (hpaired : Buffer.Paired (before ++ c :: rest)) (hfeed : c ≠ '\n') (hreturn : c ≠ '\r') :
    '\r' ∉ lastLine before := by
  obtain ⟨lines, hbefore, -, hline⟩ := exists_append_lastLine before
  have hpaired' : Buffer.Paired (lastLine before ++ [c] ++ rest) := by
    rw [hbefore, List.append_assoc] at hpaired
    rw [List.append_assoc]
    exact hpaired.right
  have hlast : (lastLine before ++ [c]).getLast? ≠ some '\r' := by simpa using hreturn
  have hnot : '\n' ∉ lastLine before ++ [c] := by simpa [hline] using hfeed.symm
  exact fun hmem => Buffer.not_mem_of_paired hpaired' hlast hnot (List.mem_append_left _ hmem)

theorem WholeLines.tail {c : Char} {cs : List Char} (h : WholeLines (c :: cs)) :
    WholeLines cs := by
  cases cs with
  | nil => exact nofun
  | cons d cs => rwa [WholeLines, List.getLast?_cons_cons] at h

theorem WholeLines.feed_mem {c : Char} {cs : List Char} (h : WholeLines (c :: cs)) :
    '\n' ∈ c :: cs := by
  have hlast := List.getLast?_eq_some_getLast (List.cons_ne_nil c cs)
  rw [← h _ hlast]
  exact List.getLast_mem _

theorem lineStart_succ (n offset : Nat) (c : Char) (cs : List Char) :
    lineStart (n + 1) offset (c :: cs) =
      lineStart (if c = '\n' then n else n + 1) (offset + c.utf8Size) cs := by
  rw [lineStart]

/-- The line after whole lines starts where they end. -/
theorem lineStart_append {lines : List Char} (hlines : WholeLines lines) (offset : Nat)
    (rest : List Char) :
    lineStart (lines.count '\n') offset (lines ++ rest) =
      lineStart 0 (offset + byteLength lines) rest := by
  induction lines generalizing offset with
  | nil => rfl
  | cons d lines ih =>
    -- A line feed is still to come, so the search is not over at this character.
    have hcount := List.count_pos_iff.mpr hlines.feed_mem
    obtain ⟨n, hn⟩ : ∃ n, (d :: lines).count '\n' = n + 1 := ⟨_, (Nat.sub_add_cancel hcount).symm⟩
    have hlast : (if d = '\n' then n else n + 1) = lines.count '\n' := by
      rw [← hn, List.count_cons]
      split
      · next hd =>
        simp [hd] at hn
        omega
      · next hd => simp [hd]
    rw [hn, List.cons_append, lineStart_succ, hlast, ih hlines.tail, byteLength, Nat.add_assoc]

/-- The columns of a line lead over its characters. -/
theorem columnOffset_append {line : List Char} (hfeed : '\n' ∉ line) (hreturn : '\r' ∉ line)
    (offset : Nat) (rest : List Char) :
    columnOffset offset (unitLength line) (line ++ rest) = offset + byteLength line := by
  induction line generalizing offset with
  | nil =>
    cases rest with
    | nil => rfl
    | cons c rest => exact if_pos (.inl rfl)
  | cons c line ih =>
    obtain ⟨hcf, hfeed⟩ := not_or.mp (mt List.mem_cons.mpr hfeed)
    obtain ⟨hcr, hreturn⟩ := not_or.mp (mt List.mem_cons.mpr hreturn)
    have hpos := units16_pos c
    have hgo : ¬ (units16 c + unitLength line = 0 ∨ c = '\n' ∨ c = '\r') := by
      rintro (h | h | h)
      · omega
      · exact hcf h.symm
      · exact hcr h.symm
    rw [unitLength, List.cons_append, columnOffset, if_neg hgo, Nat.add_sub_cancel_left,
      ih hfeed hreturn, byteLength, Nat.add_assoc]

/-- A place is found by its line and column when no carriage return stands before it on its
line. -/
theorem toOffset_after {text : String} {before rest : List Char}
    (htext : text.toList = before ++ rest) (hreturn : '\r' ∉ lastLine before) :
    toOffset text (after {} before).line (after {} before).column = byteLength before := by
  obtain ⟨lines, hbefore, hlines, hfeed⟩ := exists_append_lastLine before
  generalize lastLine before = line at hbefore hfeed hreturn
  subst hbefore
  have hline : (after {} (lines ++ line)).line = lines.count '\n' := by
    rw [line_after, Nat.zero_add, List.count_append, List.count_eq_zero.mpr hfeed, Nat.add_zero]
  have hstart : (after {} lines).column = 0 := by
    rcases List.eq_nil_or_concat lines with rfl | ⟨front, c, rfl⟩
    · rfl
    · rw [List.concat_eq_append] at hlines ⊢
      obtain rfl := hlines c List.getLast?_concat
      rw [after_append]
      rfl
  have hcolumn : (after {} (lines ++ line)).column = unitLength line := by
    rw [after_append, column_after_of_not_mem _ hfeed, hstart, Nat.zero_add]
  have hsize : text.utf8ByteSize = byteLength (lines ++ line ++ rest) := by
    rw [utf8ByteSize_eq, htext]
  rw [toOffset, htext, hline, hcolumn, hsize, List.append_assoc, lineStart_append hlines,
    Nat.zero_add, byteLength_append lines line]
  -- At the end of the text no line is found, and the offset is the length of the text.
  cases hrest : line ++ rest with
  | nil =>
    obtain ⟨rfl, rfl⟩ := List.append_eq_nil_iff.mp hrest
    exact byteLength_append lines []
  | cons c rest' =>
    have hfound := columnOffset_append hfeed hreturn (byteLength lines) rest
    rwa [hrest] at hfound

end Position

namespace Text

theorem dropBytes?_append (cs ds : List Char) :
    dropBytes? (byteLength cs) (cs ++ ds) = some ds := by
  induction cs with
  | nil => rw [byteLength, List.nil_append, dropBytes?]
  | cons c cs ih =>
    obtain ⟨n, hn⟩ : ∃ n, c.utf8Size + byteLength cs = n + 1 :=
      ⟨_, (Nat.sub_add_cancel (Nat.le_add_right_of_le c.utf8Size_pos)).symm⟩
    rw [byteLength, hn, List.cons_append, dropBytes?, ← hn, if_pos (Nat.le_add_right _ _),
      Nat.add_sub_cancel_left, ih]

theorem takeBytes?_append (cs ds : List Char) :
    takeBytes? (byteLength cs) (cs ++ ds) = some cs := by
  induction cs with
  | nil => rw [byteLength, takeBytes?]
  | cons c cs ih =>
    obtain ⟨n, hn⟩ : ∃ n, c.utf8Size + byteLength cs = n + 1 :=
      ⟨_, (Nat.sub_add_cancel (Nat.le_add_right_of_le c.utf8Size_pos)).symm⟩
    rw [byteLength, hn, List.cons_append, takeBytes?, ← hn, if_pos (Nat.le_add_right _ _),
      Nat.add_sub_cancel_left, ih, Option.map_some]

/-- The characters between two others are cut out by the bytes before them. -/
theorem slice?_append {text : String} {before inside rest : List Char}
    (htext : text.toList = before ++ (inside ++ rest)) :
    slice? text (byteLength before) (byteLength (before ++ inside)) =
      some (String.ofList inside) := by
  have hguard : (guard (byteLength before ≤ byteLength before + byteLength inside) : Option Unit) =
      some () := if_pos (Nat.le_add_right _ _)
  rw [slice?, byteLength_append, hguard, htext, dropBytes?_append, Nat.add_sub_cancel_left]
  simp [takeBytes?_append]

end Text

/-- The lines and columns of an edit are those of `old`, which stands between `before` and `rest`. -/
structure TextEdit.Cuts (edit : TextEdit) (text : String) (before old rest : List Char) : Prop where
  text_eq : text.toList = before ++ (old ++ rest)
  start : edit.range.start = (Position.after {} before).place
  stop : edit.range.stop = (Position.after {} (before ++ old)).place

/-- A line and a column tell one place of a text. -/
theorem Position.eq_of_place_eq {cs before before' : List Char} (h : before <+: cs)
    (h' : before' <+: cs) (hplace : (after {} before).place = (after {} before').place) :
    before = before' := by
  have hshorter : ∀ front back : List Char, front <+: back →
      (after {} front).place = (after {} back).place → front = back := by
    rintro front _ ⟨more, rfl⟩ hplace
    cases more with
    | nil => exact (List.append_nil front).symm
    | cons c more =>
      -- A character would lead to another line or column.
      have hlater := line_column_of_lt (lt_after_cons (after {} front) c more)
      rw [← after_append] at hlater
      obtain ⟨hline, hcolumn⟩ := Place.mk.inj hplace
      omega
  rcases List.prefix_or_prefix_of_prefix h h' with hle | hle
  · exact hshorter _ _ hle hplace
  · exact (hshorter _ _ hle hplace.symm).symm

/-- There is one way to cut a text where an edit tells. -/
theorem TextEdit.Cuts.unique {edit : TextEdit} {text : String}
    {before old rest before' old' rest' : List Char} (h : edit.Cuts text before old rest)
    (h' : edit.Cuts text before' old' rest') : before = before' ∧ old = old' ∧ rest = rest' := by
  have hheads : ∀ {before old rest : List Char}, edit.Cuts text before old rest →
      before <+: text.toList ∧ before ++ old <+: text.toList := by
    intro before old rest h
    rw [h.text_eq]
    refine ⟨List.prefix_append _ _, ?_⟩
    rw [← List.append_assoc]
    exact List.prefix_append _ _
  have hbefore : before = before' :=
    Position.eq_of_place_eq (hheads h).1 (hheads h').1 (h.start.symm.trans h'.start)
  have hold : before ++ old = before' ++ old' :=
    Position.eq_of_place_eq (hheads h).2 (hheads h').2 (h.stop.symm.trans h'.stop)
  subst hbefore
  obtain rfl := List.append_cancel_left hold
  have htext := h.text_eq.symm.trans h'.text_eq
  exact ⟨rfl, rfl, List.append_cancel_left (List.append_cancel_left htext)⟩

/-- The text after an edit. -/
def TextEdit.applied? (edit : TextEdit) (text : String) : Option String := do
  let before ← Text.slice? text 0
    (Position.toOffset text edit.range.start.line edit.range.start.column)
  let after ← Text.slice? text
    (Position.toOffset text edit.range.stop.line edit.range.stop.column) text.utf8ByteSize
  pure (before ++ edit.text ++ after)

/-- An edit replaces the characters that it cuts out. -/
theorem TextEdit.Cuts.applied?_eq {edit : TextEdit} {text : String} {before old rest : List Char}
    (h : edit.Cuts text before old rest) (hbefore : '\r' ∉ Position.lastLine before)
    (hfeed : '\n' ∉ old) (hreturn : '\r' ∉ old) :
    edit.applied? text = some (String.ofList (before ++ (edit.text.toList ++ rest))) := by
  obtain ⟨htext, hstart, hstop⟩ := h
  have hold : '\r' ∉ Position.lastLine (before ++ old) := by
    rw [Position.lastLine_append hfeed, List.mem_append]
    exact not_or.mpr ⟨hbefore, hreturn⟩
  have htext' : text.toList = before ++ old ++ rest := by rw [htext, List.append_assoc]
  have hstart : Position.toOffset text edit.range.start.line edit.range.start.column =
      byteLength before := by
    rw [hstart]
    exact Position.toOffset_after htext hbefore
  have hstop : Position.toOffset text edit.range.stop.line edit.range.stop.column =
      byteLength (before ++ old) := by
    rw [hstop]
    exact Position.toOffset_after htext' hold
  have hsize : text.utf8ByteSize = byteLength (before ++ old ++ rest) := by
    rw [utf8ByteSize_eq, htext']
  -- The text is cut at two character boundaries, so both slices are there.
  have hleft : Text.slice? text 0 (byteLength before) = some (String.ofList before) := by
    have hempty : text.toList = [] ++ (before ++ (old ++ rest)) := htext
    exact Text.slice?_append hempty
  have hright : Text.slice? text (byteLength (before ++ old)) (byteLength (before ++ old ++ rest)) =
      some (String.ofList rest) := by
    have hempty : text.toList = before ++ old ++ (rest ++ []) := by rw [List.append_nil, htext']
    exact Text.slice?_append hempty
  rw [TextEdit.applied?, hstart, hstop, hsize, hleft, hright]
  simp [← String.toList_inj]

end MesonLens
