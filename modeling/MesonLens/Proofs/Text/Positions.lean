import MesonLens.Proofs.Text.Offsets

/-!
# `MesonLens.Proofs.Text.Positions`: offsets and positions lead back to each other

`Position.ofOffset` goes over the characters from the start of the text and counts, and
`Position.toOffset` looks for the start of a line and goes on from there. The first is asked for
bytes and the second for UTF-16 units, and the second stops where its line ends, at a carriage
return as well as at a line feed.

A text is cut at the start of the line (`Position.exists_line`), and the line at the place where
the columns are used up or the line ends (`Position.columnOffset_spec`). The characters before the
two cuts are those before the offset that is found, so the offset is a character boundary.

* `Position.toOffset_spec`: what stands before the offset that a line and a column lead to;
* `Position.offsets_convert`: from an offset to its position and back, for every offset with no
  carriage return before it on its line, and where any line and column lead.
-/

set_option autoImplicit false

namespace MesonLens

namespace Position

/-! ### Lines -/

theorem lastLine_of_wholeLines {lines : List Char} (h : WholeLines lines) : lastLine lines = [] := by
  rw [lastLine, List.reverse_eq_nil_iff]
  cases hrev : lines.reverse with
  | nil => rfl
  | cons c cs =>
    -- The last character is a line feed, and so nothing stands after it.
    have hc : c ∈ lines.getLast? := by simp [← List.head?_reverse, hrev]
    simp [h c hc]

/-- A line starts after as many line feeds as its number tells. -/
theorem exists_line {line : Nat} {cs : List Char} (h : line ≤ cs.count '\n') :
    ∃ lines rest, cs = lines ++ rest ∧ WholeLines lines ∧ lines.count '\n' = line := by
  induction cs generalizing line with
  | nil =>
    have hzero : line = 0 := by simpa using h
    exact ⟨[], [], rfl, nofun, hzero.symm⟩
  | cons c cs ih =>
    cases line with
    | zero => exact ⟨[], c :: cs, rfl, nofun, rfl⟩
    | succ n =>
      -- The first character is passed, and with it a line if it is a line feed.
      have hmore : (if c = '\n' then n else n + 1) ≤ cs.count '\n' := by
        by_cases hc : c = '\n'
        · simpa [hc] using h
        · simpa [hc] using h
      obtain ⟨lines, rest, rfl, hlines, hcount⟩ := ih hmore
      refine ⟨c :: lines, rest, rfl, ?_, ?_⟩
      · intro d hd
        cases lines with
        | nil =>
          have hc : c = '\n' := by
            by_contra hc
            simp [hc] at hcount
          have hdc : c = d := by simpa using hd
          rw [← hdc, hc]
        | cons e lines => exact hlines d (by rwa [List.getLast?_cons_cons] at hd)
      · by_cases hc : c = '\n'
        · simpa [hc] using hcount
        · simpa [hc] using hcount

theorem lineStart_eq_none {line offset : Nat} {cs : List Char} (h : cs.count '\n' < line) :
    lineStart line offset cs = none := by
  induction cs generalizing line offset with
  | nil => rw [lineStart]
  | cons c cs ih =>
    cases line with
    | zero => exact absurd h (Nat.not_lt_zero _)
    | succ n =>
      rw [lineStart_succ]
      refine ih ?_
      by_cases hc : c = '\n'
      · simpa [hc] using h
      · simpa [hc] using h

/-! ### Columns -/

/-- On a line the columns lead over the shortest stretch that has as many units, and at most up to
the first carriage return or line feed. -/
theorem columnOffset_spec (offset column : Nat) (cs : List Char) :
    ∃ inside rest, cs = inside ++ rest ∧
      columnOffset offset column cs = offset + byteLength inside ∧
      '\n' ∉ inside ∧ '\r' ∉ inside ∧
      (column ≤ unitLength inside ∨ ∀ c ∈ rest.head?, c = '\n' ∨ c = '\r') ∧
      ∀ front c, inside = front ++ [c] → unitLength front < column := by
  induction cs generalizing offset column with
  | nil => exact ⟨[], [], rfl, rfl, List.not_mem_nil, List.not_mem_nil, .inr nofun, by simp⟩
  | cons c cs ih =>
    by_cases hstop : column = 0 ∨ c = '\n' ∨ c = '\r'
    · refine ⟨[], c :: cs, rfl, ?_, List.not_mem_nil, List.not_mem_nil, ?_, by simp⟩
      · rw [columnOffset, if_pos hstop]
        rfl
      · rcases hstop with hcolumn | hend
        · exact .inl (hcolumn ▸ Nat.zero_le _)
        · exact .inr (by simpa using hend)
    · obtain ⟨inside, rest, rfl, hoffset, hfeed, hreturn, hreach, hshort⟩ :=
        ih (offset + c.utf8Size) (column - units16 c)
      push Not at hstop
      obtain ⟨hcolumn, hcfeed, hcreturn⟩ := hstop
      -- The character is passed and takes its units from the column.
      refine ⟨c :: inside, rest, rfl, ?_, ?_, ?_, ?_, ?_⟩
      · rw [columnOffset, if_neg (by simp [hcolumn, hcfeed, hcreturn]), hoffset, byteLength,
          Nat.add_assoc]
      · simp [hcfeed.symm, hfeed]
      · simp [hcreturn.symm, hreturn]
      · rw [unitLength]
        exact hreach.imp (by omega) id
      · intro front d hfront
        cases front with
        | nil => exact Nat.pos_of_ne_zero hcolumn
        | cons e front =>
          obtain ⟨rfl, hinside⟩ := List.cons.inj hfront
          have hless := hshort front d hinside
          rw [unitLength]
          omega

/-! ### Texts -/

/-- The place between `before` and `after` is where a line and a column lead, when there is such a
line. -/
structure Leads (line column : Nat) (before after : List Char) : Prop where
  on_line : before.count '\n' = line
  /-- The line has not ended before: `lastLine` stops at a line feed anyway. -/
  no_return : '\r' ∉ lastLine before
  reaches : column ≤ unitLength (lastLine before) ∨ ∀ c ∈ after.head?, c = '\n' ∨ c = '\r'
  shortest : ∀ front c, lastLine before = front ++ [c] → unitLength front < column

/-- The characters before a cut of a text are those before a character boundary. -/
theorem exists_pos {text : String} {before after : List Char}
    (h : text.toList = before ++ after) :
    ∃ p : text.Pos, p.offset.byteIdx = byteLength before ∧
      (text.sliceTo p).copy.toList = before ∧ (text.sliceFrom p).copy.toList = after := by
  have hsplit : text = String.ofList before ++ String.ofList after := by
    rw [← String.ofList_append, ← h, String.ofList_toList]
  have hend : (⟨byteLength before⟩ : String.Pos.Raw) = (String.ofList before).rawEndPos := by
    rw [String.rawEndPos, utf8ByteSize_ofList]
  let p : text.Pos := ⟨⟨byteLength before⟩,
    String.Pos.Raw.isValid_iff_exists_append.mpr ⟨_, _, hsplit, hend⟩⟩
  have hp : p.Splits (String.ofList before) (String.ofList after) := ⟨hsplit, hend⟩
  refine ⟨p, rfl, ?_, ?_⟩
  · rw [p.splits.eq_left hp, String.toList_ofList]
  · rw [p.splits.eq_right hp, String.toList_ofList]

/-- A text is cut where a line and a column lead. -/
theorem toOffset_spec (text : String) (line column : Nat) :
    ∃ before after, text.toList = before ++ after ∧
      toOffset text line column = byteLength before ∧
      (line ≤ text.toList.count '\n' → Leads line column before after) ∧
      (text.toList.count '\n' < line → after = []) := by
  rcases Nat.lt_or_ge (text.toList.count '\n') line with hline | hline
  · refine ⟨text.toList, [], (List.append_nil _).symm, ?_, ?_, fun _ => rfl⟩
    · rw [toOffset, lineStart_eq_none hline]
      exact utf8ByteSize_eq text
    · intro hle
      omega
  · obtain ⟨lines, rest, htext, hlines, hcount⟩ := exists_line hline
    obtain ⟨inside, after, hrest, hoffset, hfeed, hreturn, hreach, hshort⟩ :=
      columnOffset_spec (byteLength lines) column rest
    have hlast : lastLine (lines ++ inside) = inside := by
      rw [lastLine_append hfeed, lastLine_of_wholeLines hlines, List.nil_append]
    refine ⟨lines ++ inside, after, ?_, ?_, ?_, ?_⟩
    · rw [htext, hrest, List.append_assoc]
    · have hstart := lineStart_append hlines 0 rest
      rw [hcount, Nat.zero_add, ← htext] at hstart
      rw [toOffset, hstart, byteLength_append, ← hoffset]
      cases rest with
      | nil =>
        -- Nothing stands on the line, and so the text ends where it starts.
        rw [lineStart, columnOffset]
        show text.utf8ByteSize = _
        rw [utf8ByteSize_eq, htext, List.append_nil]
      | cons c rest =>
        rw [lineStart]
        exact List.cons_ne_nil c rest
    · intro _
      have hcount' : (lines ++ inside).count '\n' = line := by
        rw [List.count_append, hcount, List.count_eq_zero.mpr hfeed, Nat.add_zero]
      rw [← hlast] at hreturn hreach hshort
      exact ⟨hcount', hreturn, hreach, hshort⟩
    · intro hlt
      omega

/-- Offsets and positions of every text.

* An offset before which no carriage return stands on its line is found again from its line and
  column.
* Every line and column lead to a character boundary of the text. If there is such a line, the
  boundary is on it, and no carriage return or line feed of the line stands before it; it is the
  first one with that many units before it, or where the line ends if it ends too early. If there
  is no such line, the boundary is the end of the text. -/
theorem offsets_convert (text : String) :
    (∀ p : text.Pos, '\r' ∉ lastLine (text.sliceTo p).copy.toList →
      let place := ofOffset text p.offset.byteIdx
      toOffset text place.line place.column = p.offset.byteIdx) ∧
    ∀ line column, ∃ p : text.Pos, toOffset text line column = p.offset.byteIdx ∧
      let before := (text.sliceTo p).copy.toList
      let after := (text.sliceFrom p).copy.toList
      (line ≤ text.toList.count '\n' → Leads line column before after) ∧
      (text.toList.count '\n' < line → toOffset text line column = text.utf8ByteSize) := by
  constructor
  · intro p hreturn place
    obtain ⟨hline, hcolumn⟩ := Buffer.ofOffset_pos p
    have hafter := line_after {} (text.sliceTo p).copy.toList
    rw [Nat.zero_add] at hafter
    have hfound := toOffset_after (Buffer.toList_eq_append p) hreturn
    rw [hafter, ← hline, ← hcolumn] at hfound
    rw [hfound, ← utf8ByteSize_eq, p.splits.offset_eq_rawEndPos]
    rfl
  · intro line column
    obtain ⟨before, after, htext, hoffset, hon, hpast⟩ := toOffset_spec text line column
    obtain ⟨p, hp, hbefore, hafter⟩ := exists_pos htext
    refine ⟨p, by rw [hoffset, hp], ?_, ?_⟩
    · rw [hbefore, hafter]
      exact hon
    · intro hline
      rw [hoffset, utf8ByteSize_eq, htext, hpast hline, List.append_nil]

/-- A carriage return on the line before does no harm, and a column between the two units of a
character leads behind the character. -/
theorem offsets_convert_surrogates :
    let text := "\r\na😀"
    '\r' ∉ lastLine (text.sliceTo text.endPos).copy.toList ∧ toOffset text 1 3 = 7 ∧
      1 ≤ text.toList.count '\n' ∧ ∃ p : text.Pos, toOffset text 1 2 = p.offset.byteIdx ∧
        Leads 1 2 (text.sliceTo p).copy.toList (text.sliceFrom p).copy.toList := by
  intro text
  have hreturn : '\r' ∉ lastLine (text.sliceTo text.endPos).copy.toList := by decide
  have hline : 1 ≤ text.toList.count '\n' := by decide
  have hplace : ofOffset text 7 = ⟨1, 3, 7⟩ := by decide
  obtain ⟨hback, hleads⟩ := offsets_convert text
  have hend : toOffset text (ofOffset text 7).line (ofOffset text 7).column = 7 :=
    hback text.endPos hreturn
  rw [hplace] at hend
  obtain ⟨p, hp, hon, -⟩ := hleads 1 2
  exact ⟨hreturn, hend, hline, p, hp, hon hline⟩

end Position

end MesonLens
