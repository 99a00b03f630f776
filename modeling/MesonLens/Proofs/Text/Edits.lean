import MesonLens.Proofs.Token.Coverage
import MesonLens.Text.Buffer

/-!
# `MesonLens.Proofs.Text.Edits`: where an edit lands

A place of a text has a line and a column. `Position.ofOffset` starts a new line after a line feed
and nowhere else; a buffer does so after each of the characters of `Buffer.endsLine`. An editor
that sends a change by line and column means the first count, and the buffer reads the second one.

* `Buffer.index_cons`, `Buffer.index_zero`: the buffer's count, character by character;
* `Buffer.index_lt_of_lt_count`: a line that is counted too early ends too early;
* `Buffer.index_after`: the buffer finds a place exactly when it divides no line before the place
  (`Buffer.Undivided`), and otherwise takes it for an earlier one;
* `Buffer.apply_eq_splice_iff`: so a change replaces the stretch that was meant, whatever is put
  there, exactly in these texts.
-/

set_option autoImplicit false

namespace MesonLens

theorem byteLength_append (cs ds : List Char) :
    byteLength (cs ++ ds) = byteLength cs + byteLength ds := by
  induction cs with
  | nil => simp [byteLength]
  | cons c cs ih => rw [List.cons_append, byteLength, byteLength, ih, Nat.add_assoc]

/-- The number of UTF-16 units the characters take. -/
def unitLength : List Char → Nat
  | [] => 0
  | c :: cs => units16 c + unitLength cs

theorem units16_pos (c : Char) : 0 < units16 c := by
  unfold units16
  split <;> decide

/-! ### Lines and columns -/

namespace Position

/-- Every line feed starts a line. -/
theorem line_after (p : Position) (cs : List Char) :
    (p.after cs).line = p.line + cs.count '\n' := by
  induction cs generalizing p with
  | nil => rfl
  | cons c cs ih =>
    change ((p.next c).after cs).line = _
    rw [ih, List.count_cons]
    by_cases hc : c = '\n'
    · simp [next, hc]
      omega
    · simp [next, hc]

theorem line_le_of_le {p q : Position} (h : p ≤ q) : p.line ≤ q.line := by
  obtain ⟨cs, rfl⟩ := h
  rw [line_after]
  exact Nat.le_add_right _ _

/-- Columns are counted on from where they were, up to the next line feed. -/
theorem column_after_congr {p q : Position} {cs : List Char}
    (h : p.column = q.column ∨ '\n' ∈ cs) : (p.after cs).column = (q.after cs).column := by
  induction cs generalizing p q with
  | nil => exact h.resolve_right List.not_mem_nil
  | cons c cs ih =>
    refine ih ?_
    by_cases hc : c = '\n'
    · simp [next, hc]
    · rcases h with h | h
      · simp [next, hc, h]
      · exact .inr ((List.mem_cons.mp h).resolve_left (Ne.symm hc))

/-- A line feed starts the columns anew. -/
theorem column_after_feed (p : Position) (cs : List Char) :
    (p.after ('\n' :: cs)).column = (after {} cs).column :=
  column_after_congr (p := p.next '\n') (.inl rfl)

/-- The columns of the characters after the last line feed add up. -/
theorem column_after_of_not_mem (p : Position) {cs : List Char} (h : '\n' ∉ cs) :
    (p.after cs).column = p.column + unitLength cs := by
  induction cs generalizing p with
  | nil => rfl
  | cons c cs ih =>
    have hc : c ≠ '\n' := fun heq => h (heq ▸ List.mem_cons_self)
    change ((p.next c).after cs).column = _
    rw [ih _ fun hmem => h (List.mem_cons_of_mem _ hmem)]
    simp only [next, hc, if_false, unitLength]
    omega

end Position

namespace Buffer

/-- The character ends a line of a buffer, and is neither a line feed nor a carriage return. -/
def breaksAlone (c : Char) : Bool := endsLine c && c ≠ '\n' && c ≠ '\r'

/-- Every carriage return stands right before a line feed. -/
def Paired : List Char → Prop
  | [] => True
  | c :: cs => (c = '\r' → cs.head? = some '\n') ∧ Paired cs

instance decidablePaired : (cs : List Char) → Decidable (Paired cs)
  | [] => isTrue trivial
  | _ :: cs => have := decidablePaired cs; inferInstanceAs (Decidable (_ ∧ _))

/-- The buffer divides no line of the text: before the last character, its lines end by line feeds
and carriage returns only. -/
def Undivided (cs : List Char) : Prop := ∀ c ∈ cs.dropLast, breaksAlone c = false

instance (cs : List Char) : Decidable (Undivided cs) :=
  List.decidableBAll (fun c => breaksAlone c = false) cs.dropLast

theorem Paired.right {before after : List Char} (h : Paired (before ++ after)) : Paired after := by
  induction before with
  | nil => exact h
  | cons c before ih => exact ih h.2

theorem undivided_cons {c d : Char} {cs : List Char} :
    Undivided (c :: d :: cs) ↔ breaksAlone c = false ∧ Undivided (d :: cs) := by
  simp [Undivided, List.dropLast_cons_of_ne_nil]

theorem undivided_cons_of_not {c : Char} {cs : List Char} (hc : breaksAlone c = false) :
    Undivided (c :: cs) ↔ Undivided cs := by
  cases cs with
  | nil => simp [Undivided]
  | cons d cs => simp [undivided_cons, hc]

theorem Undivided.mono {cs ds : List Char} (h : Undivided (cs ++ ds)) : Undivided cs := by
  intro c hc
  refine h c ?_
  cases ds with
  | nil => simpa using hc
  | cons d ds =>
    rw [List.dropLast_append_of_ne_nil (List.cons_ne_nil d ds)]
    exact List.mem_append_left _ (List.dropLast_subset _ hc)

/-! ### The count of a buffer -/

/-- What was passed before is added to what is passed. -/
theorem skipLines_add (k lines passed : Nat) (cs : List Char) :
    skipLines lines (k + passed) cs =
      (skipLines lines passed cs).map fun r => (k + r.1, r.2) := by
  fun_induction skipLines lines passed cs with
  | case1 passed cs => simp [skipLines]
  | case2 => rfl
  | case3 lines passed cs ih =>
    rw [skipLines, Nat.add_assoc, ih]
  | case4 lines passed c cs hpair ih =>
    rw [skipLines, Nat.add_assoc, ih]
    exact hpair

theorem index_zero (cs : List Char) (column : Nat) : index cs 0 column = columnIndex column cs := by
  simp [index, skipLines]

/-- A character before the line is passed. -/
theorem index_cons {c : Char} {cs : List Char} (hpair : c = '\r' → cs.head? ≠ some '\n')
    (line column : Nat) :
    index (c :: cs) (line + 1) column =
      1 + index cs (if endsLine c then line else line + 1) column := by
  have hskip : skipLines (line + 1) 0 (c :: cs) =
      (skipLines (if endsLine c then line else line + 1) 0 cs).map fun r => (1 + r.1, r.2) := by
    rw [skipLines, ← skipLines_add]
    rintro rest rfl rfl
    exact hpair rfl rfl
  rw [index, index, hskip]
  cases skipLines (if endsLine c then line else line + 1) 0 cs with
  | none => simp [Nat.add_comm]
  | some r => simp [Nat.add_assoc]

/-- A carriage return and its line feed are passed together. -/
theorem index_pair (cs : List Char) (line column : Nat) :
    index ('\r' :: '\n' :: cs) (line + 1) column = 2 + index cs line column := by
  have hskip : skipLines (line + 1) 0 ('\r' :: '\n' :: cs) =
      (skipLines line 0 cs).map fun r => (2 + r.1, r.2) := by
    rw [skipLines, ← skipLines_add]
  rw [index, index, hskip]
  cases skipLines line 0 cs with
  | none => simp only [Option.map_none, List.length_cons]; omega
  | some r => simp [Nat.add_assoc]

/-- A line that is not the last one ends before its line feed. -/
theorem index_lt_of_lt_count : ∀ (before after : List Char) (line column : Nat),
    line < before.count '\n' → index (before ++ after) line column < before.length
  | [], _, _, _, h => by simp at h
  | c :: before, after, 0, column, h => by
    rw [index_zero, List.cons_append, columnIndex]
    split
    · simp
    · next hc =>
      have hbefore : 0 < before.count '\n' := by
        rwa [List.count_cons_of_ne fun heq => hc (.inl heq)] at h
      have hpos : 0 < before.length := List.length_pos_of_mem (List.count_pos_iff.mp hbefore)
      split
      · simp only [List.length_cons]
        omega
      · have hrest := index_lt_of_lt_count before after 0 (column - units16 c) hbefore
        rw [index_zero] at hrest
        simp only [List.length_cons]
        omega
  | c :: before, after, line + 1, column, h => by
    -- A carriage return with its line feed is one line end.
    by_cases hpair : c = '\r' ∧ (before ++ after).head? = some '\n'
    · obtain ⟨rfl, hhead⟩ := hpair
      cases before with
      | nil => simp at h
      | cons d before =>
        obtain rfl : d = '\n' := Option.some.inj hhead
        have hrest := index_lt_of_lt_count before after line column (by simpa using h)
        rw [List.cons_append, List.cons_append, index_pair]
        simp only [List.length_cons]
        omega
    · rw [List.cons_append, index_cons fun hc hhead => hpair ⟨hc, hhead⟩, List.length_cons]
      have hlines : (if endsLine c then line else line + 1) < before.count '\n' := by
        by_cases hc : c = '\n'
        · subst hc
          simpa [endsLine] using h
        · rw [List.count_cons_of_ne hc] at h
          split <;> omega
      have hrest := index_lt_of_lt_count before after _ column hlines
      omega

/-- On its line a place is found unless the line ends earlier. -/
theorem columnIndex_after (before after : List Char) (hfeed : '\n' ∉ before)
    (hreturn : '\r' ∉ before) :
    let found := columnIndex (unitLength before) (before ++ after)
    found ≤ before.length ∧ (found = before.length ↔ Undivided before) := by
  induction before with
  | nil =>
    have hzero : columnIndex 0 after = 0 := by
      cases after with
      | nil => rfl
      | cons c after => simp [columnIndex, units16_pos c]
    simp [unitLength, hzero, Undivided]
  | cons c before ih =>
    obtain ⟨hcf, hfeed⟩ := not_or.mp (mt List.mem_cons.mpr hfeed)
    obtain ⟨hcr, hreturn⟩ := not_or.mp (mt List.mem_cons.mpr hreturn)
    obtain ⟨hle, hiff⟩ := ih hfeed hreturn
    rw [unitLength, List.cons_append, columnIndex,
      if_neg (by simp [Ne.symm hcf, Ne.symm hcr]), Nat.add_sub_cancel_left, List.length_cons]
    -- A character that ends the line on its own stops the search, unless it stands last.
    by_cases hc : endsLine c
    · have halone : breaksAlone c = true := by simp [breaksAlone, hc, Ne.symm hcf, Ne.symm hcr]
      rw [if_pos hc]
      cases before with
      | nil => simp [Undivided]
      | cons d before => simp [undivided_cons, halone]
    · have halone : breaksAlone c = false := by simp [breaksAlone, hc]
      rw [if_neg hc]
      cases before with
      | nil => simp [Undivided] at hiff ⊢; omega
      | cons d before =>
        rw [undivided_cons, ← hiff]
        simp only [halone, true_and]
        omega

/-- Carriage returns stand on the lines that they end. -/
theorem not_mem_of_paired {before after : List Char} (hpaired : Paired (before ++ after))
    (hlast : before.getLast? ≠ some '\r') (hfeed : '\n' ∉ before) : '\r' ∉ before := by
  intro hmem
  obtain ⟨front, back, rfl⟩ := List.append_of_mem hmem
  have hhead := (Paired.right (by simpa using hpaired) : Paired ('\r' :: (back ++ after))).1 rfl
  cases back with
  | nil => simp at hlast
  | cons d back =>
    obtain rfl : d = '\n' := Option.some.inj hhead
    exact hfeed (by simp)

theorem getLast?_ne_of_cons {c : Char} {cs : List Char} (h : (c :: cs).getLast? ≠ some '\r') :
    cs.getLast? ≠ some '\r' := by
  cases cs with
  | nil => simp
  | cons d cs => rwa [List.getLast?_cons_cons] at h

/-- A place is never found too late, and it is found where it is exactly when the buffer divides no
line before it. -/
theorem index_after : ∀ (before after : List Char), Paired (before ++ after) →
    before.getLast? ≠ some '\r' →
    let found := index (before ++ after) (before.count '\n') (Position.after {} before).column
    found ≤ before.length ∧ (found = before.length ↔ Undivided before)
  | [], after, hpaired, hlast => by
    exact index_zero after 0 ▸ columnIndex_after [] after nofun nofun
  | c :: before, after, hpaired, hlast => by
    by_cases hfeed : '\n' ∈ c :: before
    · have hrest := getLast?_ne_of_cons hlast
      by_cases hreturn : c = '\r'
      · subst hreturn
        -- The line feed that belongs to the carriage return stands before the place too.
        have hhead := hpaired.1 rfl
        cases before with
        | nil => simp at hfeed
        | cons d before =>
          obtain rfl : d = '\n' := Option.some.inj hhead
          have hcolumn := Position.column_after_feed (Position.next {} '\r') before
          change (Position.after {} ('\r' :: '\n' :: before)).column = _ at hcolumn
          obtain ⟨hle, hiff⟩ := index_after before after hpaired.2.2
            (getLast?_ne_of_cons hrest)
          have hcount : ('\r' :: '\n' :: before).count '\n' = before.count '\n' + 1 := by simp
          rw [hcount, hcolumn, List.cons_append, List.cons_append, index_pair,
            undivided_cons_of_not rfl, undivided_cons_of_not rfl, ← hiff]
          simp only [List.length_cons]
          omega
      · have hpair : c = '\r' → (before ++ after).head? ≠ some '\n' := fun h => absurd h hreturn
        obtain ⟨hle, hiff⟩ := index_after before after hpaired.2 hrest
        by_cases hc : c = '\n'
        · subst hc
          rw [List.count_cons_self, Position.column_after_feed, List.cons_append, index_cons hpair,
            if_pos (by decide), undivided_cons_of_not rfl, ← hiff, List.length_cons]
          dsimp only at hle ⊢
          omega
        · have hmem : '\n' ∈ before := (List.mem_cons.mp hfeed).resolve_left (Ne.symm hc)
          have hcolumn : (Position.after {} (c :: before)).column =
              (Position.after {} before).column := Position.column_after_congr (.inr hmem)
          obtain ⟨k, hk⟩ : ∃ k, before.count '\n' = k + 1 :=
            ⟨_, (Nat.sub_add_cancel (List.count_pos_iff.mpr hmem)).symm⟩
          rw [List.count_cons_of_ne hc, hcolumn, hk, List.cons_append, index_cons hpair,
            List.length_cons]
          by_cases hends : endsLine c
          · -- From here on the buffer is a line ahead, and the line that it looks for is over too
            -- early.
            have hlt := index_lt_of_lt_count before after k
              (Position.after {} before).column (by omega)
            have halone : breaksAlone c = true := by simp [breaksAlone, hends, hc, hreturn]
            have hnot : ¬ Undivided (c :: before) := by
              cases before with
              | nil => cases hmem
              | cons d before => simp [undivided_cons, halone]
            rw [if_pos hends]
            simp only [hnot, iff_false]
            omega
          · have halone : breaksAlone c = false := by simp [breaksAlone, hends]
            rw [if_neg hends, undivided_cons_of_not halone, ← hiff, hk]
            rw [hk] at hle
            dsimp only at hle ⊢
            omega
    · have hreturn := not_mem_of_paired hpaired hlast hfeed
      have hline : (c :: before).count '\n' = 0 := List.count_eq_zero.mpr hfeed
      have hcolumn := Position.column_after_of_not_mem {} hfeed
      rw [hline, hcolumn, index_zero, Nat.zero_add]
      exact columnIndex_after (c :: before) after hfeed hreturn

/-! ### Changes -/

/-- What is put at a place tells where the place is. -/
theorem eq_of_forall_splice {xs ys as bs : List Char}
    (h : ∀ r : List Char, xs ++ r ++ ys = as ++ r ++ bs) : xs = as ∧ ys = bs := by
  have hle : ∀ {xs ys as bs : List Char}, (∀ r : List Char, xs ++ r ++ ys = as ++ r ++ bs) →
      as.length ≤ xs.length := by
    intro xs ys as bs h
    by_contra hlt
    -- After a long run of one character, another one shows by how much the run was moved.
    have hmark := congrArg (·[xs.length + as.length]?)
      (h (List.replicate as.length 'x' ++ ['y']))
    have hy : (xs ++ (List.replicate as.length 'x' ++ ['y']) ++ ys)[xs.length + as.length]? =
        some 'y' := by simp
    have hx : (as ++ (List.replicate as.length 'x' ++ ['y']) ++ bs)[xs.length + as.length]? =
        some 'x' := by
      rw [List.append_assoc, Nat.add_comm, List.getElem?_append_right (Nat.le_add_right _ _),
        Nat.add_sub_cancel_left, List.append_assoc, List.getElem?_append_left (by simpa using hlt)]
      exact List.getElem?_replicate_of_lt (Nat.lt_of_not_le hlt)
    rw [hy, hx] at hmark
    exact absurd hmark (by decide)
  have hlength : xs.length = as.length := Nat.le_antisymm (hle fun r => (h r).symm) (hle h)
  have hempty := h []
  rw [List.append_nil, List.append_nil] at hempty
  exact List.append_inj hempty hlength

/-- A stretch that starts and ends too early, or where it should, is the right one exactly when both
its ends are. -/
theorem forall_splice_iff {before more : List Char} (after : List Char) {i j : Nat}
    (hi : i ≤ before.length) (hj : j ≤ (before ++ more).length) :
    let cs := before ++ more ++ after
    (∀ r, cs.take (min i j) ++ r ++ cs.drop (max i j) = before ++ r ++ after) ↔
      i = before.length ∧ j = (before ++ more).length := by
  intro cs
  have hcs : cs.length = (before ++ more).length + after.length := List.length_append
  simp only [List.length_append] at hj hcs ⊢
  constructor
  · intro h
    -- What stays before and after is told apart by its length.
    obtain ⟨htake, hdrop⟩ := eq_of_forall_splice h
    have hmin := congrArg List.length htake
    have hmax := congrArg List.length hdrop
    rw [List.length_take] at hmin
    rw [List.length_drop] at hmax
    omega
  · rintro ⟨rfl, rfl⟩ r
    have htake : cs.take before.length = before := by simp [cs]
    have hdrop : cs.drop (before.length + more.length) = after := by simp [cs, List.drop_append]
    rw [Nat.min_eq_left (Nat.le_add_right _ _), Nat.max_eq_right (Nat.le_add_right _ _), htake,
      hdrop]

variable {text : String}

/-- The place falls between a carriage return and the line feed after it. -/
def SplitsPair (p : text.Pos) : Prop :=
  (text.sliceTo p).copy.toList.getLast? = some '\r' ∧
    (text.sliceFrom p).copy.toList.head? = some '\n'

instance (p : text.Pos) : Decidable (SplitsPair p) := inferInstanceAs (Decidable (_ ∧ _))

/-- The stretch between two places of a text, by their lines and columns. -/
def between (a b : text.Pos) : Extent :=
  let start := Position.ofOffset text a.offset.byteIdx
  let stop := Position.ofOffset text b.offset.byteIdx
  ⟨start.line, start.column, stop.line, stop.column⟩

theorem toList_eq_append (p : text.Pos) :
    text.toList = (text.sliceTo p).copy.toList ++ (text.sliceFrom p).copy.toList := by
  rw [← String.toList_append, ← p.splits.eq_append]

theorem prefix_of_le {a b : text.Pos} (h : a ≤ b) :
    (text.sliceTo a).copy.toList <+: (text.sliceTo b).copy.toList := by
  have ha : (text.sliceTo a).copy.toList <+: text.toList := ⟨_, (toList_eq_append a).symm⟩
  have hb : (text.sliceTo b).copy.toList <+: text.toList := ⟨_, (toList_eq_append b).symm⟩
  rcases List.prefix_or_prefix_of_prefix ha hb with hab | ⟨more, hmore⟩
  · exact hab
  · have hbytes : byteLength (text.sliceTo a).copy.toList ≤
        byteLength (text.sliceTo b).copy.toList := by
      have hle := String.Pos.Raw.le_iff.mp (String.Pos.le_iff.mp h)
      rw [a.splits.offset_eq_rawEndPos, b.splits.offset_eq_rawEndPos] at hle
      rwa [← utf8ByteSize_eq, ← utf8ByteSize_eq]
    generalize (text.sliceTo a).copy.toList = xs at hmore hbytes ⊢
    generalize (text.sliceTo b).copy.toList = ys at hmore hbytes ⊢
    subst hmore
    have hnone : more = [] := by
      rw [byteLength_append] at hbytes
      exact byteLength_eq_zero (by omega)
    exact ⟨[], by rw [hnone, List.append_nil, List.append_nil]⟩

/-- Lines and columns of a place are counted from what stands before it. -/
theorem ofOffset_pos (p : text.Pos) :
    let before := (text.sliceTo p).copy.toList
    (Position.ofOffset text p.offset.byteIdx).line = before.count '\n' ∧
      (Position.ofOffset text p.offset.byteIdx).column = (Position.after {} before).column := by
  intro before
  have hoffset : p.offset.byteIdx = (Position.after {} before).offset := by
    rw [p.splits.offset_eq_rawEndPos, Position.offset_after, Nat.zero_add, ← utf8ByteSize_eq]
    rfl
  have hseek : Position.seek p.offset.byteIdx {} text.toList = Position.after {} before := by
    rw [toList_eq_append p, hoffset, Position.seek_after]
  refine ⟨?_, ?_⟩
  · change (Position.seek p.offset.byteIdx {} text.toList).line = _
    rw [hseek, Position.line_after, Nat.zero_add]
  · change (Position.seek p.offset.byteIdx {} text.toList).column = _
    rw [hseek]

/-- The index of a place that splits no line end. -/
theorem index_pos (hpaired : Paired text.toList) {p : text.Pos} (hp : ¬ SplitsPair p) :
    let before := (text.sliceTo p).copy.toList
    let place := Position.ofOffset text p.offset.byteIdx
    index text.toList place.line place.column ≤ before.length ∧
      (index text.toList place.line place.column = before.length ↔ Undivided before) := by
  dsimp only
  obtain ⟨hline, hcolumn⟩ := ofOffset_pos p
  have htext := toList_eq_append p
  rw [hline, hcolumn]
  rw [SplitsPair] at hp
  generalize (text.sliceTo p).copy.toList = before at htext hp ⊢
  generalize (text.sliceFrom p).copy.toList = after at htext hp
  rw [htext] at hpaired ⊢
  refine index_after before after hpaired fun hlast => ?_
  -- A carriage return at the end has its line feed right after it.
  obtain ⟨front, rfl⟩ := List.getLast?_eq_some_iff.mp hlast
  rw [← List.append_cons] at hpaired
  exact hp ⟨hlast, hpaired.right.1 rfl⟩

/-- A change between two places replaces what stands between them, whatever it puts there, exactly
when the buffer divides no line before the second place. -/
theorem apply_eq_splice_iff (hpaired : Paired text.toList) {a b : text.Pos} (hab : a ≤ b)
    (ha : ¬ SplitsPair a) (hb : ¬ SplitsPair b) :
    (∀ replacement, apply text ⟨some (between a b), replacement⟩ =
        (text.sliceTo a).copy ++ replacement ++ (text.sliceFrom b).copy) ↔
      Undivided (text.sliceTo b).copy.toList := by
  obtain ⟨more, hmore⟩ := prefix_of_le hab
  obtain ⟨hale, haiff⟩ := index_pos hpaired ha
  obtain ⟨hble, hbiff⟩ := index_pos hpaired hb
  have htext := toList_eq_append b
  rw [← hmore] at hble hbiff htext ⊢
  have hsplice := forall_splice_iff (text.sliceFrom b).copy.toList hale hble
  rw [← htext, haiff, hbiff, and_iff_right_of_imp Undivided.mono] at hsplice
  refine Iff.trans ⟨fun h r => ?_, fun h replacement => ?_⟩ hsplice
  · have hr := congrArg String.toList (h (String.ofList r))
    simpa only [apply, between, String.toList_append, String.toList_ofList] using hr
  · refine String.toList_injective ?_
    have hr := h replacement.toList
    simpa only [apply, between, String.toList_append, String.toList_ofList] using hr

/-- A whole text with two kinds of line ends is replaced. The form feed is its last character. -/
theorem apply_eq_splice_iff_whole :
    let text := "a\r\nb\x0c"
    ∀ replacement, apply text ⟨some (between text.startPos text.endPos), replacement⟩ =
      (text.sliceTo text.startPos).copy ++ replacement ++ (text.sliceFrom text.endPos).copy :=
  (apply_eq_splice_iff (by decide) (by decide) (by decide) (by decide)).mpr (by decide)

/-- After a form feed the buffer counts another line than the text. What is typed at the end of the
text comes before its last character. -/
theorem apply_after_form_feed :
    let text := "# a\x0cb"
    Paired text.toList ∧ ¬ SplitsPair text.endPos ∧
      apply text ⟨some (between text.endPos text.endPos), "c"⟩ = "# a\x0ccb" ∧
      (text.sliceTo text.endPos).copy ++ "c" ++ (text.sliceFrom text.endPos).copy =
        "# a\x0cbc" := by
  exact ⟨by decide, by decide, by decide, by decide⟩

end Buffer

end MesonLens
