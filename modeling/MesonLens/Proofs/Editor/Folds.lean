import MesonLens.Proofs.Syntax.SourceOrder
import MesonLens.Editor.Folding

/-!
# `MesonLens.Proofs.Editor.Folds`: which lines the folds of a selection hide

The lines of `elif` and `else` are not kept in the tree. `FoldingRange.ofNode` takes the line before
the first statement of each block for them, and ends one fold and begins the next one there. So a
line inside a selection is hidden unless the line after it is where a later block has its first
statement (`SourceFile.selection_folds`). That is the line of the `elif` or `else` when the first
statement follows at once. After an empty line, a comment or a condition over several lines, or in
front of an empty block, it is another line, or none (`SourceFile.selection_folds_hide_else`).

* `FoldingRange.hides_between`: what folds between lines in order hide;
* `SourceFile.pairwise_bounds`: the lines that the folds of a selection stand between are in order,
  because its statements are, and its later blocks start below its first line;
* `Lexed.line_eq_of_kwEndif`: an `endif` stands on one line.
-/

set_option autoImplicit false

namespace MesonLens

namespace FoldingRange

/-- The line is not seen when the stretch is folded. The first line of the stretch is. -/
def Hides (r : FoldingRange) (line : Nat) : Prop :=
  r.startLine < line ∧ line ≤ r.stopLine

instance (r : FoldingRange) (line : Nat) : Decidable (r.Hides line) :=
  inferInstanceAs (Decidable (_ ∧ _))

/-! ### Folds between lines -/

theorem lt_of_mem_before? {start stop : Nat} {r : FoldingRange} (h : r ∈ before? start stop) :
    r.startLine < r.stopLine := by
  unfold before? at h
  split at h
  · cases h
    show start < stop - 1
    omega
  · cases h

theorem hides_before? {start stop line : Nat} :
    (∃ r ∈ before? start stop, r.Hides line) ↔ start < line ∧ line < stop := by
  unfold before?
  split
  · simp only [Option.mem_some_iff, exists_eq_left', Hides]
    omega
  · simp only [Option.mem_def, reduceCtorEq, false_and, exists_false, false_iff]
    omega

theorem lt_of_mem_between {lines : List Nat} {r : FoldingRange} (h : r ∈ between lines) :
    r.startLine < r.stopLine := by
  induction lines with
  | nil => simp [between] at h
  | cons start lines ih =>
    cases lines with
    | nil => simp [between] at h
    | cons stop lines =>
      rw [between, List.mem_append, Option.mem_toList] at h
      rcases h with h | h
      · exact lt_of_mem_before? h
      · exact ih h

/-- Between lines in order every line is hidden that is none of them. -/
theorem hides_between {start stop line : Nat} {lines : List Nat}
    (h : (start :: lines).Pairwise (· ≤ ·)) (hstop : ∀ l ∈ lines, l ≤ stop) :
    (∃ r ∈ between (start :: lines ++ [stop]), r.Hides line) ↔
      start < line ∧ line < stop ∧ line ∉ lines := by
  have hsplit : ∀ a b more, (∃ r ∈ between (a :: b :: more), r.Hides line) ↔
      (a < line ∧ line < b) ∨ ∃ r ∈ between (b :: more), r.Hides line := by
    intro a b more
    rw [← hides_before?]
    simp only [between, List.mem_append, Option.mem_toList, or_and_right, exists_or, Option.mem_def]
  induction lines generalizing start with
  | nil =>
    rw [List.cons_append, List.nil_append, hsplit]
    simp [between]
  | cons next lines ih =>
    obtain ⟨hstart, hmore⟩ := List.pairwise_cons.mp h
    obtain ⟨hnext, hrest⟩ := List.forall_mem_cons.mp hstop
    have hle : start ≤ next := hstart next List.mem_cons_self
    -- A line before `next` is none of the lines that come after it.
    have hlater : line < next → line ∉ lines := by
      intro hline hmem
      have hle := List.rel_of_pairwise_cons hmore hmem
      omega
    rw [List.cons_append, List.cons_append, hsplit, List.mem_cons, not_or]
    refine (or_congr_right (ih hmore hrest)).trans ?_
    constructor
    · rintro (⟨hline, hbefore⟩ | ⟨hline, hbefore, hmem⟩)
      · exact ⟨hline, by omega, by omega, hlater hbefore⟩
      · exact ⟨by omega, hbefore, by omega, hmem⟩
    · rintro ⟨hline, hbefore, hne, hmem⟩
      rcases Nat.lt_or_gt_of_ne hne with hlt | hgt
      · exact .inl ⟨hline, hlt⟩
      · exact .inr ⟨hgt, hbefore, hmem⟩

/-- Every fold hides a line. -/
theorem lt_of_mem_ofNode {t : Tree Mark} {r : FoldingRange} (h : r ∈ ofNode t) :
    r.startLine < r.stopLine := by
  unfold ofNode at h
  split at h
  · exact lt_of_mem_between h
  all_goals first
    | exact lt_of_mem_before? (Option.mem_toList.mp h)
    | cases h

/-! ### First statements -/

theorem filterMap_blockStart? (blocks : List (List (Tree Mark))) :
    blocks.filterMap blockStart? =
      (blocks.filterMap List.head?).map fun t => t.span.start.line - 1 := by
  rw [List.map_filterMap]
  rfl

end FoldingRange

/-- The first statements of blocks are some of their statements, in the same order. -/
theorem filterMap_head?_sublist {α : Type} (blocks : List (List α)) :
    (blocks.filterMap List.head?).Sublist blocks.flatten := by
  induction blocks with
  | nil => exact .refl _
  | cons block blocks ih =>
    cases block with
    | nil => exact ih
    | cons first block => exact (ih.trans (List.sublist_append_right block _)).cons_cons first

/-- An `endif` stands on one line. -/
theorem Lexed.line_eq_of_kwEndif {text : String} {l : Lexeme}
    (hl : l ∈ (Lexed.ofText text).lexemes) (hendif : l.token = .kwEndif) :
    l.span.stop.line = l.span.start.line := by
  obtain ⟨hholds, -, hline⟩ := Lexed.covers_lexeme hl
  have hfeeds : l.feeds = 0 := by
    refine (Lexeme.feeds_eq_zero_iff hholds ?_ ?_).mpr ?_
    · rw [hendif]
      exact nofun
    · rw [hendif]
      rfl
    · rintro ⟨hquoted, -⟩
      rw [hendif] at hquoted
      cases hquoted
  rw [hline, hfeeds, Nat.add_zero]

namespace SourceFile

variable {text : String} {m : Mark} {b : Branches Mark}

/-- The lines that the folds of a selection stand between are in order. -/
theorem pairwise_bounds (hn : .selection m b ∈ (parse text).nodes) :
    let lines := (b.blocks.drop 1).filterMap FoldingRange.blockStart?
    (m.span.start.line :: lines).Pairwise (· ≤ ·) ∧ ∀ line ∈ lines, line ≤ m.span.stop.line := by
  obtain ⟨-, hsorted, hlater⟩ := branches_arranged hn
  let firsts := (b.blocks.drop 1).filterMap List.head?
  have hfirst : ∀ t ∈ firsts,
      m.span.start.line < t.span.start.line ∧ t.span.start.line ≤ m.span.stop.line := by
    intro t ht
    obtain ⟨body, hbody, hhead⟩ := List.mem_filterMap.mp ht
    obtain ⟨hline, hle⟩ := hlater body hbody t (List.mem_of_head? hhead)
    exact ⟨hline, Position.line_le_of_le hle⟩
  have hfirsts : firsts.Pairwise fun t u => t.span.start ≤ u.span.start := by
    have hsub : firsts.Sublist b.blocks.flatten :=
      (filterMap_head?_sublist _).trans (List.drop_sublist 1 b.blocks).flatten
    exact (List.pairwise_map.mp hsorted).sublist hsub
  intro lines
  -- A fold ends on the line before the first statement of the next block.
  have hlines : lines = firsts.map fun t => t.span.start.line - 1 :=
    FoldingRange.filterMap_blockStart? _
  rw [hlines, List.forall_mem_map, List.pairwise_cons, List.forall_mem_map, List.pairwise_map]
  refine ⟨⟨?_, ?_⟩, ?_⟩
  · intro t ht
    exact Nat.le_sub_one_of_lt (hfirst t ht).1
  · exact hfirsts.imp fun hle => Nat.sub_le_sub_right (Position.line_le_of_le hle) 1
  · intro t ht
    exact (Nat.sub_le _ 1).trans (hfirst t ht).2

/-- **What the folds of a selection hide**, for every text and every selection.

* Every fold of the file hides a line, and the folds of the selection are among them.
* A line is hidden by one of them if and only if it stands between the first and the last line of
  the selection, and no block after the first one has its first statement on the next line. This
  goes for the lines of `elif` and `else` as for all others.
* An `endif` that ends the selection is not hidden. -/
theorem selection_folds (text : String) :
    let f := parse text
    (∀ r ∈ FoldingRange.ofTree f.root, r.startLine < r.stopLine) ∧
    ∀ m b, .selection m b ∈ f.nodes →
      let folds := FoldingRange.ofNode (.selection m b)
      (∀ r ∈ folds, r ∈ FoldingRange.ofTree f.root) ∧
      (∀ line, (∃ r ∈ folds, r.Hides line) ↔
        m.span.start.line < line ∧ line < m.span.stop.line ∧
          ∀ body ∈ b.blocks.drop 1, ∀ t ∈ body.head?, t.span.start.line ≠ line + 1) ∧
      ∀ l ∈ (Lexed.ofText text).lexemes, l.token = .kwEndif → l.span.stop = m.span.stop →
        ∀ r ∈ folds, ¬ r.Hides l.span.start.line := by
  intro f
  refine ⟨fun r hr => ?_, fun m b hn => ?_⟩
  · obtain ⟨n, -, hr⟩ := List.mem_flatMap.mp (List.mem_mergeSort.mp hr)
    exact FoldingRange.lt_of_mem_ofNode hr
  intro folds
  have hlines : ∀ line, (∃ r ∈ folds, r.Hides line) ↔
      m.span.start.line < line ∧ line < m.span.stop.line ∧
        ∀ body ∈ b.blocks.drop 1, ∀ t ∈ body.head?, t.span.start.line ≠ line + 1 := by
    intro line
    obtain ⟨hsorted, hstop⟩ := pairwise_bounds hn
    refine (FoldingRange.hides_between hsorted hstop).trans ?_
    refine and_congr_right fun hline => and_congr_right fun _ => ?_
    rw [FoldingRange.filterMap_blockStart?, List.mem_map, not_exists]
    constructor
    · intro hnone body hbody t ht heq
      refine hnone t ⟨List.mem_filterMap.mpr ⟨body, hbody, ht⟩, ?_⟩
      omega
    · rintro hnone t ⟨ht, heq⟩
      obtain ⟨body, hbody, hhead⟩ := List.mem_filterMap.mp ht
      refine hnone body hbody t hhead ?_
      omega
  refine ⟨fun r hr => ?_, hlines, fun l hl hendif hend r hr hhides => ?_⟩
  · exact List.mem_mergeSort.mpr (List.mem_flatMap.mpr ⟨_, mem_nodes.mp hn, hr⟩)
  · obtain ⟨-, hbefore, -⟩ := (hlines _).mp ⟨r, hr, hhides⟩
    rw [← hend, Lexed.line_eq_of_kwEndif hl hendif] at hbefore
    exact Nat.lt_irrefl _ hbefore

/-- Two empty lines after an `else`: the line of the `else` is hidden by the fold before it. -/
theorem selection_folds_hide_else :
    let text := "if a\n  x = 1\nelse\n\n\n  y = 2\nendif\n"
    ∃ n ∈ (parse text).nodes, n.kind = .selection ∧
      FoldingRange.ofNode n = [⟨0, 3⟩, ⟨4, 5⟩] ∧
      ∃ l ∈ (Lexed.ofText text).lexemes, l.token = .kwElse ∧ l.span.start.line = 2 ∧
        FoldingRange.Hides ⟨0, 3⟩ l.span.start.line := by
  decide +kernel

end SourceFile

end MesonLens
