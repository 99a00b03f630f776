import MesonLens.Editor.SemanticToken
import MesonLens.Proofs.Project.Inheritance
import MesonLens.Proofs.Syntax.Lockstep
import MesonLens.Proofs.Syntax.Navigation
import MesonLens.Proofs.Text.Edits

/-!
# `MesonLens.Proofs.Editor.SemanticTokens`: the words that are sent can be read again

The words of a file come from two sides: names, strings and numbers are nodes of the tree, and the
words of the language are lexemes. They are sorted, the repeated ones are dropped, and each is told
from the one before by subtraction.

Every word is where one lexeme of the text is (`SemanticToken.exists_lexeme`), the nodes because
they were drawn from lexemes. Two words that start at one place are thus the same stretch, so that
nothing is lost when one of them is dropped, and two that start at different places do not overlap.
Because they stand in order, no subtraction goes below zero and the sums lead back to them
(`SemanticToken.decode_encode`).

* `Strip`: what an editor knows of a word, a stretch of a line;
* `SemanticToken.all_decodes`: the strips that an editor gets, for every text.
-/

set_option autoImplicit false

namespace MesonLens

/-! ### Strips -/

/-- A stretch of one line, counted in UTF-16 units. -/
structure Strip where
  line : Nat
  column : Nat
  length : Nat
  deriving DecidableEq, Repr

namespace Strip

/-- By line, and then by column. -/
def StartsBefore (a b : Strip) : Prop := a.line < b.line ∨ a.line = b.line ∧ a.column < b.column

/-- The first strip ends before the second one starts when they are on one line. -/
def EndsBefore (a b : Strip) : Prop := a.line = b.line → a.column + a.length ≤ b.column

end Strip

/-- The strip that a stretch covers, if it stays on its line. -/
def Span.strip? (s : Span) : Option Strip :=
  if s.isSingleLine then some ⟨s.start.line, s.start.column, s.stop.column - s.start.column⟩
  else none

namespace Position

/-- Lines and columns of a text are no more than its bytes. -/
theorem Within.le_size {text : String} {p : Position} (h : Within {} text.toList p) :
    p.line ≤ text.utf8ByteSize ∧ p.column ≤ text.utf8ByteSize := by
  obtain ⟨before, ⟨rest, htext⟩, rfl⟩ := h
  have hbounds : (Position.after {} before).line ≤ _ ∧ (Position.after {} before).column ≤ _ :=
    line_column_le_offset before ⟨Nat.le_refl 0, Nat.le_refl 0⟩
  have hoffset := offset_after {} before
  rw [Nat.zero_add] at hoffset
  rw [utf8ByteSize_eq, ← htext, byteLength_append]
  omega

end Position

namespace Span

variable {s u : Span} {a b : Strip}

theorem strip?_eq_some_iff : s.strip? = some a ↔ s.start.line = s.stop.line ∧
    a = ⟨s.start.line, s.start.column, s.stop.column - s.start.column⟩ := by
  rw [strip?, Option.ite_none_right_eq_some, Option.some_inj, isSingleLine, beq_iff_eq,
    @eq_comm _ a]

theorem strip_length_pos (h : s.strip? = some a) (hs : s.start < s.stop) : 0 < a.length := by
  obtain ⟨hline, rfl⟩ := strip?_eq_some_iff.mp h
  have hcolumn := Position.line_column_of_lt hs
  dsimp only
  omega

/-- The strips of two stretches in order are in order. -/
theorem strip_before (ha : s.strip? = some a) (hb : u.strip? = some b) (hs : s.start < s.stop)
    (hle : s.stop ≤ u.start) : a.StartsBefore b ∧ a.EndsBefore b := by
  obtain ⟨hline, rfl⟩ := strip?_eq_some_iff.mp ha
  obtain ⟨-, rfl⟩ := strip?_eq_some_iff.mp hb
  have hcolumn := Position.line_column_of_lt hs
  have hnext := Position.line_column_of_le hle
  unfold Strip.StartsBefore Strip.EndsBefore
  dsimp only
  omega

end Span

/-! ### Lexemes -/

namespace Lexed

variable {text : String} {l m : Lexeme} {a b s : Strip}

theorem start_lt_stop (hl : l ∈ (ofText text).lexemes) : l.span.start < l.span.stop :=
  ((Lexer.inOrder_scan {} text.toList).pairwise.1 l hl).2

/-- Lexemes whose strips start at one place are the same one, and the strips of others are in order
one way or the other. -/
theorem strips_apart (hl : l ∈ (ofText text).lexemes) (hm : m ∈ (ofText text).lexemes)
    (ha : l.span.strip? = some a) (hb : m.span.strip? = some b) :
    l = m ∨ (a.StartsBefore b ∧ a.EndsBefore b) ∨ b.StartsBefore a := by
  by_cases heq : l = m
  · exact .inl heq
  let Apart (l m : Lexeme) : Prop := l.span.stop ≤ m.span.start ∨ m.span.stop ≤ l.span.start
  have : Std.Symm Apart := ⟨fun _ _ h => h.symm⟩
  have hpairs : (ofText text).lexemes.Pairwise Apart :=
    (Lexer.inOrder_scan {} text.toList).pairwise.2.imp .inl
  rcases hpairs.forall hl hm heq with hle | hle
  · exact .inr (.inl (Span.strip_before ha hb (start_lt_stop hl) hle))
  · exact .inr (.inr (Span.strip_before hb ha (start_lt_stop hm) hle).1)

/-- A strip is where one lexeme is, if there is one. -/
theorem countP_strip (hl : l ∈ (ofText text).lexemes) (hs : l.span.strip? = some s) :
    (ofText text).lexemes.countP (fun m => m.span.strip? = some s) = 1 := by
  rw [List.countP_eq_length_filter]
  have hmem : l ∈ (ofText text).lexemes.filter fun m => m.span.strip? = some s := by
    simp [hl, hs]
  have hpairs := (Lexer.inOrder_scan {} text.toList).pairwise.2.filter
    fun m => m.span.strip? = some s
  have hfound : ∀ m ∈ (ofText text).lexemes.filter fun m => m.span.strip? = some s,
      m.span.start < m.span.stop ∧ m.span.strip? = some s := by
    intro m hm
    rw [List.mem_filter] at hm
    exact ⟨start_lt_stop hm.1, by simpa using hm.2⟩
  change List.Pairwise _ ((ofText text).lexemes.filter _) at hpairs
  generalize (ofText text).lexemes.filter _ = found at hmem hpairs hfound
  cases hpairs with
  | nil => cases hmem
  | @cons first rest hbefore _ =>
    cases rest with
    | nil => rfl
    | cons second rest =>
      -- The strip would start before itself.
      obtain ⟨hlt, hfirst⟩ := hfound first List.mem_cons_self
      obtain ⟨-, hsecond⟩ := hfound second (List.mem_cons_of_mem _ List.mem_cons_self)
      have hself := (Span.strip_before hfirst hsecond hlt (hbefore second List.mem_cons_self)).1
      unfold Strip.StartsBefore at hself
      omega

/-- The numbers of a strip are no more than the bytes of the text. -/
theorem strip_le_size (hl : l ∈ (ofText text).lexemes) (hs : l.span.strip? = some s) :
    s.line ≤ text.utf8ByteSize ∧ s.column + s.length ≤ text.utf8ByteSize := by
  obtain ⟨hstart, hstop⟩ := (Lexer.cover_scan {} text.toList).within l hl
  have hcolumn := Position.line_column_of_lt (start_lt_stop hl)
  obtain ⟨hline, rfl⟩ := Span.strip?_eq_some_iff.mp hs
  have hstart := hstart.le_size
  have hstop := hstop.le_size
  dsimp only
  omega

end Lexed

namespace SourceFile

/-- The kinds of nodes that are words of a file. -/
def wordKinds : List Kind := [.identifier, .string, .integer]

/-- A name, a string or a number stands where a lexeme does. -/
theorem word_mem_lexemes {text : String} {n : Tree Mark} (hn : n ∈ (parse text).root.preorder)
    (hkind : n.kind ∈ wordKinds) : ∃ l ∈ (Lexed.ofText text).lexemes, l.span = n.span := by
  obtain ⟨v, hv, k, rfl⟩ := drawn_root hn
  obtain ⟨-, hnote, hsame, -⟩ := Tree.number_run v k
  have hspan : (v.number.run k).1.span = v.note := by rw [Tree.span, hnote]
  rw [hsame] at hkind
  rw [hspan]
  cases v with
  | identifier span name =>
    obtain ⟨l, hl, -, hl'⟩ := hv
    exact ⟨l, hl, hl'⟩
  | string span value format multiline =>
    obtain ⟨l, hl, -, hl'⟩ := hv
    exact ⟨l, hl, hl'⟩
  | integer span value raw => exact ⟨_, hv, rfl⟩
  | _ => simp [wordKinds, Tree.kind] at hkind

end SourceFile

/-! ### Words -/

namespace SemanticToken

/-- What an editor knows of the place of a word. -/
def strip (t : SemanticToken) : Strip := ⟨t.line, t.column, t.length⟩

/-- The words of a file as they are found, the nodes first. -/
def found (f : SourceFile) : List SemanticToken :=
  (f.root.family none).filterMap ofNode?
    ++ (Lexed.ofText f.text).lexemes.filterMap ofLexeme?

/-- A stretch with some text is a word if it is a strip. -/
theorem map_strip_of? {span : Span} (h : span.start < span.stop) (kind : WordKind)
    (declares : Bool) : (of? span kind declares).map strip = span.strip? := by
  have hcolumn := Position.line_column_of_lt h
  rw [of?, Span.strip?, Span.isSingleLine]
  by_cases hline : span.start.line = span.stop.line
  · rw [if_pos (by omega), if_pos (by simpa using hline)]
    rfl
  · rw [if_neg (by omega), if_neg (by simpa using hline)]
    rfl

variable {s : Strip}

/-- The nodes that are words, when those cover some text. -/
theorem strip_ofNode?_iff {parent : Option (Tree Mark)} {n : Tree Mark}
    (h : n.kind ∈ SourceFile.wordKinds → n.span.start < n.span.stop) :
    (ofNode? (parent, n)).map strip = some s ↔
      n.kind ∈ SourceFile.wordKinds ∧ n.span.strip? = some s := by
  cases n with
  | identifier | string | integer =>
    have hkind := h (by simp [SourceFile.wordKinds, Tree.kind])
    refine (Eq.congr_left (map_strip_of? hkind _ _)).trans ?_
    simp [SourceFile.wordKinds, Tree.kind]
  | _ => simp [ofNode?, SourceFile.wordKinds, Tree.kind]

/-- The lexemes that are words of the language. -/
theorem strip_ofLexeme?_iff {l : Lexeme} (h : l.span.start < l.span.stop) :
    (ofLexeme? l).map strip = some s ↔
      (l.token.isKeyword = true ∨ ∃ b, l.token = .boolean b) ∧ l.span.strip? = some s := by
  have hword := map_strip_of? h .keyword false
  obtain ⟨token, span, raw⟩ := l
  by_cases hboolean : ∃ b, token = .boolean b
  · obtain ⟨b, rfl⟩ := hboolean
    simp [ofLexeme?, hword]
  · have hof : ofLexeme? ⟨token, span, raw⟩ =
        if token.isKeyword then of? span .keyword false else none := by
      cases token with
      | boolean b => exact absurd ⟨b, rfl⟩ hboolean
      | _ => rfl
    rw [hof]
    split
    · next hkeyword => simp [hkeyword, hword]
    · next hkeyword => simp [hkeyword, hboolean]

theorem exists_mem_filterMap_iff {β : Type} {f : β → Option SemanticToken} {xs : List β} :
    (∃ t ∈ xs.filterMap f, t.strip = s) ↔ ∃ x ∈ xs, (f x).map strip = some s := by
  constructor
  · rintro ⟨t, ht, rfl⟩
    obtain ⟨x, hx, hword⟩ := List.mem_filterMap.mp ht
    exact ⟨x, hx, by rw [hword, Option.map_some]⟩
  · rintro ⟨x, hx, hword⟩
    obtain ⟨t, ht, hs⟩ := Option.map_eq_some_iff.mp hword
    exact ⟨t, List.mem_filterMap.mpr ⟨x, hx, ht⟩, hs⟩

/-- The words that are found are where words of the language stand, and names, strings and numbers
of the tree. -/
theorem exists_mem_found_iff {text : String} :
    let f := SourceFile.parse text
    (∃ t ∈ found f, t.strip = s) ↔
      (∃ l ∈ (Lexed.ofText text).lexemes,
        (l.token.isKeyword = true ∨ ∃ b, l.token = .boolean b) ∧ l.span.strip? = some s) ∨
      ∃ n ∈ f.nodes, n.kind ∈ SourceFile.wordKinds ∧ n.span.strip? = some s := by
  intro f
  have hlexemes : (∃ l ∈ (Lexed.ofText f.text).lexemes, (ofLexeme? l).map strip = some s) ↔
      ∃ l ∈ (Lexed.ofText text).lexemes,
        (l.token.isKeyword = true ∨ ∃ b, l.token = .boolean b) ∧ l.span.strip? = some s :=
    exists_congr fun l => and_congr_right fun hl => strip_ofLexeme?_iff (Lexed.start_lt_stop hl)
  have hnodes : (∃ node ∈ f.root.family none, (ofNode? node).map strip = some s) ↔
      ∃ n ∈ f.nodes, n.kind ∈ SourceFile.wordKinds ∧ n.span.strip? = some s := by
    -- A name, a string or a number is a lexeme, so its stretch is not empty.
    have hword : ∀ node ∈ f.root.family none, ((ofNode? node).map strip = some s ↔
        node.2.kind ∈ SourceFile.wordKinds ∧ node.2.span.strip? = some s) := by
      intro node hnode
      refine strip_ofNode?_iff fun hkind => ?_
      have hn : node.2 ∈ f.root.preorder := Tree.mem_preorder_of_family hnode
      obtain ⟨l, hl, hspan⟩ := SourceFile.word_mem_lexemes hn hkind
      exact hspan ▸ Lexed.start_lt_stop hl
    rw [exists_congr fun node => and_congr_right (hword node)]
    simp only [SourceFile.mem_nodes, ← Tree.map_snd_family none, List.mem_map,
      exists_exists_and_eq_and]
  rw [found, or_comm, ← hnodes, ← hlexemes, ← exists_mem_filterMap_iff, ← exists_mem_filterMap_iff,
    ← exists_or]
  simp only [List.mem_append, or_and_right]

/-- Every word that is found is where a lexeme of the text is. -/
theorem exists_lexeme {text : String} {t : SemanticToken} (ht : t ∈ found (SourceFile.parse text)) :
    ∃ l ∈ (Lexed.ofText text).lexemes, l.span.strip? = some t.strip := by
  rcases exists_mem_found_iff.mp ⟨t, ht, rfl⟩ with ⟨l, hl, -, hs⟩ | ⟨n, hn, hkind, hs⟩
  · exact ⟨l, hl, hs⟩
  · obtain ⟨l, hl, hspan⟩ := SourceFile.word_mem_lexemes (SourceFile.mem_nodes.mp hn) hkind
    exact ⟨l, hl, hspan ▸ hs⟩

/-! ### Order -/

section Order

variable {a b c : SemanticToken}

theorem le_trans (h : le a b = true) (h' : le b c = true) : le a c = true :=
  Std.TransCmp.isLE_trans h h'

theorem le_total (a b : SemanticToken) : (le a b || le b a) = true := by
  have hswap : List.compareLex compare b.sortKey a.sortKey =
      (List.compareLex compare a.sortKey b.sortKey).swap := Std.OrientedCmp.eq_swap
  rw [le, le, hswap]
  cases List.compareLex compare a.sortKey b.sortKey <;> rfl

theorem startsBefore_iff : a.strip.StartsBefore b.strip ↔
    a.line < b.line ∨ a.line = b.line ∧ a.column < b.column := Iff.rfl

/-- Words in order are in the order of their places, or start at one place. -/
theorem startsBefore_of_le (h : le a b = true) :
    a.strip.StartsBefore b.strip ∨ a.line = b.line ∧ a.column = b.column := by
  -- Lines are compared first, and columns when the lines are equal.
  rw [le, sortKey, sortKey, List.compareLex_cons_cons, List.compareLex_cons_cons,
    Ordering.isLE_then_iff_or, Ordering.isLE_then_iff_or, Nat.compare_eq_lt, Nat.compare_eq_lt,
    Nat.compare_eq_eq, Nat.compare_eq_eq] at h
  rw [startsBefore_iff]
  omega

theorem dropRepeated_subset (ts : List SemanticToken) : ∀ t ∈ dropRepeated ts, t ∈ ts := by
  fun_induction dropRepeated ts with
  | case1 => exact nofun
  | case2 t => exact fun _ h => h
  | case3 t u rest _ ih =>
    intro v hv
    rcases List.mem_cons.mp (ih v hv) with rfl | hrest
    · exact List.mem_cons_self
    · exact List.mem_cons_of_mem _ (List.mem_cons_of_mem _ hrest)
  | case4 t u rest _ ih =>
    intro v hv
    rcases List.mem_cons.mp hv with rfl | hv
    · exact List.mem_cons_self
    · exact List.mem_cons_of_mem _ (ih v hv)

/-- In place of a word that is dropped another one that starts there is kept. -/
theorem exists_mem_dropRepeated (ts : List SemanticToken) :
    ∀ t ∈ ts, ∃ u ∈ dropRepeated ts, u.line = t.line ∧ u.column = t.column := by
  fun_induction dropRepeated ts with
  | case1 => exact nofun
  | case2 t => exact fun v hv => ⟨v, hv, rfl, rfl⟩
  | case3 t u rest hplace ih =>
    intro v hv
    rcases List.mem_cons.mp hv with rfl | hv
    · exact ih v List.mem_cons_self
    rcases List.mem_cons.mp hv with rfl | hv
    · obtain ⟨w, hw, hline, hcolumn⟩ := ih t List.mem_cons_self
      exact ⟨w, hw, hline.trans hplace.1, hcolumn.trans hplace.2⟩
    · exact ih v (List.mem_cons_of_mem _ hv)
  | case4 t u rest _ ih =>
    intro v hv
    rcases List.mem_cons.mp hv with rfl | hv
    · exact ⟨v, List.mem_cons_self, rfl, rfl⟩
    · obtain ⟨w, hw, hplace⟩ := ih v hv
      exact ⟨w, List.mem_cons_of_mem _ hw, hplace⟩

/-- Of words in order those are kept that start at different places. -/
theorem pairwise_dropRepeated {ts : List SemanticToken} (h : ts.Pairwise fun a b => le a b = true) :
    (dropRepeated ts).Pairwise fun a b => a.strip.StartsBefore b.strip := by
  fun_induction dropRepeated ts with
  | case1 => exact .nil
  | case2 t => exact List.pairwise_singleton _ _
  | case3 t u rest _ ih =>
    refine ih (h.sublist ?_)
    exact .cons_cons t (List.sublist_cons_self u rest)
  | case4 t u rest hplace ih =>
    obtain ⟨hfirst, hrest⟩ := List.pairwise_cons.mp h
    refine .cons ?_ (ih hrest)
    intro v hv
    -- The word starts before `u`, and `u` is not after any of those that are kept.
    have hu := (startsBefore_of_le (hfirst u List.mem_cons_self)).resolve_right hplace
    rcases List.mem_cons.mp (dropRepeated_subset _ v hv) with rfl | hv
    · exact hu
    · have hv' := startsBefore_of_le ((List.pairwise_cons.mp hrest).1 v hv)
      rw [startsBefore_iff] at hu hv' ⊢
      omega

end Order

theorem pairwise_ofSource (f : SourceFile) :
    (ofSource f).Pairwise fun a b => a.strip.StartsBefore b.strip := by
  have hsorted : ((found f).mergeSort le).Pairwise fun a b => le a b = true :=
    List.pairwise_mergeSort (fun a b c => @le_trans a b c) le_total (found f)
  exact pairwise_dropRepeated hsorted

theorem mem_found_of_mem_ofSource {f : SourceFile} {t : SemanticToken} (h : t ∈ ofSource f) :
    t ∈ found f :=
  List.mem_mergeSort.mp (dropRepeated_subset _ t h)

/-- No strip is lost, because words that start at one place cover the same strip. -/
theorem strip_mem_ofSource_iff {text : String} :
    let f := SourceFile.parse text
    s ∈ (ofSource f).map strip ↔ ∃ t ∈ found f, t.strip = s := by
  intro f
  rw [List.mem_map]
  constructor
  · rintro ⟨t, ht, hs⟩
    exact ⟨t, mem_found_of_mem_ofSource ht, hs⟩
  · rintro ⟨t, ht, rfl⟩
    obtain ⟨u, hu, hline, hcolumn⟩ :=
      exists_mem_dropRepeated _ t (List.mem_mergeSort.mpr ht)
    refine ⟨u, hu, ?_⟩
    obtain ⟨l, hl, hl'⟩ := exists_lexeme ht
    obtain ⟨m, hm, hm'⟩ := exists_lexeme (mem_found_of_mem_ofSource hu)
    -- Strips of two lexemes would not start at one place.
    rcases Lexed.strips_apart hl hm hl' hm' with rfl | ⟨hbefore, -⟩ | hbefore
    · exact Option.some.inj (hm'.symm.trans hl')
    · rw [startsBefore_iff] at hbefore
      omega
    · rw [startsBefore_iff] at hbefore
      omega

/-! ### Deltas -/

/-- What an editor reads: the sums of the lines and of the columns on one line. -/
def decode (line column : Nat) : List TokenDelta → List Strip
  | [] => []
  | d :: rest =>
    let start := if d.line = 0 then column + d.column else d.column
    ⟨line + d.line, start, d.length⟩ :: decode (line + d.line) start rest

/-- A difference of numbers that have no sign. -/
def difference? (a b : Nat) : Option Nat := if b ≤ a then some (a - b) else none

/-- `encode` with the differences checked: nothing when one of them is below zero. -/
def encode? (line column : Nat) : List SemanticToken → Option (List TokenDelta)
  | [] => some []
  | t :: rest => do
    let lines ← difference? t.line line
    let columns ← if lines = 0 then difference? t.column column else some t.column
    let more ← encode? t.line t.column rest
    return ⟨lines, columns, t.length, t.kind.index, if t.declares then 1 else 0⟩ :: more

/-- The words stand in order from a place on. -/
def InOrderFrom (line column : Nat) (ts : List SemanticToken) : Prop :=
  (∀ t ∈ ts.head?, line < t.line ∨ line = t.line ∧ column ≤ t.column) ∧
    ts.Pairwise fun a b => a.strip.StartsBefore b.strip

theorem InOrderFrom.cons {line column : Nat} {t : SemanticToken} {rest : List SemanticToken}
    (h : InOrderFrom line column (t :: rest)) :
    (line < t.line ∨ line = t.line ∧ column ≤ t.column) ∧ InOrderFrom t.line t.column rest := by
  obtain ⟨hfirst, hpairs⟩ := h
  obtain ⟨hnext, hrest⟩ := List.pairwise_cons.mp hpairs
  refine ⟨hfirst t rfl, fun u hu => ?_, hrest⟩
  have hu := hnext u (List.mem_of_mem_head? hu)
  rw [startsBefore_iff] at hu
  omega

/-- No difference of words in order is below zero. -/
theorem encode?_eq {line column : Nat} {ts : List SemanticToken} (h : InOrderFrom line column ts) :
    encode? line column ts = some (encode line column ts) := by
  induction ts generalizing line column with
  | nil => rfl
  | cons t rest ih =>
    obtain ⟨hplace, hrest⟩ := h.cons
    have hline : line ≤ t.line := by omega
    rw [encode?, encode, ih hrest, difference?, if_pos hline]
    by_cases hsame : t.line = line
    · have hcolumn : column ≤ t.column := by omega
      simp [hsame, difference?, hcolumn]
    · have hlines : t.line - line ≠ 0 := by omega
      simp [hsame, hlines]

/-- The sums lead back to the words. -/
theorem decode_encode {line column : Nat} {ts : List SemanticToken}
    (h : InOrderFrom line column ts) :
    decode line column (encode line column ts) = ts.map strip := by
  induction ts generalizing line column with
  | nil => rfl
  | cons t rest ih =>
    obtain ⟨hplace, hrest⟩ := h.cons
    have hline : line + (t.line - line) = t.line := by omega
    -- On another line both sides count the column from the start of the line.
    have hcolumn : (if t.line - line = 0 then
        column + (if t.line = line then t.column - column else t.column)
        else if t.line = line then t.column - column else t.column) = t.column := by
      split <;> split <;> omega
    rw [encode, decode]
    dsimp only
    rw [hline, hcolumn, ih hrest, List.map_cons, strip]

theorem inOrderFrom_ofSource (f : SourceFile) : InOrderFrom 0 0 (ofSource f) :=
  ⟨fun t _ => by omega, pairwise_ofSource f⟩

/-- **What an editor gets of a file**, for every text.

* No difference is below zero when the words are sent.
* The strips that the sums lead to are in order, by line and then by column, and do not overlap.
* Each is where exactly one lexeme of the text is. It takes some units, and its numbers are no more
  than the bytes of the text, so that they fit in 32 bits when the text is shorter than 2^32 bytes.
* They are the keywords, `true` and `false`, and the names, strings and numbers of the tree, all
  that are on one line and no more. -/
theorem all_decodes {p : Project} {path : Path} {text : String}
    (h : p.source? path = some (SourceFile.parse text)) :
    let f := SourceFile.parse text
    let lexemes := (Lexed.ofText text).lexemes
    let strips := decode 0 0 (all p path)
    encode? 0 0 (ofSource f) = some (all p path) ∧
    strips.Pairwise (fun a b => a.StartsBefore b ∧ a.EndsBefore b) ∧
    (∀ s ∈ strips, lexemes.countP (fun l => l.span.strip? = some s) = 1 ∧ 0 < s.length ∧
      s.line ≤ text.utf8ByteSize ∧ s.column + s.length ≤ text.utf8ByteSize) ∧
    ∀ s, s ∈ strips ↔
      (∃ l ∈ lexemes,
        (l.token.isKeyword = true ∨ ∃ b, l.token = .boolean b) ∧ l.span.strip? = some s) ∨
      ∃ n ∈ f.nodes, n.kind ∈ SourceFile.wordKinds ∧ n.span.strip? = some s := by
  intro f lexemes strips
  have hall : all p path = encode 0 0 (ofSource f) := by
    rw [all, h, Option.map_some, Option.getD_some]
  have hstrips : strips = (ofSource f).map strip := by
    show decode 0 0 (all p path) = _
    rw [hall, decode_encode (inOrderFrom_ofSource f)]
  have hlexeme : ∀ t ∈ ofSource f, ∃ l ∈ lexemes, l.span.strip? = some t.strip :=
    fun t ht => exists_lexeme (mem_found_of_mem_ofSource ht)
  rw [hall, hstrips]
  refine ⟨encode?_eq (inOrderFrom_ofSource f), ?_, ?_, ?_⟩
  · rw [List.pairwise_map]
    refine (pairwise_ofSource f).imp_of_mem ?_
    intro a b ha hb hbefore
    refine ⟨hbefore, ?_⟩
    obtain ⟨l, hl, hl'⟩ := hlexeme a ha
    obtain ⟨m, hm, hm'⟩ := hlexeme b hb
    rcases Lexed.strips_apart hl hm hl' hm' with rfl | ⟨-, hends⟩ | hafter
    · -- One lexeme is one strip, which does not start before itself.
      have hsame : a.strip = b.strip := Option.some.inj (hl'.symm.trans hm')
      rw [hsame] at hbefore
      unfold Strip.StartsBefore at hbefore
      omega
    · exact hends
    · rw [startsBefore_iff] at hbefore hafter
      omega
  · intro s hs
    obtain ⟨t, ht, rfl⟩ := List.mem_map.mp hs
    obtain ⟨l, hl, hl'⟩ := hlexeme t ht
    exact ⟨Lexed.countP_strip hl hl', Span.strip_length_pos hl' (Lexed.start_lt_stop hl),
      Lexed.strip_le_size hl hl'⟩
  · intro s
    exact strip_mem_ofSource_iff.trans exists_mem_found_iff

/-- A text with a mistake: what cannot be read has no nodes, but its keywords are sent. A string in
three quotes is a word when it stays on its line. -/
theorem all_decodes_malformed :
    let root : Path := ⟨true, ["p"]⟩
    let text := "x = '''a''' + 0x1F\ny = ) not z\n"
    let source : Source := { overrides := [(buildFile root, text)], opened := [buildFile root] }
    ∃ project cache', Project.parse {} source {} root = .ok (project, cache') ∧
      let p := project.analyze {}
      p.source? (buildFile root) = some (SourceFile.parse text) ∧
        let strips := decode 0 0 (all p (buildFile root))
        (∀ s ∈ [⟨0, 4, 7⟩, ⟨0, 14, 4⟩, ⟨1, 6, 3⟩], s ∈ strips) ∧ ⟨1, 10, 1⟩ ∉ strips := by
  intro root text source
  obtain ⟨project, cache', v, hparse, hview, -, htext⟩ :=
    Project.exists_view source root (buildFile root) {} text (by decide +kernel)
  have hsource := Project.source?_of_view hview
  rw [htext] at hsource
  obtain ⟨-, -, -, hstrips⟩ := all_decodes hsource
  refine ⟨project, cache', hparse, hsource, fun s hs => (hstrips s).mpr ?_, fun hs => ?_⟩
  · revert s
    decide +kernel
  · revert hs
    rw [hstrips]
    decide +kernel

end SemanticToken

end MesonLens
