import MesonLens.Proofs.Token.Locality
import MesonLens.Proofs.Text.Offsets

/-!
# `MesonLens.Proofs.Token.LineFeeds`: which tokens hold the line feeds of a text

Blanks, comments, names, numbers and operators hold no line feed, and a newline token is one. A
string over several lines holds any number of them. A string between single quotes ends at a line
feed, unless a backslash stands right before it: then the string goes over the line
(`Lexeme.CarriesOver`).

* `Lexer.single_taken_escaped`: how a quoted string comes by a line feed. The induction is on the
  characters of the string, and goes over an escape in one step (`Lexer.Escape.read_taken`);
* `Lexer.holdsFeeds_piece`: the line feeds in the text of one token, by the kind of the token;
* `Lexer.count_scan`, `Lexeme.sum_feeds`: every line feed of a text is in one of its tokens;
* `Lexer.openString_scan`: what comes after a quoted string that is not closed;
* `Lexed.covers_lexeme`: the text and the lines that a token covers;
* `Lexed.ofText_lines` puts these together for every text.
-/

set_option autoImplicit false

namespace MesonLens

/-- Every line feed of the characters stands right after a backslash. -/
def FeedsEscaped (cs : List Char) : Prop :=
  ∀ before after, cs = before ++ '\n' :: after → before.getLast? = some '\\'

namespace FeedsEscaped

variable {cs ds : List Char}

theorem of_not_mem (h : '\n' ∉ cs) : FeedsEscaped cs := by
  rintro before after rfl
  exact absurd (List.mem_append_right before List.mem_cons_self) h

theorem append (hcs : FeedsEscaped cs) (hds : FeedsEscaped ds) : FeedsEscaped (cs ++ ds) := by
  intro before after heq
  rcases List.append_eq_append_iff.mp heq with ⟨front, rfl, hfront⟩ | ⟨rest, hrest, hafter⟩
  · -- The line feed is one of `ds`, with a backslash before it that is one of `ds` too.
    rw [List.getLast?_append, hds front after hfront, Option.or]
  · cases rest with
    | nil =>
      rw [List.append_nil] at hrest
      have hlast := hds [] after hafter.symm
      cases hlast
    | cons d rest =>
      obtain ⟨rfl, rfl⟩ := List.cons.inj hafter
      exact hcs before rest hrest

/-- A line feed of the characters has a backslash before it. -/
theorem exists_eq_append (h : FeedsEscaped cs) (hmem : '\n' ∈ cs) :
    ∃ before after, cs = before ++ '\\' :: '\n' :: after := by
  obtain ⟨before, after, rfl⟩ := List.append_of_mem hmem
  obtain ⟨front, hfront⟩ := List.getLast?_eq_some_iff.mp (h before after rfl)
  exact ⟨front, after, by rw [hfront, List.append_assoc, List.singleton_append]⟩

end FeedsEscaped

namespace Token

/-- Whether the token is a string over several lines. -/
def isMultiline : Token → Bool
  | string _ _ multiline => multiline
  | _ => false

/-- Whether the token is a string between single quotes. -/
def isQuoted : Token → Bool
  | string _ _ multiline => !multiline
  | _ => false

/-- Where line feeds may stand in the text of a token. -/
inductive HoldsFeeds : Token → List Char → Prop
  | newline : HoldsFeeds newline ['\n']
  | multiline (value : String) (format : Bool) (cs : List Char) :
      HoldsFeeds (string value format true) cs
  | quoted (value : String) (format : Bool) {cs : List Char} (escaped : FeedsEscaped cs) :
      HoldsFeeds (string value format false) cs
  | other {token : Token} {cs : List Char} (newline : token ≠ .newline)
      (multiline : token.isMultiline = false) (quoted : token.isQuoted = false)
      (none : '\n' ∉ cs) : HoldsFeeds token cs

theorem isMultiline_of_isQuoted {token : Token} (h : token.isQuoted = true) :
    token.isMultiline = false := by
  cases token with
  | string value format multiline => simpa [isQuoted, isMultiline] using h
  | _ => cases h

theorem ne_newline_of_isQuoted {token : Token} (h : token.isQuoted = true) :
    token ≠ newline := by
  rintro rfl
  cases h

end Token

namespace Lexeme

/-- The number of line feeds in the text of a lexeme. -/
def feeds (l : Lexeme) : Nat := l.raw.toList.count '\n'

/-- The lexeme is a quoted string with a backslash right before a line feed. -/
def CarriesOver (l : Lexeme) : Prop :=
  l.token.isQuoted = true ∧ ∃ before after, l.raw.toList = before ++ '\\' :: '\n' :: after

/-- A token other than a newline and a string over several lines holds a line feed only where it
goes over a line. -/
theorem feeds_eq_zero_iff {l : Lexeme} (h : l.token.HoldsFeeds l.raw.toList)
    (hnewline : l.token ≠ .newline) (hmultiline : l.token.isMultiline = false) :
    l.feeds = 0 ↔ ¬ l.CarriesOver := by
  rw [feeds, List.count_eq_zero]
  constructor
  · rintro hnone ⟨-, before, after, hraw⟩
    exact hnone (by rw [hraw]; simp)
  · intro hcarries hmem
    refine hcarries ?_
    rw [CarriesOver]
    generalize l.token = token at h hnewline hmultiline
    generalize l.raw.toList = cs at h hmem
    cases h with
    | newline => exact absurd rfl hnewline
    | multiline value format cs => cases hmultiline
    | quoted value format hescaped => exact ⟨rfl, hescaped.exists_eq_append hmem⟩
    | other _ _ _ hnone => exact absurd hmem hnone

/-- The line feeds of tokens: newlines have one each, and all others stand in strings. -/
theorem sum_feeds (ls : List Lexeme) (h : ∀ l ∈ ls, l.token.HoldsFeeds l.raw.toList) :
    (ls.map feeds).sum = (ls.map token).count .newline +
      ((ls.filter fun l => l.token.isMultiline).map feeds).sum +
      ((ls.filter fun l => l.token.isQuoted).map feeds).sum := by
  induction ls with
  | nil => rfl
  | cons l ls ih =>
    obtain ⟨hl, hls⟩ := List.forall_mem_cons.mp h
    have hfeeds : l.feeds = l.raw.toList.count '\n' := rfl
    rw [List.map_cons, List.sum_cons, List.map_cons, List.count_cons, List.filter_cons,
      List.filter_cons, ih hls]
    generalize l.token = token at hl
    generalize l.raw.toList = cs at hl hfeeds
    cases hl with
    | newline =>
      rw [hfeeds]
      simp [Token.isMultiline, Token.isQuoted]
      omega
    | multiline value format cs =>
      simp [Token.isMultiline, Token.isQuoted]
      omega
    | quoted value format hescaped =>
      simp [Token.isMultiline, Token.isQuoted]
      omega
    | other hnewline hmultiline hquoted hnone =>
      rw [hfeeds, List.count_eq_zero.mpr hnone]
      simp [hnewline, hmultiline, hquoted]

end Lexeme

namespace Lexer

variable {p : Position} {c : Char} {cs : List Char} {token : Token}

/-! ### Strings -/

theorem not_mem_takeWhile_digit (radix n : Nat) (cs : List Char) :
    '\n' ∉ (cs.take n).takeWhile fun c => (digit? radix c).isSome := by
  intro hmem
  have hnone : digit? radix '\n' = none := by
    show (if radix < radix then some radix else none) = none
    exact if_neg (Nat.lt_irrefl radix)
  have hdigit := List.all_eq_true.mp List.all_takeWhile _ hmem
  rw [hnone] at hdigit
  cases hdigit

theorem take_length_takeWhile_take (P : Char → Bool) (n : Nat) (cs : List Char) :
    cs.take ((cs.take n).takeWhile P).length = (cs.take n).takeWhile P :=
  (List.prefix_iff_eq_take.mp ((List.takeWhile_prefix P).trans (List.take_prefix n cs))).symm

theorem hexEscape_take (width : Nat) (c : Char) (cs : List Char) :
    (c :: cs).take (hexEscape width cs).taken =
      c :: (cs.take width).takeWhile fun c => (digit? 16 c).isSome := by
  rw [hexEscape_taken, List.take_succ_cons, take_length_takeWhile_take]

/-- An escape takes one line feed alone, or none. -/
theorem Escape.read_taken (cs : List Char) :
    cs.take (Escape.read cs).taken = ['\n'] ∨ '\n' ∉ cs.take (Escape.read cs).taken := by
  cases cs with
  | nil => exact .inr List.not_mem_nil
  | cons c cs =>
    rw [Escape.read]
    have hone : (c :: cs).take 1 = [c] := rfl
    -- The digits of an escape are no line feeds.
    have hhex : ∀ d width, c = d → d ≠ '\n' → '\n' ∉ (c :: cs).take (hexEscape width cs).taken := by
      rintro d width rfl hd
      rw [hexEscape_take, List.mem_cons, not_or]
      exact ⟨hd.symm, not_mem_takeWhile_digit 16 width cs⟩
    split
    · next meant hmeant =>
      refine .inr ?_
      rw [hone, List.mem_singleton]
      rintro rfl
      cases hmeant
    split
    · refine .inr ?_
      rw [octalEscape, take_length_takeWhile_take]
      exact not_mem_takeWhile_digit 8 3 _
    split
    · next hx => exact .inr (hhex 'x' 2 hx (by decide))
    split
    · next hu => exact .inr (hhex 'u' 4 hu (by decide))
    split
    · next hU => exact .inr (hhex 'U' 8 hU (by decide))
    · rw [hone, List.mem_singleton]
      by_cases hc : c = '\n'
      · exact .inl (congrArg ([·]) hc)
      · exact .inr (Ne.symm hc)

/-- A string between single quotes takes a line feed only as the escape after a backslash. -/
theorem single_taken_escaped (p : Position) (cs : List Char) :
    FeedsEscaped (cs.take (Literal.single p cs).taken) := by
  fun_induction Literal.single p cs with
  | case1 p => exact .of_not_mem List.not_mem_nil
  | case2 p cs => exact .of_not_mem List.not_mem_nil
  | case3 p cs hfeed => exact .of_not_mem (by simp)
  | case4 p cs escape _ _ start stop more ih =>
    have hsplit : ('\\' :: cs).take (escape.taken + more.taken + 1) =
        ('\\' :: cs.take escape.taken) ++ (cs.drop escape.taken).take more.taken := by
      rw [List.take_succ_cons, List.take_add, List.cons_append]
    show FeedsEscaped (('\\' :: cs).take (escape.taken + more.taken + 1))
    rw [hsplit]
    refine .append ?_ ih
    -- A line feed that an escape takes is all of it, right behind the backslash.
    rcases Escape.read_taken cs with htaken | htaken
    · rw [show cs.take escape.taken = ['\n'] from htaken]
      intro before after heq
      rcases before with _ | ⟨d, _ | ⟨e, before⟩⟩
      · exact absurd (List.cons.inj heq).1 (by decide)
      · rw [(List.cons.inj heq).1]
        rfl
      · have hlength := congrArg List.length heq
        simp at hlength
    · refine .of_not_mem ?_
      rw [List.mem_cons, not_or]
      exact ⟨by decide, htaken⟩
  | case5 p c cs hfeed _ _ more ih =>
    show FeedsEscaped ([c] ++ cs.take more.taken)
    exact .append (.of_not_mem (by simpa using Ne.symm hfeed)) ih

/-- A string between single quotes that is not closed goes up to the end of its line. -/
theorem head?_drop_of_not_closed (p : Position) (cs : List Char)
    (h : (Literal.single p cs).closed = false) :
    ∀ d ∈ (cs.drop (Literal.single p cs).taken).head?, d = '\n' := by
  fun_induction Literal.single p cs with
  | case1 p => rintro d ⟨⟩
  | case2 p cs =>
    rintro d ⟨⟩
    rfl
  | case3 p cs hfeed => cases h
  | case4 p cs escape _ _ start stop more ih =>
    have hdrop : ('\\' :: cs).drop (escape.taken + more.taken + 1) =
        (cs.drop escape.taken).drop more.taken := by
      rw [List.drop_succ_cons, List.drop_drop]
    show ∀ d ∈ (('\\' :: cs).drop (escape.taken + more.taken + 1)).head?, d = '\n'
    rw [hdrop]
    exact ih h
  | case5 p c cs _ _ _ more ih => exact ih h

theorem fault_of_single (p : Position) (cs : List Char) :
    ∀ e ∈ (Literal.single p cs).errors, e.fault = .badEscape := by
  fun_induction Literal.single p cs with
  | case1 p => exact List.forall_mem_nil _
  | case2 p cs => exact List.forall_mem_nil _
  | case3 p cs => exact List.forall_mem_nil _
  | case4 p cs escape _ _ start stop more ih =>
    intro e he
    dsimp only at he
    split at he
    · exact ih e he
    · rcases List.mem_cons.mp he with rfl | he
      · rfl
      · exact ih e he
  | case5 p c cs _ _ _ more ih => exact ih

/-! ### Pieces -/

/-- The line feeds of a string; `lead` is the text up to its opening quote. -/
theorem holdsFeeds_stringPiece {inside : Position} {format : Bool} {n : Nat} (lead : List Char)
    (h : (stringPiece p inside format n cs).token = some token) (hn : n + 1 = lead.length)
    (hlead : '\n' ∉ lead) :
    token.HoldsFeeds ((lead ++ cs).take ((stringPiece p inside format n cs).more + 1)) := by
  unfold stringPiece at h ⊢
  split at h
  · cases h
    exact .multiline _ _ _
  · cases h
    refine .quoted _ _ ?_
    have hsplit : ∀ taken, (lead ++ cs).take (n + taken + 1) = lead ++ cs.take taken := by
      intro taken
      rw [Nat.add_right_comm, hn, List.take_length_add_append]
    show FeedsEscaped ((lead ++ cs).take (n + (Literal.single inside cs).taken + 1))
    rw [hsplit]
    exact .append (.of_not_mem hlead) (single_taken_escaped inside cs)

theorem holdsFeeds_operatorPiece (hc : c ≠ '\n')
    (h : (operatorPiece p c cs).token = some token) :
    token.HoldsFeeds (c :: cs.take (operatorPiece p c cs).more) := by
  have htwo : ∀ d token, operator2? c d = some token →
      token ≠ .newline ∧ token.isMultiline = false ∧ token.isQuoted = false := by
    intro d token hd
    unfold operator2? at hd
    split at hd <;> cases hd <;> exact ⟨nofun, rfl, rfl⟩
  have hone : operator1 c ≠ .newline ∧ (operator1 c).isMultiline = false ∧
      (operator1 c).isQuoted = false := by
    unfold operator1
    split <;> exact ⟨nofun, rfl, rfl⟩
  have hsingle : '\n' ∉ [c] := by simpa using hc.symm
  unfold operatorPiece at h ⊢
  split at h
  · next two hfound =>
    cases h
    obtain ⟨d, hd, htoken⟩ := Option.bind_eq_some_iff.mp hfound
    obtain ⟨rest, rfl⟩ := List.head?_eq_some_iff.mp hd
    obtain rfl := eq_of_operator2? htoken
    obtain ⟨hnewline, hmultiline, hquoted⟩ := htwo _ _ htoken
    exact .other hnewline hmultiline hquoted (by simpa using hc.symm)
  · split at h
    · cases h
      exact .other nofun rfl rfl hsingle
    · cases h
      exact .other hone.1 hone.2.1 hone.2.2 hsingle

/-- Letters, digits and underscores hold no line feed. -/
theorem not_mem_of_continuesWord (h : ∀ d ∈ cs, continuesWord d = true) : '\n' ∉ cs := by
  intro hmem
  cases h _ hmem

/-- The line feeds in the text of a token, by the kind of the token. -/
theorem holdsFeeds_piece (h : (piece p c cs).token = some token) :
    token.HoldsFeeds (c :: cs.take (piece p c cs).more) := by
  have hinteger : ∀ value, token = .integer value → '\n' ∉ c :: cs.take (piece p c cs).more := by
    rintro value rfl
    obtain ⟨hc, hchars, -⟩ := endsBefore_integer value p c cs h
    exact not_mem_of_continuesWord hchars
  unfold piece at h hinteger ⊢
  -- The first character tells what is read. Each kind is tried after those before it were ruled
  -- out.
  by_cases hfeed : c = '\n'
  · simp only [if_pos hfeed] at h ⊢
    cases h
    rw [hfeed]
    exact .newline
  simp only [if_neg hfeed] at h hinteger ⊢
  split at h
  · cases h
  split at h
  · cases h
  next hblank hcomment =>
  simp only [if_neg hblank, if_neg hcomment] at hinteger ⊢
  split at h
  · next hquote =>
    rw [if_pos hquote]
    exact holdsFeeds_stringPiece [c] h rfl (by simpa using Ne.symm hfeed)
  next hquote =>
  rw [if_neg hquote] at hinteger ⊢
  split at h
  · next hformat =>
    rw [if_pos hformat]
    obtain ⟨tail, rfl⟩ := List.head?_eq_some_iff.mp hformat.2
    exact holdsFeeds_stringPiece [c, '\''] h rfl (by simpa using Ne.symm hfeed)
  next hformat =>
  rw [if_neg hformat] at hinteger ⊢
  split at h
  · next hdigit =>
    rw [if_pos hdigit] at hinteger ⊢
    have hvalue : ∃ value, token = .integer value := by
      unfold numberPiece at h
      dsimp only at h
      split at h <;> cases h <;> exact ⟨_, rfl⟩
    obtain ⟨value, rfl⟩ := hvalue
    exact .other nofun rfl rfl (hinteger value rfl)
  next hdigit =>
  rw [if_neg hdigit]
  split at h
  · next hword =>
    rw [if_pos hword]
    cases h
    have hkind : ∀ word, Token.ofWord word ≠ .newline ∧ (Token.ofWord word).isMultiline = false ∧
        (Token.ofWord word).isQuoted = false := by
      intro word
      unfold Token.ofWord
      split <;> exact ⟨nofun, rfl, rfl⟩
    obtain ⟨hnewline, hmultiline, hquoted⟩ :=
      hkind (String.ofList (c :: cs.takeWhile continuesWord))
    refine .other hnewline hmultiline hquoted (not_mem_of_continuesWord ?_)
    have htail : cs.take (cs.takeWhile continuesWord).length = cs.takeWhile continuesWord :=
      (List.prefix_iff_eq_take.mp (List.takeWhile_prefix _)).symm
    refine List.forall_mem_cons.mpr ⟨continuesWord_of_startsWord hword, ?_⟩
    dsimp only
    rw [htail]
    exact fun d hd => List.all_eq_true.mp List.all_takeWhile d hd
  · next hword =>
    rw [if_neg hword]
    exact holdsFeeds_operatorPiece hfeed h

/-- Blanks and comments hold no line feed. -/
theorem not_mem_piece (h : (piece p c cs).token = none) :
    '\n' ∉ c :: cs.take (piece p c cs).more := by
  rw [List.mem_cons, not_or]
  rcases piece_of_token_eq_none h with ⟨hblank, hmore⟩ | ⟨rfl, hmore⟩
  · refine ⟨?_, by rw [hmore]; exact List.not_mem_nil⟩
    rcases hblank with rfl | rfl | rfl <;> decide
  · refine ⟨by decide, fun hmem => ?_⟩
    rw [hmore, (List.prefix_iff_eq_take.mp (List.takeWhile_prefix _)).symm] at hmem
    simpa using List.all_eq_true.mp List.all_takeWhile _ hmem

/-- Where a quoted string is not closed, its line or the text ends. -/
theorem openString_piece {e : SyntaxError} (he : e ∈ (piece p c cs).errors)
    (hfault : e.fault = .openString) :
    ∃ token, (piece p c cs).token = some token ∧ token.isQuoted = true ∧
      e.span = ⟨p, p.after (c :: cs.take (piece p c cs).more)⟩ ∧
      ∀ d ∈ (cs.drop (piece p c cs).more).head?, d = '\n' := by
  -- Both kinds of strings are the same piece behind another lead.
  have hstring : ∀ lead format n rest, lead.length = n + 1 → lead ++ rest = c :: cs →
      e ∈ (stringPiece p (p.after lead) format n rest).errors →
      ∃ token, (stringPiece p (p.after lead) format n rest).token = some token ∧
        token.isQuoted = true ∧
        e.span = ⟨p, p.after (c :: cs.take (stringPiece p (p.after lead) format n rest).more)⟩ ∧
        ∀ d ∈ (cs.drop (stringPiece p (p.after lead) format n rest).more).head?, d = '\n' := by
    intro lead format n rest hn hsplit he
    have htake : ∀ taken, c :: cs.take (n + taken) = lead ++ rest.take taken := by
      intro taken
      rw [← List.take_succ_cons, ← hsplit, Nat.add_right_comm, ← hn, List.take_length_add_append]
    have hdrop : ∀ taken, cs.drop (n + taken) = rest.drop taken := by
      intro taken
      rw [← List.drop_succ_cons (a := c), ← hsplit, Nat.add_right_comm, ← hn,
        List.drop_length_add_append]
    unfold stringPiece at he ⊢
    split at he
    · dsimp only at he
      split at he
      · cases he
      · rw [List.mem_singleton.mp he] at hfault
        cases hfault
    · rcases List.mem_append.mp he with he | he
      · rw [fault_of_single _ _ e he] at hfault
        cases hfault
      · split at he
        · cases he
        · next hclosed =>
          refine ⟨_, rfl, rfl, ?_, ?_⟩
          · rw [List.mem_singleton.mp he]
            dsimp only
            rw [htake, Position.after_append]
          · dsimp only
            rw [hdrop]
            exact head?_drop_of_not_closed _ _ (by simpa using hclosed)
  unfold piece at he ⊢
  split at he
  · cases he
  split at he
  · cases he
  split at he
  · cases he
  next hfeed hblank hcomment =>
  rw [if_neg hfeed, if_neg hblank, if_neg hcomment]
  split at he
  · next hquote =>
    rw [if_pos hquote]
    exact hstring [c] false 0 cs rfl rfl he
  next hquote =>
  rw [if_neg hquote]
  split at he
  · next hformat =>
    rw [if_pos hformat]
    obtain ⟨tail, rfl⟩ := List.head?_eq_some_iff.mp hformat.2
    exact hstring [c, '\''] true 1 tail rfl rfl he
  next hformat =>
  split at he
  · unfold numberPiece at he
    dsimp only at he
    split at he
    · cases he
    · rw [List.mem_singleton.mp he] at hfault
      cases hfault
  split at he
  · cases he
  · unfold operatorPiece at he
    split at he
    · cases he
    · split at he
      · rw [List.mem_singleton.mp he] at hfault
        cases hfault
      · cases he

/-! ### Texts -/

/-- The line feeds of a text are those of its tokens. -/
theorem count_scan (p : Position) (cs : List Char) :
    cs.count '\n' = ((scan p cs).lexemes.map Lexeme.feeds).sum := by
  fun_induction scan p cs with
  | case1 p => rfl
  | case2 p c cs head taken stop rest ih =>
    have hsplit : c :: cs = taken ++ cs.drop head.more := by
      rw [List.cons_append, List.take_append_drop]
    rw [hsplit, List.count_append, ih]
    cases htoken : head.token with
    | none =>
      rw [List.count_eq_zero.mpr (not_mem_piece htoken), Nat.zero_add]
    | some token =>
      rw [List.map_cons, List.sum_cons, Lexeme.feeds, String.toList_ofList]

/-- After a quoted string that is not closed there is nothing, or a line feed. -/
theorem openString_scan (p : Position) (cs : List Char) :
    ∀ e ∈ (scan p cs).errors, e.fault = .openString →
      ∃ l ∈ (scan p cs).lexemes, l.token.isQuoted = true ∧ l.span = e.span ∧
        ∃ before after, cs = before ++ after ∧ p.after before = e.span.stop ∧
          ∀ d ∈ after.head?, d = '\n' := by
  fun_induction scan p cs with
  | case1 p => exact List.forall_mem_nil _
  | case2 p c cs head taken stop rest ih =>
    intro e he hfault
    have hsplit : c :: cs = taken ++ cs.drop head.more := by
      rw [List.cons_append, List.take_append_drop]
    rcases List.mem_append.mp he with he | he
    · obtain ⟨token, htoken, hquoted, hspan, hafter⟩ := openString_piece he hfault
      rw [show head.token = some token from htoken]
      refine ⟨_, List.mem_cons_self, hquoted, hspan.symm, taken, cs.drop head.more, hsplit, ?_,
        hafter⟩
      rw [hspan]
    · obtain ⟨l, hl, hquoted, hspan, before, after, hrest, hstop, hafter⟩ := ih e he hfault
      refine ⟨l, ?_, hquoted, hspan, taken ++ before, after, ?_, ?_, hafter⟩
      · cases head.token with
        | none => exact hl
        | some token => exact List.mem_cons_of_mem _ hl
      · rw [hsplit, hrest, List.append_assoc]
      · rw [Position.after_append, ← hstop]

end Lexer

/-- A token covers its text, and ends as many lines further down as its text has line feeds. -/
theorem Lexed.covers_lexeme {text : String} {l : Lexeme} (hl : l ∈ (Lexed.ofText text).lexemes) :
    l.token.HoldsFeeds l.raw.toList ∧
      Text.slice? text l.span.start.offset l.span.stop.offset = some l.raw ∧
      l.span.stop.line = l.span.start.line + l.feeds := by
  obtain ⟨ls, ms, hsplit⟩ := List.append_of_mem hl
  -- The lexeme is the piece that the lexer reads when it comes to its place.
  obtain ⟨before, c, rest, es, htext, -, htoken, hlexeme⟩ := Lexer.comesTo_of_lexemes ls hsplit
  generalize hmore : (Lexer.piece (Position.after {} before) c rest).more = more at hlexeme
  have hholds := Lexer.holdsFeeds_piece htoken
  rw [hmore] at hholds
  have hoffset : ∀ cs, (Position.after {} cs).offset = byteLength cs := fun cs => by
    rw [Position.offset_after, Nat.zero_add]
  have htext' : text.toList = before ++ ((c :: rest.take more) ++ rest.drop more) := by
    rw [htext, List.cons_append, List.take_append_drop]
  rw [hlexeme]
  refine ⟨?_, ?_, ?_⟩
  · rwa [String.toList_ofList]
  · dsimp only
    rw [hoffset, hoffset, Text.slice?_append htext']
  · dsimp only
    rw [Position.after_append, Position.line_after, Lexeme.feeds, String.toList_ofList]

/-- A line end leads to the next line. -/
theorem Lexed.line_newline (text : String) {l : Lexeme} (hl : l ∈ (Lexed.ofText text).lexemes)
    (hnewline : l.token = .newline) : l.span.stop.line = l.span.start.line + 1 := by
  obtain ⟨hholds, -, hline⟩ := Lexed.covers_lexeme hl
  rw [hnewline] at hholds
  have hraw : l.raw.toList = ['\n'] := by
    generalize l.raw.toList = raw at hholds
    cases hholds with
    | newline => rfl
    | other hne => exact absurd rfl hne
  rw [hline, Lexeme.feeds, hraw]
  rfl

/-- Which tokens hold the line feeds of a text, for every text.

* A token covers its text, and ends as many lines further down as its text has line feeds. Of the
  tokens other than newlines and strings over several lines, those stand on one line that are no
  quoted string with a backslash right before a line feed.
* Every line feed of the text is a newline token or stands in a string. Newlines and strings over
  several lines have them all if and only if no quoted string goes over a line.
* A quoted string that is not closed ends where the text ends or a line feed follows. -/
theorem Lexed.ofText_lines (text : String) :
    let lexed := Lexed.ofText text
    let newlines := (lexed.lexemes.map Lexeme.token).count .newline
    let feeds (kind : Token → Bool) :=
      ((lexed.lexemes.filter fun l => kind l.token).map Lexeme.feeds).sum
    (∀ l ∈ lexed.lexemes,
      Text.slice? text l.span.start.offset l.span.stop.offset = some l.raw ∧
      l.token.HoldsFeeds l.raw.toList ∧
      l.span.stop.line = l.span.start.line + l.feeds ∧
      (l.token ≠ .newline → l.token.isMultiline = false →
        (l.span.isSingleLine = true ↔ ¬ l.CarriesOver))) ∧
    text.toList.count '\n' =
      newlines + feeds Token.isMultiline + feeds Token.isQuoted ∧
    (text.toList.count '\n' = newlines + feeds Token.isMultiline ↔
      ∀ l ∈ lexed.lexemes, ¬ l.CarriesOver) ∧
    ∀ e ∈ lexed.errors, e.fault = .openString →
      ∃ l ∈ lexed.lexemes, l.token.isQuoted = true ∧ l.span = e.span ∧
        ∃ before after, text.toList = before ++ after ∧
          byteLength before = e.span.stop.offset ∧ ∀ c ∈ after.head?, c = '\n' := by
  intro lexed newlines feeds
  have hlexemes := fun l (hl : l ∈ lexed.lexemes) => Lexed.covers_lexeme hl
  have hcount : text.toList.count '\n' =
      newlines + feeds Token.isMultiline + feeds Token.isQuoted :=
    (Lexer.count_scan {} text.toList).trans
      (Lexeme.sum_feeds lexed.lexemes fun l hl => (hlexemes l hl).1)
  refine ⟨fun l hl => ?_, hcount, ?_, fun e he hfault => ?_⟩
  · obtain ⟨hholds, hslice, hline⟩ := hlexemes l hl
    refine ⟨hslice, hholds, hline, fun hnewline hmultiline => ?_⟩
    rw [← Lexeme.feeds_eq_zero_iff hholds hnewline hmultiline, Span.isSingleLine, beq_iff_eq,
      hline]
    omega
  · -- Quoted strings hold no line feed when none of them goes over a line.
    have hzero : feeds Token.isQuoted = 0 ↔ ∀ l ∈ lexed.lexemes, ¬ l.CarriesOver := by
      rw [List.sum_eq_zero_iff]
      simp only [List.mem_map, List.mem_filter, forall_exists_index, and_imp]
      constructor
      · intro hfeeds l hl hcarries
        have hquoted := hcarries.1
        have hfeeds := hfeeds _ l hl hquoted rfl
        exact (Lexeme.feeds_eq_zero_iff (hlexemes l hl).1 (Token.ne_newline_of_isQuoted hquoted)
          (Token.isMultiline_of_isQuoted hquoted)).mp hfeeds hcarries
      · rintro hcarries _ l hl hquoted rfl
        exact (Lexeme.feeds_eq_zero_iff (hlexemes l hl).1 (Token.ne_newline_of_isQuoted hquoted)
          (Token.isMultiline_of_isQuoted hquoted)).mpr (hcarries l hl)
    rw [← hzero, hcount]
    omega
  · obtain ⟨l, hl, hquoted, hspan, before, after, htext, hstop, hafter⟩ :=
      Lexer.openString_scan {} text.toList e he hfault
    refine ⟨l, hl, hquoted, hspan, before, after, htext, ?_, hafter⟩
    rw [← hstop, Position.offset_after, Nat.zero_add]

/-- A backslash at the end of a line takes the string to the next line. The string is not closed,
and the line that follows it is lost. -/
theorem Lexed.ofText_string_over_lines :
    let text := "x = 'a\\\ny = 1\n"
    let lexed := Lexed.ofText text
    lexed.lexemes.map (fun l => (l.token, l.span.start.line, l.span.stop.line)) =
      [(.name "x", 0, 0), (.assign, 0, 0), (.string "a\\\ny = 1" false false, 0, 1),
        (.newline, 1, 2)] ∧
    lexed.errors.map SyntaxError.fault = [.openString] ∧ text.toList.count '\n' = 2 := by
  decide +kernel

end MesonLens
