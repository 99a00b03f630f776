import MesonLens.Token.Lexer
import MesonLens.Editor.CodeAction
import Mathlib

/-!
# `MesonLens.Proofs.Token.Spelling`: tokens are written and read back

`Token.spelling` writes a token as text, and `Token.render` writes a list of tokens with a blank
after each. The lexer looks ahead: one character tells `=` from `==`, a name from the mark of a
format string, and a number from its radix; two tell an empty string from the start of a string over
several lines. A blank ends all of these, so each token can be read back on its own:
`Lexer.ReadsAs` says that a text is read as a token when a blank follows, whatever comes after.

* `Lexer.integer?_toDigits`: the digits of a number in a base;
* `Lexer.single_escaped`, `Lexer.multiline_verbatim`: the two kinds of strings. The inside is read
  by induction on the value;
* `Lexer.readsAs_spelling`: every token that can be written (`Token.Writable`);
* `Token.tokens_ofText_render`: lists of tokens.
-/

set_option autoImplicit false

namespace MesonLens

open CodeAction (Base)

namespace Token

/-! ### Writing -/

/-- How a character of a string is written between single quotes. -/
def escaped (c : Char) : List Char :=
  if c = '\\' then ['\\', '\\']
  else if c = '\'' then ['\\', '\'']
  else if c = '\n' then ['\\', 'n']
  else [c]

/-- How a token is written. A number is written in some base. -/
def spelling (base : Base) : Token → List Char
  | string value format false =>
    (if format then ['f'] else []) ++ ('\'' :: value.toList.flatMap escaped ++ ['\''])
  | string value format true =>
    (if format then ['f'] else []) ++
      (['\'', '\'', '\''] ++ value.toList ++ ['\'', '\'', '\''])
  | integer value => (base.write value).toList
  | newline => ['\n']
  | t => t.display.toList

/-- The words that are no names. -/
def reserved : List String :=
  ["if", "elif", "else", "endif", "foreach", "endforeach", "break", "continue", "and", "or", "not",
    "in", "true", "false"]

/-- Whether the characters are a letter or underscore, and then letters, digits and underscores. -/
def isWord : List Char → Bool
  | [] => false
  | c :: cs => (c.isAlpha || c == '_') && cs.all fun d => d.isAlphanum || d == '_'

/-- The tokens that a text can be written for. -/
def Writable : Token → Prop
  | name text => isWord text.toList ∧ text ∉ reserved
  | integer value => value < 2 ^ 63
  | string value _ true =>
    ¬ ['\'', '\'', '\''] <:+: value.toList ∧ value.toList.getLast? ≠ some '\''
  | unknown _ => False
  | _ => True

/-- Tokens as text, each in its spelling and with a blank after it. -/
def render (written : List (Token × Base)) : String :=
  String.ofList (written.flatMap fun w => w.1.spelling w.2 ++ [' '])

end Token

namespace Lexer

/-! ### Reading one token -/

/-- When a blank follows, the characters are read as the token, and nothing is wrong with them. -/
def ReadsAs (token : Token) (cs : List Char) : Prop :=
  ∃ c tail, cs = c :: tail ∧ ∀ p rest,
    piece p c (tail ++ ' ' :: rest) = { more := tail.length, token := some token }

theorem ofWord_of_not_mem_reserved {text : String} (h : text ∉ Token.reserved) :
    Token.ofWord text = .name text := by
  unfold Token.ofWord
  split
  case h_15 => rfl
  all_goals exact absurd (by simp [Token.reserved]) h

theorem isDigit_eq_false_of_startsWord {c : Char} (h : startsWord c = true) :
    c.isDigit = false := by
  simp only [startsWord, Char.isAlpha, Char.isUpper, Char.isLower, Bool.or_eq_true,
    Bool.and_eq_true, decide_eq_true_eq, beq_iff_eq, UInt32.le_iff_toNat_le] at h
  simp only [Char.isDigit, Bool.and_eq_false_iff, decide_eq_false_iff_not, UInt32.le_iff_toNat_le]
  rcases h with (h | h) | rfl
  · have hlow : 'A'.val.toNat = 65 := rfl
    have hhigh : '9'.val.toNat = 57 := rfl
    omega
  · have hlow : 'a'.val.toNat = 97 := rfl
    have hhigh : '9'.val.toNat = 57 := rfl
    omega
  · decide

theorem continuesWord_of_startsWord {c : Char} (h : startsWord c = true) :
    continuesWord c = true := by
  simp only [startsWord, continuesWord, Char.isAlphanum, Bool.or_eq_true] at h ⊢
  exact h.imp_left .inl

theorem continuesWord_of_isAlphanum {c : Char} (h : c.isAlphanum = true) :
    continuesWord c = true := by
  rw [continuesWord, h, Bool.true_or]

/-- A letter, digit or underscore starts a number or a word, unless it marks a format string. -/
theorem piece_of_continuesWord {c : Char} {cs : List Char} (hc : continuesWord c = true)
    (hformat : c = 'f' → cs.head? ≠ some '\'') (p : Position) :
    piece p c cs =
      if c.isDigit then numberPiece p c cs
      else if startsWord c then
        { more := (cs.takeWhile continuesWord).length
          token := some (Token.ofWord (String.ofList (c :: cs.takeWhile continuesWord))) }
      else operatorPiece p c cs := by
  have hne : ∀ d, continuesWord d = false → c ≠ d := by
    rintro d hd rfl
    rw [hc] at hd
    cases hd
  have hblank : ¬ (c = ' ' ∨ c = '\t' ∨ c = '\r') := by
    rintro (h | h | h)
    · exact hne ' ' rfl h
    · exact hne '\t' rfl h
    · exact hne '\r' rfl h
  unfold piece
  rw [if_neg (hne '\n' rfl), if_neg hblank, if_neg (hne '#' rfl), if_neg (hne '\'' rfl),
    if_neg fun h => hformat h.1 h.2]

/-- A word ends at a blank. -/
theorem readsAs_word {c : Char} {tail : List Char} (hc : startsWord c = true)
    (htail : ∀ d ∈ tail, continuesWord d = true) :
    ReadsAs (Token.ofWord (String.ofList (c :: tail))) (c :: tail) := by
  refine ⟨c, tail, rfl, fun p rest => ?_⟩
  have hword : (tail ++ ' ' :: rest).takeWhile continuesWord = tail := by
    rw [List.takeWhile_append_of_pos htail, List.takeWhile_cons_of_neg (by decide), List.append_nil]
  have hquote : (tail ++ ' ' :: rest).head? ≠ some '\'' := by
    cases tail with
    | nil => exact fun h => absurd (Option.some.inj h) (by decide)
    | cons d tail =>
      intro h
      have hd := htail d List.mem_cons_self
      rw [Option.some.inj h] at hd
      exact absurd hd (by decide)
  rw [piece_of_continuesWord (continuesWord_of_startsWord hc) (fun _ => hquote),
    isDigit_eq_false_of_startsWord hc, if_neg Bool.false_ne_true, if_pos hc, hword]

theorem readsAs_name {text : String} (hword : Token.isWord text.toList = true)
    (hname : text ∉ Token.reserved) : ReadsAs (.name text) text.toList := by
  cases htext : text.toList with
  | nil =>
    rw [htext] at hword
    cases hword
  | cons c tail =>
    rw [htext, Token.isWord, Bool.and_eq_true, List.all_eq_true] at hword
    have hreads := readsAs_word hword.1 hword.2
    rwa [← htext, String.ofList_toList, ofWord_of_not_mem_reserved hname, htext] at hreads

/-! ### Numbers -/

theorem digits?_append {radix : Nat} {cs ds : List Char} {acc value : Nat}
    (h : digits? radix acc cs = some value) :
    digits? radix acc (cs ++ ds) = digits? radix value ds := by
  induction cs generalizing acc with
  | nil => rw [Option.some.inj h, List.nil_append]
  | cons c cs ih =>
    obtain ⟨d, hd, hrest⟩ := Option.bind_eq_some_iff.mp h
    rw [List.cons_append, digits?, hd]
    exact ih hrest

theorem digit?_digitChar {radix d : Nat} (hradix : radix ≤ 16) (hd : d < radix) :
    digit? radix (Nat.digitChar d) = some d := by
  have hall : ∀ radix < 17, ∀ d < radix, digit? radix (Nat.digitChar d) = some d := by decide
  exact hall radix (by omega) d hd

/-- The digits of a number are read back, by induction from the last one. -/
theorem digits?_toDigits {radix : Nat} (hlow : 1 < radix) (hhigh : radix ≤ 16) (n : Nat) :
    digits? radix 0 (Nat.toDigits radix n) = some n := by
  have hone : ∀ acc d, d < radix →
      digits? radix acc [Nat.digitChar d] = some (acc * radix + d) := by
    intro acc d hd
    rw [digits?, digit?_digitChar hhigh hd]
    rfl
  induction n using Nat.strongRecOn with
  | ind n ih =>
    rw [Nat.toDigits_eq_if hlow]
    split
    · next hn => rw [hone 0 n hn, Nat.zero_mul, Nat.zero_add]
    · next hn =>
      have hsmaller : n / radix < n := Nat.div_lt_self (by omega) hlow
      rw [digits?_append (ih _ hsmaller), hone _ _ (Nat.mod_lt _ (by omega)), Nat.mul_comm,
        Nat.div_add_mod]

theorem integer?_toDigits {radix n : Nat} (hlow : 1 < radix) (hhigh : radix ≤ 16)
    (hn : n < 2 ^ 63) : integer? radix (Nat.toDigits radix n) = some n := by
  have hmax : n ≤ maxInteger := Nat.le_of_lt_succ hn
  have hsome : (Nat.toDigits radix n).isEmpty = false :=
    List.isEmpty_eq_false_iff.mpr Nat.toDigits_ne_nil
  simp [integer?, digits?_toDigits hlow hhigh, hsome, hmax]

theorem isAlphanum_of_mem_toDigits {radix : Nat} (hlow : 1 < radix) (hhigh : radix ≤ 16) {n : Nat} :
    ∀ c ∈ Nat.toDigits radix n, c.isAlphanum = true := by
  have hall : ∀ d < 16, (Nat.digitChar d).isAlphanum = true := by decide
  induction n using Nat.strongRecOn with
  | ind n ih =>
    rw [Nat.toDigits_eq_if hlow]
    split
    · next hn => exact List.forall_mem_singleton.mpr (hall n (by omega))
    · next hn =>
      have hsmaller : n / radix < n := Nat.div_lt_self (by omega) hlow
      have hlast : n % radix < radix := Nat.mod_lt _ (by omega)
      exact List.forall_mem_append.mpr ⟨ih _ hsmaller,
        List.forall_mem_singleton.mpr (hall _ (by omega))⟩

/-- A number is its mark and its digits, up to a blank. -/
theorem piece_number {radix n : Nat} {c : Char} {tail digits : List Char} (mark : List Char)
    (hsplit : c :: tail = mark ++ digits) (hc : c.isDigit = true)
    (hradix : ∀ rest, radixOf c (tail ++ ' ' :: rest) = (radix, mark.length))
    (hdigits : ∀ d ∈ digits, d.isAlphanum = true) (hvalue : integer? radix digits = some n)
    (p : Position) (rest : List Char) :
    piece p c (tail ++ ' ' :: rest) = { more := tail.length, token := some (.integer n) } := by
  have htext : c :: (tail ++ ' ' :: rest) = mark ++ (digits ++ ' ' :: rest) := by
    rw [← List.cons_append, hsplit, List.append_assoc]
  have htake : (digits ++ ' ' :: rest).takeWhile Char.isAlphanum = digits := by
    rw [List.takeWhile_append_of_pos hdigits, List.takeWhile_cons_of_neg (by decide),
      List.append_nil]
  have hmore : (c :: (tail ++ ' ' :: rest)).take (mark.length + digits.length) = c :: tail := by
    rw [← List.cons_append, hsplit, ← List.length_append, List.take_left]
  have hword : continuesWord c = true :=
    continuesWord_of_isAlphanum (by rw [Char.isAlphanum, hc, Bool.or_true])
  have hformat : c = 'f' → (tail ++ ' ' :: rest).head? ≠ some '\'' := by
    rintro rfl
    cases hc
  rw [piece_of_continuesWord hword hformat, if_pos hc, numberPiece, hradix]
  dsimp only
  rw [htext, List.drop_left, htake, hvalue, ← htext, hmore]
  rfl

/-- Before a digit or a blank, a digit starts a decimal number. -/
theorem radixOf_decimal {c : Char} {tail : List Char} (h : ∀ d ∈ tail, d.isDigit = true)
    (rest : List Char) : radixOf c (tail ++ ' ' :: rest) = (10, 0) := by
  unfold radixOf
  split
  · next d more htail =>
    have hd : d.isDigit = true ∨ d = ' ' := by
      cases tail with
      | nil => exact .inr (List.cons.inj htail).1.symm
      | cons e tail => exact .inl ((List.cons.inj htail).1 ▸ h e List.mem_cons_self)
    -- The second character is a digit or a blank, and so no letter that marks a base.
    have hne : ∀ m, m.isDigit = false → m ≠ ' ' → d ≠ m := by
      rintro m hm hblank rfl
      rcases hd with hd | hd
      · rw [hm] at hd
        cases hd
      · exact hblank hd
    have hx := hne 'x' rfl (by decide)
    have hX := hne 'X' rfl (by decide)
    have ho := hne 'o' rfl (by decide)
    have hO := hne 'O' rfl (by decide)
    have hb := hne 'b' rfl (by decide)
    have hB := hne 'B' rfl (by decide)
    simp [hx, hX, ho, hO, hb, hB]
  · rfl

/-- A number in a base is read back. -/
theorem readsAs_integer (base : Base) {n : Nat} (hn : n < 2 ^ 63) :
    ReadsAs (.integer n) (base.write n).toList := by
  -- The three bases that are marked by a letter are read alike.
  have hmarked : ∀ radix letter, 1 < radix → radix ≤ 16 →
      (∀ rest, radixOf '0' (letter :: rest) = (radix, 2)) →
      ReadsAs (.integer n) ('0' :: letter :: Nat.toDigits radix n) := by
    intro radix letter hlow hhigh hradix
    refine ⟨'0', letter :: Nat.toDigits radix n, rfl, ?_⟩
    exact piece_number ['0', letter] rfl rfl (fun rest => hradix _)
      (isAlphanum_of_mem_toDigits hlow hhigh) (integer?_toDigits hlow hhigh hn)
  unfold Base.write
  rw [String.toList_append, String.toList_ofList]
  cases base with
  | hexadecimal => exact hmarked 16 'x' (by decide) (by decide) fun _ => rfl
  | octal => exact hmarked 8 'o' (by decide) (by decide) fun _ => rfl
  | binary => exact hmarked 2 'b' (by decide) (by decide) fun _ => rfl
  | decimal =>
    show ReadsAs (.integer n) (Nat.toDigits 10 n)
    have hdigits : ∀ d ∈ Nat.toDigits 10 n, d.isDigit = true := fun d hd =>
      Nat.isDigit_of_mem_toDigits (by decide) (by decide) hd
    have hsome : Nat.toDigits 10 n ≠ [] := Nat.toDigits_ne_nil
    obtain ⟨c, tail, htail⟩ := List.exists_cons_of_ne_nil hsome
    rw [htail, List.forall_mem_cons] at hdigits
    refine ⟨c, tail, htail, ?_⟩
    exact piece_number [] htail.symm hdigits.1 (radixOf_decimal hdigits.2)
      (isAlphanum_of_mem_toDigits (by decide) (by decide))
      (integer?_toDigits (by decide) (by decide) hn)

/-! ### Strings -/

/-- An escape of one letter stands for its character. -/
theorem single_escape {d meant : Char} (h : simpleEscape? d = some meant) (p : Position)
    (cs : List Char) :
    Literal.single p ('\\' :: d :: cs) =
      let more := Literal.single ((p.next '\\').next d) cs
      { more with taken := more.taken + 2, value := meant :: more.value } := by
  have hread : Escape.read (d :: cs) = { taken := 1, text := [meant] } := by
    rw [Escape.read, h]
  rw [Literal.single, if_neg (by decide), if_neg (by decide), if_pos rfl, hread]
  simp [Position.after]
  omega

/-- A character that needs no escape stands for itself. -/
theorem single_plain {c : Char} (hline : c ≠ '\n') (hquote : c ≠ '\'') (hescape : c ≠ '\\')
    (p : Position) (cs : List Char) :
    Literal.single p (c :: cs) =
      let more := Literal.single (p.next c) cs
      { more with taken := more.taken + 1, value := c :: more.value } := by
  rw [Literal.single, if_neg hline, if_neg hquote, if_neg hescape]

/-- A character is written as an escape that stands for it, or as it is. -/
theorem escaped_cases (c : Char) :
    (∃ d, Token.escaped c = ['\\', d] ∧ simpleEscape? d = some c) ∨
      Token.escaped c = [c] ∧ c ≠ '\n' ∧ c ≠ '\'' ∧ c ≠ '\\' := by
  unfold Token.escaped
  split
  · next h => exact .inl ⟨'\\', rfl, by rw [h]; rfl⟩
  split
  · next h => exact .inl ⟨'\'', rfl, by rw [h]; rfl⟩
  split
  · next h => exact .inl ⟨'n', rfl, by rw [h]; rfl⟩
  · next hescape hquote hline => exact .inr ⟨rfl, hline, hquote, hescape⟩

/-- A string that is escaped is read back up to its closing quote. -/
theorem single_escaped (p : Position) (value rest : List Char) :
    Literal.single p (value.flatMap Token.escaped ++ '\'' :: rest) =
      { taken := (value.flatMap Token.escaped).length + 1, value, closed := true } := by
  induction value generalizing p with
  | nil =>
    rw [List.flatMap_nil, List.nil_append, Literal.single, if_neg (by decide), if_pos rfl]
    rfl
  | cons c value ih =>
    rw [List.flatMap_cons, List.append_assoc, List.length_append]
    rcases escaped_cases c with ⟨d, hwritten, hmeant⟩ | ⟨hwritten, hline, hquote, hescape⟩
    · rw [hwritten, List.cons_append, List.singleton_append, single_escape hmeant, ih]
      simp
      omega
    · rw [hwritten, List.singleton_append, single_plain hline hquote hescape, ih]
      simp
      omega

/-- A string is read verbatim up to its closing quotes, when these are the first three in a row. -/
theorem multiline_verbatim {value : List Char} (htriple : ¬ ['\'', '\'', '\''] <:+: value)
    (hlast : value.getLast? ≠ some '\'') (rest : List Char) :
    Literal.multiline (value ++ '\'' :: '\'' :: '\'' :: rest) =
      { taken := value.length + 3, value, closed := true } := by
  induction value with
  | nil => rfl
  | cons c value ih =>
    -- Three quotes in a row do not start inside the value.
    have hnext : ∀ more, c = '\'' →
        value ++ '\'' :: '\'' :: '\'' :: rest = '\'' :: '\'' :: more → False := by
      rintro more rfl hmore
      match value, hmore, htriple, hlast with
      | [], _, _, hlast => exact hlast rfl
      | [d], hmore, _, hlast =>
        obtain ⟨rfl, -⟩ := List.cons.inj hmore
        exact hlast rfl
      | d :: e :: value, hmore, htriple, _ =>
        obtain ⟨rfl, hsecond⟩ := List.cons.inj hmore
        obtain ⟨rfl, -⟩ := List.cons.inj hsecond
        exact htriple ⟨[], value, rfl⟩
    have hvalue : Literal.multiline (value ++ '\'' :: '\'' :: '\'' :: rest) =
        { taken := value.length + 3, value, closed := true } := by
      refine ih (fun h => htriple (h.trans (List.suffix_cons c value).isInfix)) fun h => hlast ?_
      rw [List.getLast?_cons, h, Option.getD_some]
    rw [List.cons_append, Literal.multiline]
    · rw [hvalue]
      rfl
    · exact hnext

/-- What is read as a string after its opening quote is read as a string with the quote, and with
the mark of a format string before it. -/
theorem readsAs_of_stringPiece {token : Token} {format : Bool} {inside : List Char}
    (h : ∀ p q lead rest, stringPiece p q format lead (inside ++ ' ' :: rest) =
      { more := lead + inside.length, token := some token }) :
    ReadsAs token ((if format then ['f'] else []) ++ '\'' :: inside) := by
  cases format with
  | false =>
    refine ⟨'\'', inside, rfl, fun p rest => ?_⟩
    show stringPiece p (p.next '\'') false 0 (inside ++ ' ' :: rest) = _
    rw [h, Nat.zero_add]
  | true =>
    refine ⟨'f', '\'' :: inside, rfl, fun p rest => ?_⟩
    show stringPiece p ((p.next 'f').next '\'') true 1 (inside ++ ' ' :: rest) = _
    rw [h, Nat.add_comm, List.length_cons]

/-- Between single quotes, a string does not start with two more quotes. -/
theorem readsAs_escaped (value : List Char) (format : Bool) :
    ReadsAs (.string (String.ofList value) format false)
      ((if format then ['f'] else []) ++ '\'' :: (value.flatMap Token.escaped ++ ['\''])) := by
  refine readsAs_of_stringPiece fun p q lead rest => ?_
  have hopen : ∀ body, value.flatMap Token.escaped ++ '\'' :: ' ' :: rest = '\'' :: '\'' :: body →
      False := by
    intro body hbody
    cases value with
    | nil => exact absurd (List.cons.inj (List.cons.inj hbody).2).1 (by decide)
    | cons c value =>
      rw [List.flatMap_cons, List.append_assoc] at hbody
      rcases escaped_cases c with ⟨d, hwritten, -⟩ | ⟨hwritten, -, hquote, -⟩
      · rw [hwritten] at hbody
        exact absurd (List.cons.inj hbody).1 (by decide)
      · rw [hwritten] at hbody
        exact hquote (List.cons.inj hbody).1
  rw [List.append_assoc, List.singleton_append, stringPiece, single_escaped, List.length_append]
  · rfl
  · exact hopen

theorem readsAs_verbatim {value : List Char} (htriple : ¬ ['\'', '\'', '\''] <:+: value)
    (hlast : value.getLast? ≠ some '\'') (format : Bool) :
    ReadsAs (.string (String.ofList value) format true)
      ((if format then ['f'] else []) ++
        '\'' :: '\'' :: '\'' :: (value ++ ['\'', '\'', '\''])) := by
  refine readsAs_of_stringPiece fun p q lead rest => ?_
  rw [List.cons_append, List.cons_append, List.append_assoc, List.cons_append, List.cons_append,
    List.singleton_append, stringPiece, multiline_verbatim htriple hlast]
  simp
  omega

/-! ### Every token -/

/-- A token that can be written is read back. -/
theorem readsAs_spelling (base : Base) {token : Token} (h : token.Writable) :
    ReadsAs token (token.spelling base) := by
  cases token with
  | string value format multiline =>
    cases multiline with
    | false =>
      have hreads := readsAs_escaped value.toList format
      rwa [String.ofList_toList] at hreads
    | true =>
      have hreads := readsAs_verbatim h.1 h.2 format
      rwa [String.ofList_toList] at hreads
  | integer value => exact readsAs_integer base h
  | name text => exact readsAs_name h.1 h.2
  | boolean value => cases value <;> exact ⟨_, _, rfl, fun _ _ => rfl⟩
  | unknown c => exact h.elim
  | _ => exact ⟨_, _, rfl, fun _ _ => rfl⟩

/-- A token that is read takes its place among the lexemes, and no error is noted. -/
theorem scan_of_readsAs {token : Token} {cs : List Char} (h : ReadsAs token cs) (p : Position)
    (rest : List Char) :
    ∃ q, (scan p (cs ++ ' ' :: rest)).lexemes.map Lexeme.token =
        token :: (scan q rest).lexemes.map Lexeme.token ∧
      (scan p (cs ++ ' ' :: rest)).errors = (scan q rest).errors := by
  obtain ⟨c, tail, rfl, hpiece⟩ := h
  refine ⟨((p.after (c :: tail)).next ' '), ?_⟩
  have hblank : ∀ q, scan q (' ' :: rest) = scan (q.next ' ') rest := by
    intro q
    rw [scan]
    rfl
  rw [List.cons_append, scan, hpiece]
  dsimp only
  rw [List.drop_left, List.take_left, hblank]
  exact ⟨rfl, rfl⟩

end Lexer

/-- Tokens that are written with a blank after each are read back as they were, and nothing is wrong
with their text. A number may be written in any base. -/
theorem Token.tokens_ofText_render (written : List (Token × Base))
    (h : ∀ w ∈ written, w.1.Writable) :
    let lexed := Lexed.ofText (Token.render written)
    lexed.lexemes.map Lexeme.token = written.map Prod.fst ∧ lexed.errors = [] := by
  have hscan : ∀ p, (Lexer.scan p (written.flatMap fun w => w.1.spelling w.2 ++ [' '])).lexemes.map
      Lexeme.token = written.map Prod.fst ∧
      (Lexer.scan p (written.flatMap fun w => w.1.spelling w.2 ++ [' '])).errors = [] := by
    induction written with
    | nil =>
      intro p
      rw [List.flatMap_nil, Lexer.scan]
      exact ⟨rfl, rfl⟩
    | cons w written ih =>
      intro p
      obtain ⟨hw, hrest⟩ := List.forall_mem_cons.mp h
      rw [List.flatMap_cons, List.append_assoc, List.singleton_append]
      obtain ⟨q, htokens, herrors⟩ := Lexer.scan_of_readsAs (Lexer.readsAs_spelling w.2 hw) p
        (written.flatMap fun w => w.1.spelling w.2 ++ [' '])
      rw [htokens, herrors, (ih hrest q).1, (ih hrest q).2]
      exact ⟨rfl, rfl⟩
  unfold Lexed.ofText Token.render
  rw [String.toList_ofList]
  exact hscan {}

/-- Tokens whose first characters are alike: the name `f` and a format string, an empty string and
one over several lines, which has quotes in it, `=` and `==`, and two numbers that start with `0`. -/
theorem Token.tokens_ofText_render_lookahead :
    let written : List (Token × Base) :=
      [(.name "f", .decimal), (.string "" false false, .decimal),
        (.string "\\x41'\nπ" true false, .decimal), (.eq, .decimal), (.assign, .decimal),
        (.string "''a\n" false true, .decimal), (.newline, .decimal),
        (.integer (2 ^ 63 - 1), .hexadecimal), (.integer 0, .decimal)]
    (∀ w ∈ written, w.1.Writable) ∧
      (Lexed.ofText (Token.render written)).lexemes.map Lexeme.token = written.map Prod.fst ∧
      (Lexed.ofText (Token.render written)).errors = [] := by
  intro written
  have h : ∀ w ∈ written, w.1.Writable := by
    simp only [written, List.forall_mem_cons, List.not_mem_nil, Token.Writable, false_imp_iff,
      implies_true, true_and, and_true]
    decide
  exact ⟨h, Token.tokens_ofText_render written h⟩

end MesonLens
