import MesonLens.Syntax.Fault

/-!
# `MesonLens.Token.Lexer`: from text to tokens

`Lexed.ofText` cuts a text into lexemes. It never fails: a malformed literal
still gives a token, with an error beside it.

* `piece`: the token at the head of a text, told by how many characters it
  covers beyond the first;
* `scan`: piece after piece up to the end;
* `Escape.read`, `Literal`: the inside of string literals.
-/

set_option autoImplicit false

namespace MesonLens

/-- A token where it stands, with the text it was written as. -/
structure Lexeme where
  token : Token
  span : Span
  raw : String
  deriving DecidableEq, Repr

/-- The lexemes of a text and what is wrong with them, both in text order. -/
structure Lexed where
  lexemes : List Lexeme := []
  errors : List SyntaxError := []
  deriving DecidableEq, Repr

namespace Lexer

/-- A letter or underscore starts a word; only ASCII letters count. -/
def startsWord (c : Char) : Bool := c.isAlpha || c == '_'

/-- A word goes on with letters, digits and underscores. -/
def continuesWord (c : Char) : Bool := c.isAlphanum || c == '_'

/-- The largest integer a literal may denote. -/
def maxInteger : Nat := 0x7fffffffffffffff

/-- The value of a digit of either case in radix `radix`. -/
def digit? (radix : Nat) (c : Char) : Option Nat :=
  let value :=
    if '0' ≤ c ∧ c ≤ '9' then c.toNat - '0'.toNat
    else if 'a' ≤ c ∧ c ≤ 'z' then c.toNat - 'a'.toNat + 10
    else if 'A' ≤ c ∧ c ≤ 'Z' then c.toNat - 'A'.toNat + 10
    else radix
  if value < radix then some value else none

/-- The number that digits write, continuing from `acc`; nothing when one of
them is no digit of the radix. -/
def digits? (radix : Nat) : Nat → List Char → Option Nat
  | acc, [] => some acc
  | acc, c :: cs => do
    let value ← digit? radix c
    digits? radix (acc * radix + value) cs

/-- The integer that digits write: at least one digit, and no value past the
largest integer. -/
def integer? (radix : Nat) (digits : List Char) : Option Nat := do
  guard !digits.isEmpty
  let value ← digits? radix 0 digits
  guard (value ≤ maxInteger)
  pure value

/-- The radix of a number by its first two characters, with the length of the
mark that tells it. -/
def radixOf : Char → List Char → Nat × Nat
  | '0', c :: _ =>
    if c = 'x' ∨ c = 'X' then (16, 2)
    else if c = 'o' ∨ c = 'O' then (8, 2)
    else if c = 'b' ∨ c = 'B' then (2, 2)
    else (10, 0)
  | _, _ => (10, 0)

/-- What the characters after a backslash stand for. -/
structure Escape where
  /-- How many characters the escape takes after the backslash. -/
  taken : Nat
  text : List Char
  valid : Bool := true

/-- The character of a number, where there is one. -/
def char? (n : Nat) : Option Char :=
  if n.isValidChar then some (Char.ofNat n) else none

/-- An escape of `width` hexadecimal digits after its letter. Digits up to the
first one missing are taken even when the escape is not valid. -/
def hexEscape (width : Nat) (cs : List Char) : Escape :=
  let digits := (cs.take width).takeWhile fun c => (digit? 16 c).isSome
  let decoded := if digits.length = width then (digits? 16 0 digits).bind char? else none
  match decoded with
  | some c => { taken := digits.length + 1, text := [c] }
  | none => { taken := digits.length + 1, text := [], valid := false }

/-- An escape of one to three octal digits. -/
def octalEscape (cs : List Char) : Escape :=
  let digits := (cs.take 3).takeWhile fun c => (digit? 8 c).isSome
  { taken := digits.length, text := ((digits? 8 0 digits).bind char?).toList }

/-- The character that a one-letter escape stands for. -/
def simpleEscape? : Char → Option Char
  | 'n' => some '\n'
  | 't' => some '\t'
  | 'r' => some '\r'
  | 'a' => some '\x07'
  | 'b' => some '\x08'
  | 'f' => some '\x0c'
  | 'v' => some '\x0b'
  | '\\' => some '\\'
  | '\'' => some '\''
  | _ => none

/-- Reads the escape after a backslash. An unknown escape stands for itself. -/
def Escape.read : List Char → Escape
  | [] => { taken := 0, text := ['\\'] }
  | c :: cs =>
    match simpleEscape? c with
    | some meant => { taken := 1, text := [meant] }
    | none =>
      if (digit? 8 c).isSome then octalEscape (c :: cs)
      else if c = 'x' then hexEscape 2 cs
      else if c = 'u' then hexEscape 4 cs
      else if c = 'U' then hexEscape 8 cs
      -- This includes a line end, which the string then goes over.
      else { taken := 1, text := ['\\', c] }

/-- The inside of a string literal. -/
structure Literal where
  /-- How many characters the literal takes after its opening quotes, its
  closing quotes included. -/
  taken : Nat
  value : List Char
  closed : Bool
  errors : List SyntaxError := []

/-- Reads a string up to its closing quote. A line end or the end of the text
leaves it open, and is not taken. -/
def Literal.single (p : Position) : List Char → Literal
  | [] => { taken := 0, value := [], closed := false }
  | c :: cs =>
    if c = '\n' then { taken := 0, value := [], closed := false }
    else if c = '\'' then { taken := 1, value := [], closed := true }
    else if c = '\\' then
      let start := p.next c
      let escape := Escape.read cs
      let stop := start.after (cs.take escape.taken)
      let more := single stop (cs.drop escape.taken)
      { taken := escape.taken + more.taken + 1
        value := escape.text ++ more.value
        closed := more.closed
        errors := if escape.valid then more.errors else ⟨.badEscape, ⟨start, stop⟩⟩ :: more.errors }
    else
      let more := single (p.next c) cs
      { more with taken := more.taken + 1, value := c :: more.value }
  termination_by cs => cs.length
  decreasing_by all_goals simp only [List.length_cons, List.length_drop]; omega

/-- Reads a string verbatim up to three quotes in a row. -/
def Literal.multiline : List Char → Literal
  | [] => { taken := 0, value := [], closed := false }
  | '\'' :: '\'' :: '\'' :: _ => { taken := 3, value := [], closed := true }
  | c :: cs =>
    let more := multiline cs
    { more with taken := more.taken + 1, value := c :: more.value }

/-- What stands at the head of a text. -/
structure Piece where
  /-- How many characters it covers beyond the first. -/
  more : Nat
  /-- Its token; blanks and comments have none. -/
  token : Option Token
  errors : List SyntaxError := []

/-- A string literal that starts at `p`. The text after the opening quote is
`cs`; `lead` counts the characters up to that quote beyond the first. -/
def stringPiece (p inside : Position) (format : Bool) (lead : Nat) (cs : List Char) : Piece :=
  match cs with
  -- Two more quotes open a string over several lines, never an empty string.
  | '\'' :: '\'' :: body =>
    let literal := Literal.multiline body
    let more := lead + 2 + literal.taken
    let stop := inside.after (cs.take (2 + literal.taken))
    { more
      token := some (.string (String.ofList literal.value) format true)
      errors := if literal.closed then [] else [⟨.openMultiline, ⟨p, stop⟩⟩] }
  | _ =>
    let literal := Literal.single inside cs
    let stop := inside.after (cs.take literal.taken)
    { more := lead + literal.taken
      token := some (.string (String.ofList literal.value) format false)
      errors := literal.errors ++ if literal.closed then [] else [⟨.openString, ⟨p, stop⟩⟩] }

/-- A number: its radix mark and every letter and digit that follows. -/
def numberPiece (p : Position) (c : Char) (cs : List Char) : Piece :=
  let (radix, mark) := radixOf c cs
  -- Letters that are no digits belong to the number too, and make it malformed.
  let digits := ((c :: cs).drop mark).takeWhile Char.isAlphanum
  let raw := (c :: cs).take (mark + digits.length)
  match integer? radix digits with
  | some value => { more := raw.length - 1, token := some (.integer value) }
  | none =>
    { more := raw.length - 1
      token := some (.integer 0)
      errors := [⟨.badInteger (String.ofList raw), ⟨p, p.after raw⟩⟩] }

/-- The two-character operator that two characters write. -/
def operator2? : Char → Char → Option Token
  | '=', '=' => some .eq
  | '!', '=' => some .ne
  | '>', '=' => some .ge
  | '<', '=' => some .le
  | '+', '=' => some .addAssign
  | '-', '=' => some .subAssign
  | '*', '=' => some .mulAssign
  | '/', '=' => some .divAssign
  | '%', '=' => some .modAssign
  | _, _ => none

/-- The token of one character that is no part of a word, number or string. -/
def operator1 : Char → Token
  | '(' => .lparen
  | ')' => .rparen
  | '[' => .lbracket
  | ']' => .rbracket
  | '\x7b' => .lbrace
  | '\x7d' => .rbrace
  | '.' => .dot
  | ':' => .colon
  | ',' => .comma
  | '?' => .question
  | '=' => .assign
  | '>' => .gt
  | '<' => .lt
  | '+' => .add
  | '-' => .sub
  | '*' => .mul
  | '/' => .div
  | '%' => .mod
  | c => .unknown c

/-- An operator or separator, two characters long where two make one. -/
def operatorPiece (p : Position) (c : Char) (cs : List Char) : Piece :=
  match cs.head?.bind (operator2? c) with
  | some token => { more := 1, token := some token }
  | none =>
    match operator1 c with
    | .unknown c =>
      { more := 0
        token := some (.unknown c)
        errors := [⟨.strayCharacter c, ⟨p, p.next c⟩⟩] }
    | token => { more := 0, token := some token }

/-- What stands at the head of the text `c :: cs`, which starts at `p`. -/
def piece (p : Position) (c : Char) (cs : List Char) : Piece :=
  if c = '\n' then { more := 0, token := some .newline }
  else if c = ' ' ∨ c = '\t' ∨ c = '\r' then { more := 0, token := none }
  else if c = '#' then { more := (cs.takeWhile (· ≠ '\n')).length, token := none }
  else if c = '\'' then stringPiece p (p.next c) false 0 cs
  else if c = 'f' ∧ cs.head? = some '\'' then
    stringPiece p ((p.next c).next '\'') true 1 cs.tail
  else if c.isDigit then numberPiece p c cs
  else if startsWord c then
    let tail := cs.takeWhile continuesWord
    { more := tail.length, token := some (Token.ofWord (String.ofList (c :: tail))) }
  else operatorPiece p c cs

/-- Every lexeme of a text that starts at `p`. -/
def scan (p : Position) : List Char → Lexed
  | [] => {}
  | c :: cs =>
    let head := piece p c cs
    let taken := c :: cs.take head.more
    let stop := p.after taken
    let rest := scan stop (cs.drop head.more)
    { lexemes :=
        match head.token with
        | some token => ⟨token, ⟨p, stop⟩, String.ofList taken⟩ :: rest.lexemes
        | none => rest.lexemes
      errors := head.errors ++ rest.errors }
  termination_by cs => cs.length
  decreasing_by simp only [List.length_cons, List.length_drop]; omega

end Lexer

/-- The lexemes of a text. -/
def Lexed.ofText (text : String) : Lexed :=
  Lexer.scan {} text.toList

end MesonLens
