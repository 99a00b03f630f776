import MesonLens.Syntax.Tree
import MesonLens.Token.Lexer

/-!
# `MesonLens.Syntax.Cursor`: where the parser stands

The parser reads lexemes through a `Cursor`. A line end counts as a token only
outside brackets, so looking at the next token passes over line ends while a
bracket is open.

* `Reading`: steps that cannot fail;
* `Parse`: steps that can, and leave the cursor where they failed;
* `recover`: the rest of a line that could not be read becomes one node.
-/

set_option autoImplicit false

namespace MesonLens

/-- Where the parser stands. -/
structure Cursor where
  /-- What is still to be read. -/
  rest : List Lexeme
  /-- What was passed last. -/
  last : Option Lexeme := none
  /-- How many brackets are open. -/
  depth : Nat := 0
  /-- The end of the text. -/
  eof : Position
  /-- What was found wrong so far, oldest first. -/
  errors : List SyntaxError := []
  deriving Repr

/-- A parsing step that cannot fail. -/
abbrev Reading := StateM Cursor

/-- A parsing step that can fail. -/
abbrev Parse := ExceptT SyntaxError Reading

namespace Cursor

/-- Whether the next token, looking past nothing, is the given one. -/
def isAt (c : Cursor) (t : Token) : Bool :=
  c.rest.head?.any (·.token = t)

/-- The line ends at the head of a text are passed. -/
def passLines (last : Option Lexeme) : List Lexeme → Option Lexeme × List Lexeme
  | [] => (last, [])
  | l :: ls => if l.token = .newline then passLines (some l) ls else (last, l :: ls)

/-- Inside brackets, the cursor after the line ends ahead. -/
def settle (c : Cursor) : Cursor :=
  if c.depth = 0 then c
  else
    let (last, rest) := passLines c.last c.rest
    { c with last, rest }

/-- The cursor after one lexeme, whatever it is. -/
def pass (c : Cursor) : Cursor :=
  match c.rest with
  | [] => c
  | l :: ls => { c with last := some l, rest := ls }

/-- How many brackets are open after a token. -/
def depthAfter (depth : Nat) (t : Token) : Nat :=
  if t.opens then depth + 1 else if t.closes then depth - 1 else depth

/-- The cursor after the rest of a line, which ends at a line end even inside
brackets. -/
def skipLine (c : Cursor) : Cursor :=
  let skipped := c.rest.takeWhile (·.token ≠ .newline)
  { c with
    depth := 0
    last := skipped.getLast?.or c.last
    rest := c.rest.dropWhile (·.token ≠ .newline) }

/-- The stretch of what was passed last. -/
def lastSpan (c : Cursor) : Span :=
  (c.last.map Lexeme.span).getD {}

end Cursor

namespace Parse

/-- The next lexeme, which stays unread. -/
def peek : Reading (Option Lexeme) := do
  modify Cursor.settle
  return (← get).rest.head?

/-- The token after the next one. -/
def peekSecond : Reading (Option Token) := do
  modify Cursor.settle
  let c ← get
  let after := c.rest.tail
  let after := if c.depth = 0 then after else (Cursor.passLines none after).2
  return after.head?.map Lexeme.token

/-- The stretch of the next token, empty at the end of the text. -/
def here : Reading Span := do
  let next ← peek
  return (next.map Lexeme.span).getD (Span.empty (← get).eof)

/-- Reads the next lexeme and keeps count of brackets. -/
def advance : Reading (Option Lexeme) := do
  let next ← peek
  match next with
  | none => return none
  | some l =>
    modify fun c => { c.pass with depth := Cursor.depthAfter c.depth l.token }
    return some l

/-- Reads the next lexeme if its token is the given one. -/
def eat (t : Token) : Reading (Option Span) := do
  match ← peek with
  | some l => if l.token = t then do discard advance; return some l.span else return none
  | none => return none

/-- Notes an error and goes on. -/
def report (fault : Fault) (span : Span) : Reading Unit :=
  modify fun c => { c with errors := c.errors ++ [⟨fault, span⟩] }

/-- The error that the next token is not what was wanted. -/
def unexpected (wanted : Wanted) : Reading SyntaxError := do
  let span ← here
  let next ← peek
  return ⟨.expected wanted (next.map Lexeme.token), span⟩

/-- Fails because the next token is not what was wanted. -/
def failWanting {α : Type} (wanted : Wanted) : Parse α := do
  throw (← unexpected wanted)

/-- Reads the given token or fails, telling what was wanted. -/
def expectAs (t : Token) (wanted : Wanted) : Parse Span := do
  match ← eat t with
  | some span => return span
  | none => failWanting wanted

/-- Reads the given token or fails. -/
def expect (t : Token) : Parse Span := expectAs t (.token t)

/-- Turns the text since `start` into one node that reaches to the end of the
line. At least one token is passed unless a line or the text ends at once. -/
def recover (start : List Lexeme) (error : SyntaxError) : Reading (Tree Span) := do
  modify fun c =>
    -- A token at which nothing was read is passed, or the parser would stay there.
    let c := if c.rest.length = start.length ∧ !c.isAt .newline then c.pass else c
    let c := c.skipLine
    { c with errors := c.errors ++ [error] }
  let c ← get
  let span :=
    if c.rest.length < start.length then
      ((start.head?.map Lexeme.span).getD error.span).join c.lastSpan
    else error.span
  return .malformed span error.fault

end Parse

end MesonLens
