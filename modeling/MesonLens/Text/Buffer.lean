import MesonLens.Text.Position

/-!
# `MesonLens.Text.Buffer`: a text that is edited

An editor tells its changes by line and column. In a buffer a line ends with a
line feed, a carriage return, both together, or one of the other characters of
`endsLine`.

* `Buffer.index`: how many characters stand before a line and column;
* `Buffer.apply`: the text after a change.
-/

set_option autoImplicit false

namespace MesonLens.Buffer

/-- The characters that end a line: line feed, vertical tab, form feed, carriage
return, next line, line separator and paragraph separator. -/
def endsLine (c : Char) : Bool :=
  let n := c.toNat
  (0x0a ≤ n && n ≤ 0x0d) || n == 0x85 || n == 0x2028 || n == 0x2029

/-- How many characters stand before a line, and the text from there on;
nothing when there is no such line. -/
def skipLines : Nat → Nat → List Char → Option (Nat × List Char)
  | 0, passed, cs => some (passed, cs)
  | _ + 1, _, [] => none
  -- A carriage return and the line feed after it end one line together.
  | lines + 1, passed, '\r' :: '\n' :: cs => skipLines lines (passed + 2) cs
  | lines + 1, passed, c :: cs =>
    skipLines (if endsLine c then lines else lines + 1) (passed + 1) cs

/-- How many characters of a line stand before a column. A line feed or carriage
return at the end of the line is never passed, any other character that ends it
is, and a column inside a character counts as the column before it. -/
def columnIndex : Nat → List Char → Nat
  | _, [] => 0
  | column, c :: cs =>
    if c = '\n' ∨ c = '\r' ∨ column < units16 c then 0
    else if endsLine c then 1
    else 1 + columnIndex (column - units16 c) cs

/-- How many characters stand before a line and column. A column past its line
is cut back to the line's end, a line past the last one to the text's end. -/
def index (cs : List Char) (line column : Nat) : Nat :=
  match skipLines line 0 cs with
  | some (passed, rest) => passed + columnIndex column rest
  | none => cs.length

/-- A stretch of a buffer by lines and columns. -/
structure Extent where
  startLine : Nat
  startColumn : Nat
  stopLine : Nat
  stopColumn : Nat
  deriving DecidableEq, Repr

/-- A change: new text for a stretch, or for everything. -/
structure Change where
  extent : Option Extent
  text : String
  deriving Repr

/-- The text after a change. The ends of the stretch may come in either order. -/
def apply (text : String) (change : Change) : String :=
  match change.extent with
  | none => change.text
  | some e =>
    let cs := text.toList
    let a := index cs e.startLine e.startColumn
    let b := index cs e.stopLine e.stopColumn
    String.ofList (cs.take (min a b)) ++ change.text ++ String.ofList (cs.drop (max a b))

end MesonLens.Buffer
