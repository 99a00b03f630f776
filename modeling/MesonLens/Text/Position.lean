/-!
# `MesonLens.Text.Position`: places in a source text

A place in a text is told three ways at once: by line, by column in UTF-16
units (the unit editors count in) and by byte offset.

* `Position` and `Position.next`: a place, and the place one character
  further on;
* `Position.ofOffset` and `Position.toOffset`: from bytes to lines and back;
* `Span`: a half-open stretch between two places;
* `Text.slice?`: the characters between two byte offsets.
-/

set_option autoImplicit false

namespace MesonLens

/-- The number of UTF-16 units a character takes. -/
def units16 (c : Char) : Nat :=
  if c.val < 0x10000 then 1 else 2

/-- The number of bytes the characters take in UTF-8. -/
def byteLength : List Char → Nat
  | [] => 0
  | c :: cs => c.utf8Size + byteLength cs

/-- A place in a text. Lines and columns count from zero. -/
structure Position where
  line : Nat := 0
  /-- UTF-16 units from the start of the line. -/
  column : Nat := 0
  /-- Bytes from the start of the text. -/
  offset : Nat := 0
  deriving DecidableEq, Repr, Inhabited

namespace Position

/-- The place right after the character `c` that stands at `p`. Only a line
feed starts a new line. -/
def next (p : Position) (c : Char) : Position :=
  if c = '\n' then ⟨p.line + 1, 0, p.offset + c.utf8Size⟩
  else ⟨p.line, p.column + units16 c, p.offset + c.utf8Size⟩

/-- The place right after the characters `cs` that start at `p`. -/
def after (p : Position) (cs : List Char) : Position :=
  cs.foldl next p

/-- Before, by line and then by column. -/
def precedes (p : Position) (line column : Nat) : Bool :=
  p.line < line || (p.line == line && p.column < column)

/-- After, by line and then by column. -/
def follows (p : Position) (line column : Nat) : Bool :=
  line < p.line || (p.line == line && column < p.column)

/-- The place after every character of `cs` that starts before byte `offset`,
when `cs` starts at `p`. -/
def seek (offset : Nat) (p : Position) : List Char → Position
  | [] => p
  | c :: cs => if offset ≤ p.offset then p else seek offset (p.next c) cs

/-- The line and column of a byte offset. An offset inside a character counts
that character, and one past the end is cut back to the end. -/
def ofOffset (text : String) (offset : Nat) : Position :=
  { seek offset {} text.toList with offset := min offset text.utf8ByteSize }

/-- The rest of the text from the start of line `line`, with the byte offset
of that start; nothing when no character stands on the line. -/
def lineStart : Nat → Nat → List Char → Option (Nat × List Char)
  | _, _, [] => none
  | 0, offset, cs => some (offset, cs)
  | line + 1, offset, c :: cs =>
    lineStart (if c = '\n' then line else line + 1) (offset + c.utf8Size) cs

/-- The byte offset of a column on a line that starts at `offset`. The line
ends at its first carriage return or line feed. -/
def columnOffset (offset : Nat) : Nat → List Char → Nat
  | _, [] => offset
  | column, c :: cs =>
    if column = 0 ∨ c = '\n' ∨ c = '\r' then offset
    else columnOffset (offset + c.utf8Size) (column - units16 c) cs

/-- The byte offset of a line and column. A column past the end of its line is
cut back to the line's end, a line past the last one to the text's end. -/
def toOffset (text : String) (line column : Nat) : Nat :=
  match lineStart line 0 text.toList with
  | some (offset, cs) => columnOffset offset column cs
  | none => text.utf8ByteSize

/-- The place as people count: lines and columns from one. -/
def display (p : Position) : String :=
  s!"{p.line + 1}:{p.column + 1}"

end Position

/-- A half-open stretch of text, from `start` up to `stop`. -/
structure Span where
  start : Position := {}
  stop : Position := {}
  deriving DecidableEq, Repr, Inhabited

namespace Span

/-- The empty stretch at a place. -/
def empty (p : Position) : Span := ⟨p, p⟩

/-- The smallest stretch that covers both, compared by byte offset. -/
def join (a b : Span) : Span where
  start := if a.start.offset ≤ b.start.offset then a.start else b.start
  stop := if b.stop.offset ≤ a.stop.offset then a.stop else b.stop

/-- Whether a line and column lie inside; the end does not. -/
def contains (s : Span) (line column : Nat) : Bool :=
  !s.start.follows line column && s.stop.follows line column

/-- Whether the other stretch lies inside, compared by byte offset. -/
def containsSpan (a b : Span) : Bool :=
  a.start.offset ≤ b.start.offset && b.stop.offset ≤ a.stop.offset

/-- The number of bytes covered; a stretch that runs backwards covers none. -/
def length (s : Span) : Nat := s.stop.offset - s.start.offset

/-- Whether nothing is covered. -/
def isEmpty (s : Span) : Bool := s.length == 0

/-- Whether both ends stand on one line. -/
def isSingleLine (s : Span) : Bool := s.start.line == s.stop.line

/-- The stretch as people count; the line is told once when both ends share it. -/
def display (s : Span) : String :=
  if s.isSingleLine then s!"{s.start.display}-{s.stop.column + 1}"
  else s!"{s.start.display}-{s.stop.display}"

end Span

namespace Text

/-- The characters after the first `n` bytes; nothing when byte `n` is inside
a character or past the end. -/
def dropBytes? : Nat → List Char → Option (List Char)
  | 0, cs => some cs
  | _ + 1, [] => none
  | n + 1, c :: cs => if c.utf8Size ≤ n + 1 then dropBytes? (n + 1 - c.utf8Size) cs else none

/-- The characters of the first `n` bytes; nothing when byte `n` is inside a
character or past the end. -/
def takeBytes? : Nat → List Char → Option (List Char)
  | 0, _ => some []
  | _ + 1, [] => none
  | n + 1, c :: cs =>
    if c.utf8Size ≤ n + 1 then (takeBytes? (n + 1 - c.utf8Size) cs).map (c :: ·) else none

/-- The text between two byte offsets; nothing when one of them is not at a
character boundary or they are out of order. -/
def slice? (text : String) (start stop : Nat) : Option String := do
  guard (start ≤ stop)
  let cs ← dropBytes? start text.toList
  let taken ← takeBytes? (stop - start) cs
  pure (String.ofList taken)

/-- The text a stretch covers, empty when its ends are not at character
boundaries. -/
def covered (text : String) (s : Span) : String :=
  (slice? text s.start.offset s.stop.offset).getD ""

end Text

end MesonLens
