import MesonLens.Text.Composition
import MesonLens.Text.Direction
import MesonLens.Text.Joining
import MesonLens.Text.Mark
import MesonLens.Files.Domain.Treatment
import MesonLens.Files.Domain.Spelling

/-!
# `MesonLens.Files.Domain`: names of machines

A machine has a name of labels between full stops. Names are compared without
regard to case and to other ways in which one character can look. A label that
starts with `xn--` stands for the characters that it spells.

* `Domain.label?`: a label in the form in which labels are compared;
* `Domain.read?`: a name in the form in which names are compared.
-/

set_option autoImplicit false

namespace MesonLens.Domain

/-! ### Characters -/

/-- Whether a character has one byte. -/
def isPlain (c : Char) : Bool := c.toNat < 0x80

/-- Characters of one byte that no name has. -/
def isForbidden (c : Char) : Bool :=
  c.toNat ≤ 0x20 || c.toNat = 0x7f
    || ['#', '/', ':', '<', '>', '?', '@', '[', '\\', ']', '^', '|', '%'].contains c

/-- The characters of a text as they are read in a name, in their one form. A
text of one-byte characters is in that form. -/
def fold? (text : List Char) : Option (List Char) := do
  let cs := (← text.mapM Treatment.toChars?).flatten
  pure (if cs.all isPlain then cs else Composition.canonical cs)

/-! ### Labels -/

/-- The most characters that can be spelled. -/
def maxLength : Nat := 1000

/-- The most letters and digits that can spell characters. -/
def maxSpelling : Nat := 2000

/-- Whether marks and unseen characters stand where they may: no label starts
with a mark. -/
def isLabel (cs : List Char) : Bool :=
  !cs.head?.any Mark.isMark && Joining.allowsJoiners [] cs

/-- The characters of a label that is spelled. They are in the form in which they
are compared, and letters and digits alone do not write them. -/
def spelled? (cs : List Char) : Option (List Char) := do
  guard (cs.all isPlain && cs.length ≤ maxSpelling)
  let found ← Spelling.spelled? cs
  guard (!found.all isPlain && !found.any isForbidden)
  guard (found.all fun c => Treatment.ofChar c = .kept)
  guard (Composition.canonical found = found)
  guard (isLabel found)
  pure found

/-- A label in the form in which labels are compared. -/
def label? (cs : List Char) : Option (List Char) :=
  match cs with
  | 'x' :: 'n' :: '-' :: '-' :: rest => spelled? rest
  | cs =>
    if cs.all isPlain || (isLabel cs && cs.length ≤ maxLength) then some cs else none

/-! ### Names -/

/-- Whether every label runs one way only. This matters only when a character of
the name is written from right to left. -/
def isSteady (labels : List (List Char)) : Bool :=
  let directions := labels.map fun label => label.map Direction.ofChar
  !(directions.any fun ds => ds.any Direction.turns) || directions.all Direction.isSteady

/-- A name in the form in which names are compared; nothing when it is no name. -/
def read? (text : List Char) : Option String := do
  let cs ← fold? text
  guard (!cs.isEmpty && !cs.any isForbidden)
  let labels ← (cs.splitOnP (· == '.')).mapM label?
  guard (labels.all (·.all isPlain) || isSteady labels)
  pure (String.intercalate "." (labels.map String.ofList))

end MesonLens.Domain
