/-!
# `MesonLens.Text.CodeTable`: tables of characters

Properties of characters are kept as rows of words. A word is a number in sixteen
digits or a range of them, perhaps with a class behind a colon.

* `CodeTable.ranges`: rows of ranges;
* `CodeTable.classified`: rows of ranges with classes;
* `CodeTable.within`, `CodeTable.classOf?`: looking a character up.
-/

set_option autoImplicit false

namespace MesonLens.CodeTable

/-- The value of a digit; letters stand in lower case. -/
def digit (c : Char) : Nat :=
  if c.isDigit then c.toNat - '0'.toNat else c.toNat - 'a'.toNat + 10

/-- A number in sixteen digits. -/
def number (cs : List Char) : Nat := cs.foldl (fun sum c => sum * 16 + digit c) 0

/-- The character with a number in sixteen digits. -/
def character (cs : List Char) : Char := Char.ofNat (number cs)

/-- The words of rows. -/
def words (rows : List String) : List (List Char) :=
  rows.flatMap fun row => row.toList.splitOnP (· == ' ')

/-- A range, or a number alone. -/
def range (word : List Char) : Nat × Nat :=
  let low := number (word.takeWhile (· ≠ '-'))
  match word.dropWhile (· ≠ '-') with
  | _ :: high => (low, number high)
  | [] => (low, low)

/-- Rows of ranges. -/
def ranges (rows : List String) : List (Nat × Nat) := (words rows).map range

/-- Rows of ranges with classes, which are written in ten digits. -/
def classified (rows : List String) : List ((Nat × Nat) × Nat) :=
  (words rows).map fun word =>
    (range (word.takeWhile (· ≠ ':')),
      Nat.ofDigitChars 10 ((word.dropWhile (· ≠ ':')).drop 1) 0)

/-- Whether a character lies in a range. -/
def isIn (c : Char) (range : Nat × Nat) : Bool := range.1 ≤ c.toNat && c.toNat ≤ range.2

/-- Whether a character lies in one of some ranges. -/
def within (table : List (Nat × Nat)) (c : Char) : Bool := table.any (isIn c)

/-- The class of a character. -/
def classOf? (table : List ((Nat × Nat) × Nat)) (c : Char) : Option Nat :=
  (table.find? fun (range, _) => isIn c range).map (·.2)

end MesonLens.CodeTable
