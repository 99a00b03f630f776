import MesonLens.Text.Position

/-!
# `MesonLens.Editor.Edit`: places and edits as editors count

An editor tells places by line and column alone, both from zero, the column in
UTF-16 units.
-/

set_option autoImplicit false

namespace MesonLens

/-- A place by line and column. -/
structure Place where
  line : Nat := 0
  column : Nat := 0
  deriving DecidableEq, Repr

/-- Before or at, by line and then by column. -/
def Place.le (a b : Place) : Bool :=
  a.line < b.line || (a.line == b.line && a.column ≤ b.column)

/-- The line and column of a place in a text. -/
def Position.place (p : Position) : Place := ⟨p.line, p.column⟩

/-- A half-open stretch by lines and columns. -/
structure Range where
  start : Place := {}
  stop : Place := {}
  deriving DecidableEq, Repr

/-- The lines and columns of a stretch of text. -/
def Span.range (s : Span) : Range := ⟨s.start.place, s.stop.place⟩

/-- A stretch to replace, and the text to put there. -/
structure TextEdit where
  range : Range
  text : String
  deriving DecidableEq, Repr

/-- The place after the last character of a text. -/
def Place.endOf (text : String) : Place := (Position.after {} text.toList).place

end MesonLens
