import MesonLens.Editor.Edit
import MesonLens.Editor.NameRole
import MesonLens.Project.Basic

/-!
# `MesonLens.Editor.Highlight`: the uses of a variable

Every place of a file where the variable at a place is read or bound.
-/

set_option autoImplicit false

namespace MesonLens

/-- A use of a variable. -/
structure Highlight where
  range : Range
  /-- Whether the variable receives a value there. -/
  write : Bool
  deriving DecidableEq, Repr

namespace Highlight

/-- The use of a variable with a name. -/
def of? (name : String) (use : NameUse) : Option Highlight :=
  if use.name = name ∧ use.role.isVariable then
    some ⟨use.mark.span.range, use.role = .binding⟩
  else none

/-- The uses of the variable at a place. -/
def all (p : Project) (path : Path) (line column : Nat) : List Highlight :=
  ((do
    let source ← p.source? path
    let node ← source.nodeAt line column
    let names := source.root.names
    let here ← names.find? (·.mark.id == node.id)
    guard here.role.isVariable
    pure (names.filterMap (of? here.name))) : Option (List Highlight)).getD []

end Highlight

end MesonLens
