import MesonLens.Editor.Edit
import MesonLens.Project.Basic

/-!
# `MesonLens.Editor.Symbol`: the names that a file binds

Every assignment and loop variable of a file in the order in which it runs.
-/

set_option autoImplicit false

namespace MesonLens

/-- What a bound name holds, roughly. -/
inductive SymbolKind where
  | variableName | string | number | boolean | array | object
  deriving DecidableEq, Repr

/-- A bound name. -/
structure DocumentSymbol where
  name : String
  detail : String
  kind : SymbolKind
  /-- The whole assignment or loop. -/
  range : Range
  /-- The name in it. -/
  selection : Range
  deriving Repr

namespace DocumentSymbol

/-- What a value of the types is, when there is only one. -/
def kindOf (types : TypeSet) : SymbolKind :=
  match types.members with
  | [.str] => .string
  | [.int] => .number
  | [.bool] => .boolean
  | [.list _] => .array
  | [.dict _] => .object
  | _ => .variableName

/-- A bound name from the index. -/
def ofAssignment (use : AssignmentUse) : DocumentSymbol where
  name := use.name
  detail := use.types.display
  kind := kindOf use.types
  range := use.node.span.range
  selection := use.span.range

/-- The names that a file binds. -/
def all (p : Project) (path : Path) : List DocumentSymbol :=
  ((p.view? path).map fun v => v.analysis.index.assignments.map ofAssignment).getD []

end DocumentSymbol

end MesonLens
