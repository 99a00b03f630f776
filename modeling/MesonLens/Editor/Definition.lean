import MesonLens.Project.Basic

/-!
# `MesonLens.Editor.Definition`: where a word comes from

A variable comes from the first binding that reaches it, maybe in a file above.
An inclusion leads to the included file.
-/

set_option autoImplicit false

namespace MesonLens

/-- A stretch of a file. -/
structure Definition where
  path : Path
  span : Span
  deriving DecidableEq, Repr

namespace Definition

/-- The first binding that reaches the variable at a node. -/
def ofVariable? (p : Project) (path : Path) (node : Nat) : Option Definition :=
  (p.declarations path node).head?.map fun o => ⟨o.file, o.span⟩

/-- The start of the file that a call includes. -/
def ofInclude? (p : Project) (path : Path) (call : Nat) : Option Definition := do
  let tree ← p.subtree? path
  let child ← tree.children.find? (·.file.call == some call)
  pure ⟨child.file.path, {}⟩

/-- Where the word at a place comes from. -/
def at? (p : Project) (path : Path) (line column : Nat) : Option Definition := do
  let view ← p.view? path
  let i := view.analysis.index
  match i.identifierAt line column with
  | some use => ofVariable? p path use.node
  | none => ofInclude? p path (← i.includeAt line column).node

end Definition

end MesonLens
