import MesonLens.Syntax.SourceFile

/-!
# `MesonLens.Project.Include`: the directories a file includes

A build file includes a directory with `subdir('name')`. `SourceFile.includes`
finds the calls whose directory can be read off the text.
-/

set_option autoImplicit false

namespace MesonLens

/-- An inclusion of a directory that is named by a plain string. -/
structure Include where
  /-- The number of the call. -/
  call : Nat
  dir : String
  span : Span
  deriving DecidableEq, Repr

/-- The inclusion that a node makes. -/
def Include.ofNode? : Tree Mark → Option Include
  | node@(.call mark _ _) => do
    guard (node.callName? == some "subdir")
    let first ← node.positionalArgs.head?
    let dir ← first.string?
    pure ⟨mark.id, dir, mark.span⟩
  | _ => none

/-- The inclusions of a file in text order. A directory that is computed, and
so unknown before the analysis, is not among them. -/
def SourceFile.includes (f : SourceFile) : List Include :=
  f.root.preorder.filterMap Include.ofNode?

end MesonLens
