import MesonLens.Editor.Edit
import MesonLens.Project.Basic

/-!
# `MesonLens.Editor.Hover`: what is known about the word at a place

A keyword argument shows the types it takes, the name of a call shows the
signature, and a variable shows what it can hold.
-/

set_option autoImplicit false

namespace MesonLens

/-- What is shown about a stretch of text. -/
structure Hover where
  /-- Formatted text. -/
  text : String
  range : Range
  deriving Repr

namespace Hover

/-- A line of code, and documentation under it. -/
def markdown (code : String) (docs : Option String) : String :=
  "\x60\x60\x60meson\n" ++ code ++ "\n\x60\x60\x60" ++ (docs.map ("\n\n" ++ ·)).getD ""

/-- About a keyword argument that its function declares. -/
def ofKeyword? (use : KeywordUse) : Option Hover := do
  let f ← use.function
  let declared ← f.keyword? use.name
  let mark := if declared.kind.isOptional then "" else " (required)"
  pure ⟨markdown s!"{declared.name}: {declared.types.display}{mark}" none, use.span.range⟩

/-- About the name of a function that is called. -/
def ofCall? (docs : String → Option String) (use : FunctionUse) : Option Hover := do
  let f ← use.function
  pure ⟨markdown f.display (docs f.id), use.nameSpan.range⟩

/-- About the name of a method that is called: a line for every method it can
mean, and the documentation of the first. -/
def ofMethod? (docs : String → Option String) (use : MethodUse) : Option Hover := do
  let first ← use.methods.head?
  let lines := String.intercalate "\n" (use.methods.map Signature.display)
  pure ⟨markdown lines (docs first.id), use.nameSpan.range⟩

/-- About a variable. -/
def ofIdentifier (use : IdentifierUse) : Hover :=
  ⟨markdown s!"{use.name}: {use.types.describe}" none, use.span.range⟩

/-- What is known about the word at a place. The name of a call hides what
stands around it even when nothing is known about the call. -/
def at? (p : Project) (path : Path) (line column : Nat) (docs : String → Option String) :
    Option Hover := do
  let view ← p.view? path
  let i := view.analysis.index
  match (i.keywordAt line column).bind ofKeyword? with
  | some hover => some hover
  | none =>
    match (i.callAt line column).filter (·.nameSpan.contains line column) with
    | some use => ofCall? docs use
    | none =>
      match (i.methodCallAt line column).filter (·.nameSpan.contains line column) with
      | some use => ofMethod? docs use
      | none => (i.identifierAt line column).map ofIdentifier

end Hover

end MesonLens
