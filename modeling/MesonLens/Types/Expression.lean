import MesonLens.Text.Blank
import MesonLens.Types.TypeSet

/-!
# `MesonLens.Types.Expression`: type sets as text

The catalog writes type sets as text: `list(str|file)|dict(any)`. Blanks mean
nothing, `list` alone is `list(any)`, and the empty text is the empty set.

* `TypeExpr.parse`: from text to a set, given what object names mean;
* `CatalogError`: what can be wrong with a catalog, type expressions included.
-/

set_option autoImplicit false

namespace MesonLens

/-- What can be wrong with the form of a type expression. -/
inductive TypeExprFault where
  | unexpected (c : Char)
  | noName
  | unclosed
  /-- Only lists and dictionaries hold elements. -/
  | noElements (name : String)
  deriving DecidableEq, Repr

/-- The wording of a fault. -/
def TypeExprFault.message : TypeExprFault → String
  | unexpected c => s!"unexpected '{c}'"
  | noName => "expected a type name"
  | unclosed => "missing ')'"
  | noElements name => s!"'{name}' takes no element type"

/-- What can be wrong with a catalog. -/
inductive CatalogError where
  | unknownType (name : String)
  | duplicateName (name : String)
  | badTypeExpr (expr : String) (fault : TypeExprFault)
  | inheritanceCycle (name : String)
  deriving DecidableEq, Repr

/-- The wording of an error. -/
def CatalogError.message : CatalogError → String
  | unknownType name => s!"Unknown type '{name}'"
  | duplicateName name => s!"Duplicate definition of '{name}'"
  | badTypeExpr expr fault => s!"Invalid type expression '{expr}': {fault.message}"
  | inheritanceCycle name => s!"Inheritance cycle through '{name}'"

namespace TypeExpr

/-- Whether a character may be part of a type's name. -/
def isNameChar (c : Char) : Bool := c.isAlphanum || c == '_'

/-- The names of the built-in types. -/
def primitives : List String := ["any", "bool", "int", "str", "void", "disabler", "list", "dict"]

/-- The built-in type without elements that a name names. -/
def plain? : String → Option Ty
  | "any" => some .any
  | "bool" => some .bool
  | "int" => some .int
  | "str" => some .str
  | "void" => some .void
  | "disabler" => some .disabler
  | _ => none

/-- The type that a name with or without elements means. -/
def resolve (expr : String) (object? : String → Option Ty) (name : String)
    (inner : Option TypeSet) : Except CatalogError Ty :=
  if name = "list" then .ok (inner.getD TypeSet.any).listType
  else if name = "dict" then .ok (inner.getD TypeSet.any).dictType
  else if inner.isSome then .error (.badTypeExpr expr (.noElements name))
  else
    match (plain? name).or (object? name) with
    | some t => .ok t
    | none => .error (.unknownType name)

/-- Reads one type, given how to read what stands in brackets. -/
def term (expr : String) (object? : String → Option Ty)
    (union : List Char → Except CatalogError (TypeSet × List Char)) (cs : List Char) :
    Except CatalogError (Ty × List Char) := do
  let name := cs.takeWhile isNameChar
  if name.isEmpty then throw (.badTypeExpr expr .noName)
  let name := String.ofList name
  match cs.dropWhile isNameChar with
  | '(' :: rest =>
    let (inner, rest) ← union rest
    match rest with
    | ')' :: rest => return (← resolve expr object? name (some inner), rest)
    | _ => throw (.badTypeExpr expr .unclosed)
  | rest => return (← resolve expr object? name none, rest)

/-- Reads types divided by bars and adds them to a set. Every round reads at
least one character, so more rounds than characters are never needed. -/
def union (expr : String) (object? : String → Option Ty) :
    Nat → TypeSet → List Char → Except CatalogError (TypeSet × List Char)
  | 0, _, _ => .error (.badTypeExpr expr .noName)
  | rounds + 1, set, cs => do
    let (t, rest) ← term expr object? (union expr object? rounds {}) cs
    match rest with
    | '|' :: rest => union expr object? rounds (set.insert t) rest
    | _ => return (set.insert t, rest)

/-- Reads a type expression. -/
def parse (object? : String → Option Ty) (expr : String) : Except CatalogError TypeSet := do
  let cs := expr.toList.filter (!isBlank ·)
  if cs.isEmpty then return {}
  let (set, rest) ← union expr object? (cs.length + 1) {} cs
  match rest with
  | [] => return set
  | c :: _ => throw (.badTypeExpr expr (.unexpected c))

end TypeExpr

end MesonLens
