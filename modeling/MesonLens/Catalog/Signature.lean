import MesonLens.Types.TypeSet

/-!
# `MesonLens.Catalog.Signature`: functions and methods

A `Signature` tells how a function or method is called. Its types are of a type
`τ`: text in a declaration, a set of types once they are resolved.
-/

set_option autoImplicit false

namespace MesonLens

/-- How a parameter is given. -/
inductive ParameterKind where
  /-- By place, in every call. -/
  | required
  /-- By place, if at all. -/
  | optional
  /-- By place, any number of times. -/
  | variadic
  /-- By name, if at all. -/
  | keyword
  /-- By name, in every call. -/
  | requiredKeyword
  deriving DecidableEq, Repr

namespace ParameterKind

/-- Whether the parameter is given by place. -/
def isPositional : ParameterKind → Bool
  | required | optional | variadic => true
  | keyword | requiredKeyword => false

/-- Whether a call may leave the parameter out. -/
def isOptional : ParameterKind → Bool
  | optional | variadic | keyword => true
  | required | requiredKeyword => false

/-- What stands between a parameter's name and its types. -/
def mark : ParameterKind → String
  | variadic => "..."
  | optional | keyword => "?"
  | required | requiredKeyword => ""

end ParameterKind

/-- A parameter of a function. -/
structure Parameter (τ : Type) where
  kind : ParameterKind
  name : String
  types : τ
  deriving Repr

/-- A function, or a method of the type `owner`. -/
structure Signature (τ : Type) where
  owner : Option String := none
  name : String
  returns : τ
  params : List (Parameter τ) := []
  deriving Repr

namespace Signature

variable {τ : Type}

/-- The name with the owner before it. -/
def id (f : Signature τ) : String :=
  match f.owner with
  | some owner => s!"{owner}.{f.name}"
  | none => f.name

/-- The parameters given by place. -/
def positional (f : Signature τ) : List (Parameter τ) := f.params.filter (·.kind.isPositional)

/-- The parameters given by name. -/
def keywords (f : Signature τ) : List (Parameter τ) := f.params.filter (!·.kind.isPositional)

/-- The parameter given by a name. -/
def keyword? (f : Signature τ) (name : String) : Option (Parameter τ) :=
  f.keywords.find? (·.name == name)

/-- How many arguments a call has to give by place. -/
def minPositional (f : Signature τ) : Nat :=
  (f.positional.filter (!·.kind.isOptional)).length

/-- How many arguments a call may give by place, if there is a limit. -/
def maxPositional? (f : Signature τ) : Option Nat :=
  if f.positional.any (·.kind == .variadic) then none else some f.positional.length

/-- The parameter that takes the argument at a place. A variadic parameter that
comes last takes all further ones. -/
def positionalAt? (f : Signature τ) (index : Nat) : Option (Parameter τ) :=
  f.positional[index]?.or (f.positional.getLast?.filter (·.kind == .variadic))

/-- The signature as people read it. -/
def display (f : Signature TypeSet) : String :=
  let params := f.params.map fun p => s!"{p.name}{p.kind.mark}: {p.types.display}"
  f.returns.display ++ " " ++ f.id ++ "(" ++ String.intercalate ", " params ++ ")"

end Signature

end MesonLens
