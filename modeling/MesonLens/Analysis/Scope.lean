import MesonLens.Catalog.Basic
import MesonLens.Files.Path
import MesonLens.Text.Position

/-!
# `MesonLens.Analysis.Scope`: the variables at a place

A `Scope` tells, for every variable that is known at some place of a file, what
it can hold and which assignments it can come from.

* `Scope.assign`: a variable is bound anew;
* `Scope.update`: a variable changes what it holds, and keeps where it came from;
* `Scope.merge`: two ways through a file come together.
-/

set_option autoImplicit false

namespace MesonLens

/-- The place where a variable is bound. -/
structure Origin where
  file : Path
  /-- The number of the node that names the variable. -/
  node : Nat
  span : Span
  deriving DecidableEq, Repr

/-- What a variable holds and where it was bound. -/
structure Binding where
  types : TypeSet := {}
  origins : List Origin := []
  deriving Repr

/-- Adds origins that are new. -/
def Binding.addOrigins (known more : List Origin) : List Origin :=
  more.foldl (fun known o => if o ∈ known then known else known ++ [o]) known

/-- What holds on either of two ways. -/
def Binding.merge (a b : Binding) : Binding where
  types := a.types.union b.types
  origins := Binding.addOrigins a.origins b.origins

/-- The known variables, each once. -/
structure Scope where
  bindings : List (String × Binding) := []
  deriving Repr

namespace Scope

/-- What is known about a variable. -/
def get? (s : Scope) (name : String) : Option Binding := s.bindings.lookup name

/-- Whether the variable is known. -/
def contains (s : Scope) (name : String) : Bool := (s.get? name).isSome

/-- Replaces the first pair of a name, or adds one at the end. -/
def setIn (name : String) (b : Binding) : List (String × Binding) → List (String × Binding)
  | [] => [(name, b)]
  | (n, old) :: rest => if n = name then (name, b) :: rest else (n, old) :: setIn name b rest

/-- Replaces what is known about a variable. -/
def set (s : Scope) (name : String) (b : Binding) : Scope := ⟨setIn name b s.bindings⟩

/-- Binds a variable; what was known about it is forgotten. -/
def assign (s : Scope) (name : String) (types : TypeSet) (origin : Option Origin) : Scope :=
  s.set name ⟨types, origin.toList⟩

/-- Changes what a variable holds. A variable that is not known is bound. -/
def update (s : Scope) (name : String) (types : TypeSet) (origin : Option Origin) : Scope :=
  match s.get? name with
  | some b => s.set name { b with types }
  | none => s.assign name types origin

/-- Adds what is known about a variable on another way. -/
def mergeOne (s : Scope) (name : String) (b : Binding) : Scope :=
  match s.get? name with
  | some there => s.set name (there.merge b)
  | none => s.set name b

/-- What is known after either of two ways. -/
def merge (a b : Scope) : Scope :=
  b.bindings.foldl (fun s (name, binding) => s.mergeOne name binding) a

/-- The scope in which a project starts: the objects that are always there. -/
def root (c : Catalog) : Scope :=
  c.globals.foldl
    (fun s (name, id) =>
      match c.object? id with
      | some o => s.assign name (TypeSet.single o.type) none
      | none => s)
    {}

end Scope

end MesonLens
