import MesonLens.Catalog.Signature
import MesonLens.Types.Expression

/-!
# `MesonLens.Catalog.Basic`: the known objects, functions and modules

A `Catalog` holds the object types, with their parents, the functions and
methods, the modules that can be imported and the objects every file starts
with.

* `Catalog.ancestry`: an object type and the types it inherits from;
* `Catalog.accepts`: whether a value may stand for a parameter;
* `Catalog.findMethod?`, `Catalog.methodsOf`: the methods of a type.
-/

set_option autoImplicit false

namespace MesonLens

/-- An object type. -/
structure ObjectInfo where
  id : Nat
  name : String
  parent : Option Nat := none
  deriving DecidableEq, Repr

/-- The type of the objects. -/
def ObjectInfo.type (o : ObjectInfo) : Ty := .object o.id o.name

/-- The known objects, functions and modules. -/
structure Catalog where
  /-- The object types; the number of each is its place. -/
  objects : List ObjectInfo := []
  functions : List (Signature TypeSet) := []
  methods : List (Signature TypeSet) := []
  /-- Modules by the name they are imported by, with their object type. -/
  modules : List (String × Nat) := []
  /-- The variables every file starts with, with their object type. -/
  globals : List (String × Nat) := []
  deriving Repr

namespace Catalog

/-- The object type of a name. -/
def lookup? (c : Catalog) (name : String) : Option ObjectInfo :=
  c.objects.find? (·.name == name)

/-- The object type of a name, or the error that there is none. -/
def lookup (c : Catalog) (name : String) : Except CatalogError ObjectInfo :=
  match c.lookup? name with
  | some o => .ok o
  | none => .error (.unknownType name)

/-- The object type of a number. -/
def object? (c : Catalog) (id : Nat) : Option ObjectInfo := c.objects[id]?

/-- The methods declared for exactly the named type. -/
def methodTable (c : Catalog) (owner : String) : List (Signature TypeSet) :=
  c.methods.filter (·.owner == some owner)

/-- A method declared for exactly the named type. -/
def method? (c : Catalog) (owner name : String) : Option (Signature TypeSet) :=
  c.methods.find? fun m => m.owner == some owner && m.name == name

/-- A function by its name. -/
def function? (c : Catalog) (name : String) : Option (Signature TypeSet) :=
  c.functions.find? (·.name == name)

/-- The object type of a module. -/
def module? (c : Catalog) (name : String) : Option ObjectInfo :=
  ((c.modules.find? (·.1 == name)).map (·.2)).bind c.object?

/-- The object type of a number and up to `steps` types above it. -/
def ancestryWithin (c : Catalog) : Nat → Nat → List ObjectInfo
  | steps, id =>
    match c.object? id with
    | none => []
    | some o =>
      match steps, o.parent with
      | steps + 1, some parent => o :: c.ancestryWithin steps parent
      | _, _ => [o]

/-- The object type of a number and every type above it, nearest first. A
chain without a cycle is no longer than the list of all types. -/
def ancestry (c : Catalog) (id : Nat) : List ObjectInfo :=
  c.ancestryWithin c.objects.length id

/-- Whether one object type is the other or inherits from it. -/
def isSubtype (c : Catalog) (id ancestor : Nat) : Bool :=
  (c.ancestry id).any (·.id == ancestor)

/-- The set of types that a type expression writes. -/
def parseType (c : Catalog) (expr : String) : Except CatalogError TypeSet :=
  TypeExpr.parse (fun name => (c.lookup? name).map ObjectInfo.type) expr

/-- Whether a value of type `actual` may stand where one of `accepted` is
wanted. An empty `accepted` puts no condition. A list may stand for its
elements, and a value for a list of it. -/
def acceptsType (c : Catalog) (accepted : List Ty) (actual : Ty) : Bool :=
  accepted.isEmpty || TypeSet.contains ⟨accepted⟩ .any || actual.isAnyLike
    || (match actual with
        | .object id _ =>
          accepted.any fun
            | .object expected _ => c.isSubtype id expected
            | _ => false
        | .list elements =>
          -- Its elements may fit a list that is accepted, or what is accepted itself.
          elements.isEmpty
            || accepted.attach.any (fun
              | ⟨.list inner, _⟩ =>
                inner.isEmpty || elements.attach.all fun t => acceptsType c inner t.val
              | _ => false)
            || elements.attach.all fun t => acceptsType c accepted t.val
        | .dict values =>
          accepted.attach.any fun
            | ⟨.dict inner, _⟩ =>
              values.isEmpty || inner.isEmpty
                || values.attach.all fun t => acceptsType c inner t.val
            | _ => false
        | other => TypeSet.contains ⟨accepted⟩ other)
    -- A single value may stand for a list of it, but not for a list of unknown elements.
    || (!actual.isList && accepted.attach.any fun
        | ⟨.list inner, _⟩ => !inner.isEmpty && acceptsType c inner actual
        | _ => false)
  termination_by sizeOf accepted + sizeOf actual
  decreasing_by
    all_goals try have := List.sizeOf_lt_of_mem (by assumption : _ ∈ accepted)
    all_goals try have := List.sizeOf_lt_of_mem t.property
    all_goals simp only [Ty.list.sizeOf_spec, Ty.dict.sizeOf_spec] at *
    all_goals omega

/-- Whether a value of type `actual` may stand where one of `accepted` is wanted. -/
def accepts (c : Catalog) (accepted : TypeSet) (actual : Ty) : Bool :=
  c.acceptsType accepted.members actual

/-- Whether every member of `actual` may stand there. -/
def acceptsAll (c : Catalog) (accepted actual : TypeSet) : Bool :=
  accepted.isEmpty || actual.members.all (c.accepts accepted)

/-- Whether some member of `actual` may stand there, or nothing is known. -/
def acceptsSome (c : Catalog) (accepted actual : TypeSet) : Bool :=
  actual.isEmpty || actual.members.any (c.accepts accepted)

/-- The names under which the methods of a type are declared, nearest first. -/
def methodOwners (c : Catalog) : Ty → List String
  | .object id _ => (c.ancestry id).map ObjectInfo.name
  | t => t.methodOwner?.toList

/-- The method of a type by its name, its own before inherited ones. -/
def findMethod? (c : Catalog) (t : Ty) (name : String) : Option (Signature TypeSet) :=
  (c.methodOwners t).findSome? fun owner => c.method? owner name

/-- Adds the methods whose names are new. -/
def addMethods (known more : List (Signature TypeSet)) : List (Signature TypeSet) :=
  more.foldl (fun known m => if known.any (·.name == m.name) then known else known ++ [m]) known

/-- Every method of a type, its own before inherited ones; a method hides
inherited ones of its name. -/
def methodsOf (c : Catalog) (t : Ty) : List (Signature TypeSet) :=
  (c.methodOwners t).foldl (fun known owner => addMethods known (c.methodTable owner)) []

end Catalog

end MesonLens
