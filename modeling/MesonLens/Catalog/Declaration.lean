import MesonLens.Catalog.Basic

/-!
# `MesonLens.Catalog.Declaration`: building a catalog

A catalog is declared as text and checked as a whole by `Declarations.build`:
names are unique, every type that is named is declared, and no object type
inherits from itself.
-/

set_option autoImplicit false

namespace MesonLens

/-- What a catalog is declared from. -/
structure Declarations where
  /-- Object types with the type each inherits from. -/
  objects : List (String × Option String) := []
  functions : List (Signature String) := []
  /-- Modules with their object types. -/
  modules : List (String × String) := []
  /-- Variables with their object types. -/
  globals : List (String × String) := []
  deriving Repr

namespace Declarations

/-- Declarations one after the other. -/
def append (a b : Declarations) : Declarations where
  objects := a.objects ++ b.objects
  functions := a.functions ++ b.functions
  modules := a.modules ++ b.modules
  globals := a.globals ++ b.globals

instance : Append Declarations := ⟨append⟩

/-- A parameter given by place in every call. -/
def required (name types : String) : Parameter String := ⟨.required, name, types⟩

/-- A parameter given by place, if at all. -/
def optional (name types : String) : Parameter String := ⟨.optional, name, types⟩

/-- A parameter given by place any number of times. -/
def variadic (name types : String) : Parameter String := ⟨.variadic, name, types⟩

/-- A parameter given by name, if at all. -/
def keyword (name types : String) : Parameter String := ⟨.keyword, name, types⟩

/-- A parameter given by name in every call. -/
def requiredKeyword (name types : String) : Parameter String := ⟨.requiredKeyword, name, types⟩

/-- Parameters given by name that share their types. -/
def keywords (names : List String) (types : String) : List (Parameter String) :=
  names.map (keyword · types)

/-- A function. -/
def function (name returns : String) (params : List (Parameter String)) : Signature String :=
  { name, returns, params }

/-- A method of the type `owner`. -/
def method (owner name returns : String) (params : List (Parameter String)) : Signature String :=
  { owner := some owner, name, returns, params }

/-- Gives every object type its number. A name may not be used twice. -/
def addObjects (c : Catalog) : List (String × Option String) → Except CatalogError Catalog
  | [] => .ok c
  | (name, _) :: rest =>
    if TypeExpr.primitives.contains name || (c.lookup? name).isSome then
      .error (.duplicateName name)
    else addObjects { c with objects := c.objects ++ [⟨c.objects.length, name, none⟩] } rest

/-- Links the object types to their parents. -/
def linkParents (c : Catalog) :
    List (ObjectInfo × Option String) → Except CatalogError (List ObjectInfo)
  | [] => .ok []
  | (o, none) :: rest => return o :: (← linkParents c rest)
  | (o, some parent) :: rest => do
    let p ← c.lookup parent
    return { o with parent := some p.id } :: (← linkParents c rest)

/-- Whether the way up from a parent comes back to `id` or takes more than
`steps` steps. -/
def climbs (c : Catalog) (id : Nat) : Nat → Option Nat → Bool
  | _, none => false
  | 0, some _ => true
  | steps + 1, some parent =>
    parent == id || climbs c id steps ((c.object? parent).bind ObjectInfo.parent)

/-- Fails on an object type that inherits from itself. -/
def checkCycles (c : Catalog) : Except CatalogError Unit :=
  match c.objects.find? fun o => climbs c o.id c.objects.length o.parent with
  | some o => .error (.inheritanceCycle o.name)
  | none => .ok ()

/-- Resolves the types of parameters in order. -/
def resolveParams (c : Catalog) :
    List (Parameter String) → Except CatalogError (List (Parameter TypeSet))
  | [] => .ok []
  | p :: rest => do
    let types ← c.parseType p.types
    return ⟨p.kind, p.name, types⟩ :: (← resolveParams c rest)

/-- Resolves the types of a function, its result last. -/
def resolve (c : Catalog) (f : Signature String) : Except CatalogError (Signature TypeSet) := do
  let params ← resolveParams c f.params
  let returns ← c.parseType f.returns
  return { owner := f.owner, name := f.name, returns, params }

/-- Adds a function or method. -/
def addFunction (c : Catalog) (decl : Signature String) : Except CatalogError Catalog := do
  let f ← resolve c decl
  match decl.owner with
  | none =>
    if (c.function? f.name).isSome then throw (.duplicateName f.name)
    return { c with functions := c.functions ++ [f] }
  | some owner =>
    unless TypeExpr.primitives.contains owner do discard (c.lookup owner)
    if (c.method? owner f.name).isSome then throw (.duplicateName f.id)
    return { c with methods := c.methods ++ [f] }

/-- Adds functions and methods in order. -/
def addFunctions (c : Catalog) : List (Signature String) → Except CatalogError Catalog
  | [] => .ok c
  | f :: rest => do addFunctions (← addFunction c f) rest

/-- Adds modules in order. -/
def addModules (c : Catalog) : List (String × String) → Except CatalogError Catalog
  | [] => .ok c
  | (name, object) :: rest => do
    let o ← c.lookup object
    if c.modules.any (·.1 == name) then throw (.duplicateName name)
    addModules { c with modules := c.modules ++ [(name, o.id)] } rest

/-- Adds variables in order. -/
def addGlobals (c : Catalog) : List (String × String) → Except CatalogError Catalog
  | [] => .ok c
  | (name, object) :: rest => do
    let o ← c.lookup object
    addGlobals { c with globals := c.globals ++ [(name, o.id)] } rest

/-- The object types with their parents, checked. -/
def buildObjects (objects : List (String × Option String)) : Except CatalogError Catalog := do
  let c ← addObjects {} objects
  let linked ← linkParents c (c.objects.zip (objects.map (·.2)))
  let c := { c with objects := linked }
  checkCycles c
  return c

/-- Checks the declarations and builds their catalog. -/
def build (d : Declarations) : Except CatalogError Catalog := do
  let c ← buildObjects d.objects
  let c ← addFunctions c d.functions
  let c ← addModules c d.modules
  addGlobals c d.globals

end Declarations

end MesonLens
