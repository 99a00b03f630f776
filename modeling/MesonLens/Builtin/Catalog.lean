import MesonLens.Builtin.Modules
import MesonLens.Builtin.Objects
import MesonLens.Builtin.Primitives

/-!
# `MesonLens.Builtin.Catalog`: the catalog of the language

Everything a build file can use without declaring it.
-/

set_option autoImplicit false

namespace MesonLens.Builtin

/-- The declarations of the language. -/
def declarations : Declarations where
  objects := objectTypes ++ moduleTypes
  functions := functions ++ stringMethods ++ valueMethods ++ objectMethods ++ moduleMethods
  modules := modules
  globals := globals

/-- The catalog of the language, or what is wrong with its declarations. -/
def catalog? : Except CatalogError Catalog := declarations.build

/-- The catalog of the language. -/
def catalog : Catalog :=
  match catalog? with
  | .ok c => c
  | .error _ => {}

end MesonLens.Builtin
