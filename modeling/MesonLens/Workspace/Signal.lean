import MesonLens.Files.Path

/-!
# `MesonLens.Workspace.Signal`: changes that an editor reports
-/

set_option autoImplicit false

namespace MesonLens

/-- A change that the editor reports. After every one the project is rebuilt. -/
inductive Signal where
  | opened (path : Path) (text : String)
  | changed (path : Path) (text : String)
  | saved (path : Path)
  | closed (path : Path)
  | created (paths : List Path)
  | deleted (paths : List Path)
  /-- Nothing has changed, but the project is to be read again. -/
  | reload
  deriving Repr

/-- The name of a change. -/
def Signal.display : Signal → String
  | opened .. => "open"
  | changed .. => "change"
  | saved _ => "save"
  | closed _ => "close"
  | created _ => "create"
  | deleted _ => "delete"
  | reload => "reload"

end MesonLens
