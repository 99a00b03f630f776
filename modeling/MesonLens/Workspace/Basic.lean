import MesonLens.Project.Basic
import MesonLens.Workspace.Signal

/-!
# `MesonLens.Workspace.Basic`: a project as the editor sees it

A `Workspace` holds what the editor has reported about the files, and the
project as it was rebuilt last. Every change has a number, its generation; a
rebuild for one generation is of no use once there is a later one.
-/

set_option autoImplicit false

namespace MesonLens

/-- How rebuilds are scheduled. -/
structure RebuildOptions where
  /-- How long a rebuild waits for further changes. -/
  debounceMs : Nat := 100
  /-- How many rebuilds run at a time. -/
  maxConcurrent : Nat := 2
  deriving DecidableEq, Repr

/-- A project as the editor sees it. -/
structure Workspace where
  root : Path
  options : RebuildOptions := {}
  source : Source := {}
  cache : Cache := {}
  /-- The number of the last change. -/
  generation : Nat := 0
  /-- The project as it was rebuilt last; nothing when its root cannot be read. -/
  project : Option Project := none
  /-- The files whose diagnostics the editor shows. -/
  published : List Path := []
  /-- The generation of the last rebuild that came to its end. -/
  committed : Nat := 0

namespace Workspace

/-- The workspace of a directory before anything was read. -/
def ofRoot (root : Path) (options : RebuildOptions) : Workspace :=
  { root := root.normalize, options }

/-- Schedules rebuilds differently from now on. -/
def configure (w : Workspace) (options : RebuildOptions) : Workspace := { w with options }

/-- Forgets everything about a file. -/
def forget (w : Workspace) (p : Path) : Workspace :=
  { w with source := w.source.close p, cache := w.cache.evict p }

/-- What a change does to the files. After a save the disk tells the text. -/
def record (w : Workspace) : Signal → Workspace
  | .opened path text => { w with source := w.source.openFile path text }
  | .changed path text => { w with source := w.source.setOverride path text }
  | .saved path => { w with source := w.source.removeOverride path }
  | .closed path => { w with source := w.source.close path }
  | .created _ | .reload => w
  | .deleted paths => paths.foldl forget w

/-- Applies a change, which starts a new generation. -/
def apply (w : Workspace) (s : Signal) : Workspace :=
  { w.record s with generation := w.generation + 1 }

end Workspace

end MesonLens
