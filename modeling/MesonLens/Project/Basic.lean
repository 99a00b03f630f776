import MesonLens.Project.Tree

/-!
# `MesonLens.Project.Basic`: a project

A project is the tree of build files below a directory. Only a root file that
cannot be read keeps a project from being loaded; everything else that is wrong
is a diagnostic of some file.

* `Project.parse`, `Project.analyze`: the two phases of loading;
* `Project.owner?`, `Project.view?`: a file of the project by its path;
* `Project.declarations`: the bindings that reach a use of a variable.
-/

set_option autoImplicit false

namespace MesonLens

/-- The root file of a project could not be read. -/
structure NoProject where
  root : Path
  cause : ReadError
  deriving DecidableEq, Repr

/-- The wording, the outermost cause first. -/
def NoProject.chain (e : NoProject) : List String :=
  s!"No readable meson.build in '{e.root.display}'" :: e.cause.chain

/-- The build files below a directory. -/
structure Project where
  root : Path
  tree : BuildTree
  analyzed : Bool := false

/-- A file that was read and analyzed. -/
structure FileView where
  path : Path
  source : SourceFile
  analysis : Analysis

namespace Project

/-- Reads the root file and all that it includes. -/
def parse (disk : Disk) (source : Source) (cache : Cache) (root : Path) :
    Except NoProject (Project × Cache) := do
  let root := root.normalize
  let text ← (source.read disk (buildFile root)).mapError fun cause => ⟨root, cause⟩
  let ctx : BuildTree.Context := ⟨disk, source⟩
  let (tree, found) := (BuildTree.load ctx ctx.size [] root (some text) none).run { cache }
  return ({ root, tree }, found.cache)

/-- Analyzes every file. -/
def analyze (p : Project) (c : Catalog) : Project :=
  { p with tree := p.tree.analyze c (Scope.root c), analyzed := true }

/-- The files, a file before those it includes. -/
def files (p : Project) : List BuildFile := p.tree.files

/-- The tree at a file, which is named by its own path or its directory. -/
def subtree? (p : Project) (path : Path) : Option BuildTree :=
  let path := path.normalize
  p.tree.subtrees.find? fun t => t.file.path == path || t.file.dir == path

/-- The file of a path, which may be that of its directory. -/
def owner? (p : Project) (path : Path) : Option BuildFile := (p.subtree? path).map BuildTree.file

/-- The parsed file of a path. -/
def source? (p : Project) (path : Path) : Option SourceFile :=
  (p.owner? path).bind BuildFile.source

/-- The file of a path, when it was read and analyzed. -/
def view? (p : Project) (path : Path) : Option FileView := do
  let f ← p.owner? path
  pure ⟨f.path, ← f.source, ← f.analysis⟩

/-- What stands where in the file of a path, once the project is analyzed. -/
def index? (p : Project) (path : Path) : Option Index := do
  guard p.analyzed
  let f ← p.files.find? (·.path == path.normalize)
  pure f.index

/-- The bindings that reach the variable at a node of a file. A name that is
bound comes from itself. -/
def declarations (p : Project) (path : Path) (node : Nat) : List Origin :=
  match p.index? path with
  | none => []
  | some i =>
    match i.identifiers.find? (·.node == node) with
    | some use => use.origins
    | none =>
      ((i.assignments.find? (·.target == node)).map fun a =>
        ⟨path.normalize, a.target, a.span⟩).toList

/-- What is wrong with each file. -/
def diagnostics (p : Project) : List (Path × List Diagnostic) :=
  p.files.map fun f => (f.path, f.diagnostics)

/-- How many errors there are. -/
def errorCount (p : Project) : Nat :=
  Diagnostic.errorCount (p.files.flatMap BuildFile.diagnostics)

end Project

end MesonLens
