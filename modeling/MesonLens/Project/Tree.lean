import MesonLens.Analysis.Analyzer
import MesonLens.Files.Source
import MesonLens.Project.Cache
import MesonLens.Project.Include

/-!
# `MesonLens.Project.Tree`: the build files of a project

The build file of a directory includes the build files of further directories.
Together they make a `BuildTree`. Every file is in the tree at most once: an
inclusion of a file that is already there is a problem of the including file.

* `BuildTree.load`: reads a build file and all that it includes;
* `BuildTree.analyze`: analyzes every file; an included file starts from the
  scope at its inclusion, and what it binds does not flow back;
* `BuildTree.files`: the files, a file before those it includes.
-/

set_option autoImplicit false

namespace MesonLens

/-- A build file of a project. -/
structure BuildFile where
  dir : Path
  path : Path
  /-- The number of the call that includes the file, in the file above. -/
  call : Option Nat
  /-- The parsed file; missing when it could not be read. -/
  source : Option SourceFile
  /-- What is wrong with the inclusions in the file. -/
  problems : List Diagnostic := []
  /-- What is found out about the file; missing before the analysis. -/
  analysis : Option Analysis := none

/-- The build file of a directory. -/
def buildFile (dir : Path) : Path := dir.child "meson.build"

namespace BuildFile

/-- Problems by the offset they start at; those at one offset keep their order. -/
def sortDiagnostics (ds : List Diagnostic) : List Diagnostic :=
  ds.mergeSort fun a b => a.span.start.offset ≤ b.span.start.offset

/-- What is wrong with the file. Before the analysis these are the syntax errors
and then the inclusions. -/
def diagnostics (f : BuildFile) : List Diagnostic :=
  match f.analysis with
  | some a => sortDiagnostics (a.diagnostics ++ f.problems)
  | none =>
    ((f.source.map SourceFile.errors).getD []).map Diagnostic.ofSyntaxError ++ f.problems

/-- What stands where in the file. -/
def index (f : BuildFile) : Index := (f.analysis.map Analysis.index).getD {}

end BuildFile

/-- A build file with those it includes, in the order of the calls. -/
inductive BuildTree where
  | node (file : BuildFile) (children : List BuildTree)

namespace BuildTree

/-- The file at the top. -/
def file : BuildTree → BuildFile
  | node f _ => f

/-- The trees of the included files. -/
def children : BuildTree → List BuildTree
  | node _ ts => ts

mutual

/-- The trees at every file, a file before those it includes. -/
def subtrees : BuildTree → List BuildTree
  | node f ts => node f ts :: subtreesAll ts

/-- The trees at every file of several trees. -/
def subtreesAll : List BuildTree → List BuildTree
  | [] => []
  | t :: ts => subtrees t ++ subtreesAll ts

end

/-- The files, a file before those it includes. -/
def files (t : BuildTree) : List BuildFile := t.subtrees.map file

/-! ### Reading -/

/-- Where texts come from. -/
structure Context where
  disk : Disk
  source : Source

/-- What changes while files are read. -/
structure Found where
  /-- The files that are in the tree. -/
  included : List Path := []
  cache : Cache := {}

/-- Why an inclusion is refused. -/
def refusal? (ctx : Context) (stack included : List Path) (i : Include) (child : Path) :
    Option Problem :=
  if stack.contains child then some (.recursiveInclude i.dir)
  else if included.contains child then some (.repeatedInclude i.dir)
  else if !ctx.source.hasFile ctx.disk child then some (.noBuildFile i.dir)
  else none

/-- The directory that an inclusion in another one names. -/
def includedDir (dir : Path) (i : Include) : Path := (dir.join (Path.ofString i.dir)).normalize

/-- Follows the inclusions of a file in turn. A file that is there and cannot be
read is a problem, and is in the tree without its text. -/
def follow (ctx : Context) (load : Path → Option String → Option Nat → StateM Found BuildTree)
    (dir : Path) (stack : List Path) : List Include →
    StateM Found (List Diagnostic × List BuildTree)
  | [] => return ([], [])
  | i :: rest => do
    let childDir := includedDir dir i
    match refusal? ctx stack (← get).included i (buildFile childDir) with
    | some problem =>
      let (problems, trees) ← follow ctx load dir stack rest
      return (⟨problem, i.span⟩ :: problems, trees)
    | none =>
      let text := ctx.source.read ctx.disk (buildFile childDir)
      -- The whole tree below is read first, so that later inclusions find its files.
      let tree ← load childDir text.toOption (some i.call)
      let (problems, trees) ← follow ctx load dir stack rest
      match text with
      | .ok _ => return (problems, tree :: trees)
      | .error _ => return (⟨.unreadableBuildFile i.dir, i.span⟩ :: problems, tree :: trees)

/-- The parsed file of a text, by way of the cache. -/
def parseText (ctx : Context) (path : Path) (text : String) : StateM Found SourceFile :=
  modifyGet fun found =>
    let (parsed, cache) := found.cache.read path text (ctx.source.isOpen path)
    (parsed.file, { found with cache })

/-- Takes a build file into the tree, with its text when it could be read. -/
def enter (ctx : Context) (path : Path) (text : Option String) :
    StateM Found (Option SourceFile) := do
  let source ← text.mapM (parseText ctx path)
  modify fun found => { found with included := path :: found.included }
  return source

/-- Reads a build file and all that it includes. The stack holds the files above
it; they are all different, so that their number has a bound. -/
def load (ctx : Context) : Nat → List Path → Path → Option String → Option Nat →
    StateM Found BuildTree
  | 0, _, dir, text, call => do
    let source ← enter ctx (buildFile dir) text
    return node { dir, path := buildFile dir, call, source } []
  | depth + 1, stack, dir, text, call => do
    let path := buildFile dir
    let source ← enter ctx path text
    let stack := path :: stack
    let includes := (source.map SourceFile.includes).getD []
    let (problems, trees) ← follow ctx (load ctx depth stack) dir stack includes
    return node { dir, path, call, source, problems } trees

/-- A bound for the number of build files that there can be. -/
def Context.size (ctx : Context) : Nat :=
  ctx.source.overrides.length + ctx.disk.entries.length

/-! ### Analysis -/

/-- The scope from which an included file starts. -/
def startOf (c : Catalog) (scopes : List IncludeScope) (f : BuildFile) : Scope :=
  ((f.call.bind fun call => scopes.find? (·.call == call)).map IncludeScope.scope).getD
    (Scope.root c)

mutual

/-- Analyzes every file of a tree whose first file starts from a scope. -/
def analyze (c : Catalog) (scope : Scope) : BuildTree → BuildTree
  | node f ts =>
    match f.source with
    | none => node f ts
    | some s =>
      let a := s.analyze c f.path scope
      node { f with analysis := some a } (analyzeAll c a.includeScopes ts)

/-- Analyzes trees that are included at the places of the scopes. -/
def analyzeAll (c : Catalog) (scopes : List IncludeScope) : List BuildTree → List BuildTree
  | [] => []
  | t :: ts => analyze c (startOf c scopes t.file) t :: analyzeAll c scopes ts

end

end BuildTree

end MesonLens
