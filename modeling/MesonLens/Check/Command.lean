import MesonLens.Builtin.Catalog
import MesonLens.Check.Help
import MesonLens.Check.Report

/-!
# `MesonLens.Check.Command`: checking without an editor

* `Check.typesAt?`: the types of the innermost expression at a place;
* `Check.projectRoot?`: the project that a file belongs to;
* `Check.run`: a whole command, from its words to what it writes.
-/

set_option autoImplicit false

namespace MesonLens

/-- Why a command could not be carried out. -/
inductive CheckError where
  | noDirectory (dir : String) (cause : DiskError)
  | noFile (file : String) (cause : DiskError)
  | noProject (cause : NoProject)
  /-- There is no build file next to the file. -/
  | outside (file : Path)
  | notIncluded (file root : Path)
  | nothingThere (line column : Nat)
  deriving Repr

/-- The wording, the outermost cause first. -/
def CheckError.chain : CheckError → List String
  | noDirectory dir cause => [s!"Failed to resolve directory '{dir}'", cause.message]
  | noFile file cause => [s!"Failed to resolve file '{file}'", cause.message]
  | noProject cause => cause.chain
  | outside file => [s!"No meson.build next to '{file.display}'"]
  | notIncluded file root =>
    [s!"'{file.display}' is not part of the project rooted at '{root.display}'"]
  | nothingThere line column => [s!"No typed expression at {line}:{column}"]

/-- What a command writes, and the number it ends with. -/
structure Output where
  exitCode : Nat := 0
  stdout : String := ""
  stderr : String := ""
  deriving Repr

namespace Check

/-! ### Failures -/

/-- Text behind a mark; further lines of it are indented by as much. -/
def indent (mark text : String) : String :=
  let blanks := String.ofList (List.replicate mark.length ' ')
  mark ++ String.intercalate ("\n" ++ blanks) (text.splitOn "\n")

/-- The causes of a failure; they are numbered when there are several. -/
def causes (chain : List String) : String :=
  match chain with
  | [] => ""
  | [cause] => "\n\nCaused by:\n" ++ indent "    " cause
  | several =>
    "\n\nCaused by:\n" ++ String.intercalate "\n"
      (several.mapIdx fun i cause => indent s!"    {i}: " cause)

/-- What a failed command writes. -/
def failure (e : CheckError) : Output :=
  match e.chain with
  | [] => { exitCode := 1 }
  | outer :: inner => { exitCode := 1, stderr := "Error: " ++ outer ++ causes inner ++ "\n" }

/-! ### Types at a place -/

/-- The types of the innermost expression at a place, which counts from zero. The
name of a call is looked at before what stands around it. -/
def typesAt? (i : Index) (line column : Nat) : Option String :=
  let ofMethod := fun u : MethodUse => s!"{u.name}(): {u.types.describe}"
  let ofCall := fun u : FunctionUse => s!"{u.name}(): {u.types.describe}"
  let method := i.methodCallAt line column
  let call := i.callAt line column
  ((i.identifierAt line column).map fun u => s!"{u.name}: {u.types.describe}").or <|
    ((method.filter (·.nameSpan.contains line column)).map ofMethod).or <|
    ((call.filter (·.nameSpan.contains line column)).map ofCall).or <|
    match method, call with
    | some m, some c => some (if m.span.length < c.span.length then ofMethod m else ofCall c)
    | m, c => (c.map ofCall).or (m.map ofMethod)

/-! ### Projects -/

/-- Goes up from a directory, told by its names from the innermost on, as long as
there is a build file above. -/
def climb (disk : Disk) : List String → Path
  | [] => Disk.place []
  | name :: above =>
    if disk.isFile (buildFile (Disk.place above.reverse)) then climb disk above
    else Disk.place (name :: above).reverse

/-- The topmost directory of the unbroken chain of build files above a file. -/
def projectRoot? (disk : Disk) (file : Path) : Option Path := do
  let dir ← file.parent?
  guard (disk.isFile (buildFile dir))
  pure (climb disk dir.parts.reverse)

/-- Reads and analyzes the project of a directory. -/
def load (disk : Disk) (root : Path) : Except CheckError Project := do
  let (p, _) ← (Project.parse disk {} {} root).mapError .noProject
  pure (p.analyze Builtin.catalog)

/-- Where a path that is seen from a directory leads to. -/
def resolve (disk : Disk) (here : Path) (text : String) : Except DiskError Path :=
  disk.resolve (here.join (Path.ofString text))

/-- Tells the problems of the project in a directory. -/
def problems (disk : Disk) (here : Path) (dir : String) (structured : Bool) :
    Except CheckError Output := do
  let root ← (resolve disk here dir).mapError (.noDirectory dir)
  let report := Report.ofProject (← load disk root)
  pure
    { exitCode := if report.errors = 0 then 0 else 1
      stdout := if structured then report.encode.pretty 0 ++ "\n" else report.lines }

/-- Tells the types at a place of a file. -/
def types (disk : Disk) (here : Path) (file : String) (line column : Nat) :
    Except CheckError Output := do
  let path ← (resolve disk here file).mapError (.noFile file)
  let root ← ((projectRoot? disk path).elim (.error (.outside path)) .ok)
  let project ← load disk root
  let index ← (project.index? path).elim (.error (.notIncluded path root)) .ok
  match typesAt? index (line - 1) (column - 1) with
  | some text => pure { stdout := text ++ "\n" }
  | none => .error (.nothingThere line column)

/-- Carries out a command line in a directory. -/
def run (disk : Disk) (here : Path) (args : List String) : Output :=
  let finish := fun r : Except CheckError Output =>
    match r with
    | .ok output => output
    | .error e => failure e
  match Request.ofArguments? args with
  | none => { exitCode := 2, stderr := Topic.commands.text }
  | some (.help topic) => { stdout := topic.text }
  | some .version => { stdout := "mesonlsp-check 0.1.0\n" }
  | some (.check dir structured) => finish (problems disk here dir structured)
  | some (.types file line column) => finish (types disk here file line column)

/-! ### What a command needs to know -/

/-- The paths above a path and the path itself. -/
def pathsTo (p : Path) : List Path :=
  (List.range (p.parts.length + 1)).map fun n => { p with parts := p.parts.take n }

/-- The paths that a command line looks at, apart from included files. -/
def lookedAt (here : Path) (args : List String) : List Path :=
  let target :=
    match Request.ofArguments? args with
    | some (.check dir _) => [here.join (Path.ofString dir)]
    | some (.types file _ _) => [here.join (Path.ofString file)]
    | _ => []
  target.flatMap fun p => (pathsTo p ++ pathsTo p.normalize).flatMap fun q => [q, buildFile q]

/-- The paths that a build file with a text leads to. -/
def includedFrom (path : Path) (text : String) : List Path :=
  match path.parent? with
  | none => []
  | some dir =>
    (SourceFile.parse text).includes.map fun i => buildFile (BuildTree.includedDir dir i)

end Check

end MesonLens
