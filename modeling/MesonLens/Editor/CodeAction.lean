import MesonLens.Editor.Edit
import MesonLens.Editor.NameRole
import MesonLens.Project.Basic

/-!
# `MesonLens.Editor.CodeAction`: changes that can be made at a place

* a number can be written to another base;
* a library can be turned into another kind, or be declared as a dependency;
* a file that is configured by copying can be copied.
-/

set_option autoImplicit false

namespace MesonLens

/-- A change that is offered. -/
structure CodeAction where
  title : String
  edit : TextEdit
  deriving DecidableEq, Repr

namespace CodeAction

/-! ### Numbers -/

/-- A base in which numbers are written. -/
inductive Base where
  | hexadecimal | octal | binary | decimal
  deriving DecidableEq, Repr

namespace Base

/-- The name of a base. -/
def display : Base → String
  | hexadecimal => "hexadecimal"
  | octal => "octal"
  | binary => "binary"
  | decimal => "decimal"

/-- What stands before the digits. -/
def mark : Base → String
  | hexadecimal => "0x"
  | octal => "0o"
  | binary => "0b"
  | decimal => ""

/-- How many digits there are. -/
def size : Base → Nat
  | hexadecimal => 16
  | octal => 8
  | binary => 2
  | decimal => 10

/-- The bases in the order in which they are offered. -/
def all : List Base := [hexadecimal, octal, binary, decimal]

/-- The base of a written number. -/
def of (raw : String) : Base :=
  match raw.toList.map Char.toLower with
  | '0' :: 'x' :: _ => hexadecimal
  | '0' :: 'o' :: _ => octal
  | '0' :: 'b' :: _ => binary
  | _ => decimal

/-- Writes a number. -/
def write (b : Base) (n : Nat) : String :=
  b.mark ++ String.ofList (Nat.toDigits b.size n)

end Base

/-- The number in the other bases. -/
def conversions (range : Range) (value : Nat) (raw : String) : List CodeAction :=
  (Base.all.filter (· ≠ Base.of raw)).map fun b =>
    ⟨s!"Convert to {b.display} literal", range, b.write value⟩

/-! ### Calls -/

/-- Calls another function instead. -/
def rename (callee : Tree Mark) (title name : String) : CodeAction :=
  ⟨title, callee.span.range, name⟩

/-- The functions that can take the place of a library function. -/
def renames (callee : Tree Mark) (name : String) : List CodeAction :=
  (if name = "static_library" ∨ name = "shared_library" then
      [rename callee "Use generic library()" "library"] else [])
    ++ (if name = "shared_library" then
      [rename callee "Convert to shared_module()" "shared_module"] else [])
    ++ (if name = "shared_module" then
      [rename callee "Convert to shared_library()" "shared_library"] else [])

/-- The value of a keyword argument. -/
def keywordValue? : Tree Mark → Option (Tree Mark)
  | .keyword _ _ value => some value
  | _ => none

/-- The value that a call gives for a keyword argument, the first of several. -/
def valueOf? (args : List (String × Tree Mark)) (name : String) : Option (Tree Mark) :=
  (args.lookup name).bind keywordValue?

/-- The functions that make a library. -/
def libraryFunctions : List String :=
  ["library", "static_library", "shared_library", "both_libraries"]

/-- The arguments of a dependency on a library. -/
def dependencyArgs (source : SourceFile) (call : Tree Mark) (name : String) : String :=
  let dirs := call.keywordArgs.filterMap fun (key, item) =>
    if key = "include_directories" then keywordValue? item else none
  s!"link_with: {name}"
    ++ String.join (dirs.map fun t => ", include_directories: " ++ source.textOf t)

/-- Declares a dependency after the assignment of a library to a variable. -/
def declareDependency? (source : SourceFile) (parent : Option (Tree Mark)) (call : Tree Mark) :
    Option CodeAction :=
  match parent with
  | some (.assignment mark (.identifier _ name) .assign value) =>
    if value.id = call.id then
      let place := mark.span.stop.place
      let args := dependencyArgs source call name
      some ⟨s!"Declare dependency '{name}_dep'", ⟨place, place⟩,
        s!"\n{name}_dep = declare_dependency({args})"⟩
    else none
  | _ => none

/-- The variable that holds the module for files, the first by name. -/
def fileModule? (scope : Scope) : Option String :=
  let found := scope.bindings.filter fun (_, b) => b.types.objects.any (·.2 == "fs_module")
  ((found.map Prod.fst).mergeSort (· ≤ ·)).head?

/-- Copies a file instead of configuring it, when copying is all that is asked. -/
def copyFile? (source : SourceFile) (scope : Scope) (call : Tree Mark) : Option CodeAction := do
  let args := call.keywordArgs
  guard (call.positionalArgs.isEmpty && args.length == 3)
  let input ← valueOf? args "input"
  let output ← valueOf? args "output"
  match ← valueOf? args "copy" with
  | .boolean _ true =>
    let holder := (fileModule? scope).getD "import('fs')"
    pure ⟨"Use fs.copyfile()", call.span.range,
      holder ++ ".copyfile(" ++ source.textOf input ++ ", " ++ source.textOf output ++ ")"⟩
  | _ => none

/-- The changes that a call offers. -/
def ofCall (source : SourceFile) (scope : Scope) (parent : Option (Tree Mark))
    (call callee : Tree Mark) (name : String) : List CodeAction :=
  renames callee name
    ++ (if name = "configure_file" then (copyFile? source scope call).toList else [])
    ++ (if libraryFunctions.contains name then (declareDependency? source parent call).toList
        else [])

/-- The changes that a node offers. -/
def ofNode (source : SourceFile) (scope : Scope) (parent : Option (Tree Mark)) :
    Tree Mark → List CodeAction
  | .integer mark value raw => conversions mark.span.range value raw
  | call@(.call _ callee _) =>
    (callee.identifier?.map (ofCall source scope parent call callee)).getD []
  | _ => []

/-- The changes that the nodes around a place offer, outer nodes first. -/
def all (p : Project) (path : Path) (line column : Nat) : List CodeAction :=
  ((p.view? path).map fun v =>
    (v.source.root.family none).flatMap fun (parent, t) =>
      if t.span.contains line column then ofNode v.source v.analysis.scope parent t
      else []).getD []

end CodeAction

end MesonLens
