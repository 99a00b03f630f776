/-!
# `MesonLens.Files.Path`: file paths

A path is a sequence of names, from the root of the file system or from
somewhere else. It is kept as it is written: different paths may name one file.

* `Path.key`: the path without what makes no difference, so that paths can be
  compared;
* `Path.normalize`: also resolves `.` and `..`, by the names alone and without
  looking at the file system.
-/

set_option autoImplicit false

namespace MesonLens

/-- A file path. -/
structure Path where
  absolute : Bool := false
  /-- What stands between the slashes. -/
  parts : List String := []
  deriving DecidableEq, Repr, Inhabited

namespace Path

/-- The pieces of a text between slashes. -/
def pieces (text : String) : List String :=
  (text.toList.splitOnP (· == '/')).map String.ofList

/-- Reads a path. -/
def ofString (text : String) : Path :=
  if text.toList.head? = some '/' then ⟨true, (pieces text).drop 1⟩ else ⟨false, pieces text⟩

/-- Writes a path. -/
def display (p : Path) : String :=
  (if p.absolute then "/" else "") ++ String.intercalate "/" p.parts

/-- The path without what makes no difference. Repeated slashes are one, and `.`
means nothing except at the start of a path that does not begin at the root. -/
def key (p : Path) : Path :=
  let names := p.parts.filter fun name => name ≠ "" ∧ name ≠ "."
  if !p.absolute && p.parts.head? == some "." then ⟨false, "." :: names⟩
  else ⟨p.absolute, names⟩

/-- The path `q`, seen from the directory `p`. -/
def join (p q : Path) : Path :=
  if q.absolute then q else { p with parts := p.parts ++ q.parts }

/-- A name inside the directory `p`. -/
def child (p : Path) (name : String) : Path :=
  { p with parts := p.parts ++ [name] }

/-- Goes one directory up from a resolved path, whose innermost name comes
first. The root is its own parent. -/
def up (absolute : Bool) : List String → List String
  | [] => if absolute then [] else [".."]
  | top :: below => if top = ".." then ".." :: top :: below else below

/-- Resolves one more name. -/
def step (absolute : Bool) (resolved : List String) (name : String) : List String :=
  if name = "" ∨ name = "." then resolved
  else if name = ".." then up absolute resolved
  else name :: resolved

/-- The path without `.`, and with `..` only where it leads out of the starting
directory. -/
def normalize (p : Path) : Path :=
  { p with parts := (p.parts.foldl (step p.absolute) []).reverse }

/-- The directory that holds the path's last name. -/
def parent? (p : Path) : Option Path :=
  if p.parts.isEmpty then none else some { p with parts := p.parts.dropLast }

/-- The parts with a mark before each, so that the root comes before `.`, that
before `..`, and that before every name. -/
def sortKey (p : Path) : List String :=
  (if p.absolute then ["0"] else []) ++ p.key.parts.map fun name =>
    if name = "." then "1" else if name = ".." then "2" else "3" ++ name

/-- Paths in the order of their parts. -/
def le (a b : Path) : Bool := (List.compareLex compare a.sortKey b.sortKey).isLE

/-- The path as seen from a directory that it lies in. -/
def relativeTo? (p base : Path) : Option Path :=
  if p.absolute = base.absolute ∧ base.parts.isPrefixOf p.parts then
    some ⟨false, p.parts.drop base.parts.length⟩
  else none

end Path

end MesonLens
