import MesonLens.Files.Path
import MesonLens.Text.Utf8

/-!
# `MesonLens.Files.Disk`: the files of a machine

A `Disk` is what the file system holds: files of bytes, and directories. A
directory is there when it is listed or when something in it is.

* `Disk.resolve`: the place that a path leads to, name by name;
* `Disk.read`: the text of a file, or why it cannot be read;
* `Disk.isFile`: whether there is a file.
-/

set_option autoImplicit false

namespace MesonLens

/-- Why a path does not give a text. -/
inductive DiskError where
  | notFound
  | notDirectory
  | isDirectory
  /-- A name has more than 255 bytes, or a path more than 4095. -/
  | nameTooLong
  /-- The path has a zero byte in it. -/
  | zeroByte
  /-- The file holds bytes that are not text. -/
  | notText
  deriving DecidableEq, Repr

/-- The wording of an error. -/
def DiskError.message : DiskError → String
  | notFound => "No such file or directory (os error 2)"
  | notDirectory => "Not a directory (os error 20)"
  | isDirectory => "Is a directory (os error 21)"
  | nameTooLong => "File name too long (os error 36)"
  | zeroByte => "file name contained an unexpected NUL byte"
  | notText => "stream did not contain valid UTF-8"

/-- What stands at a place of the disk. -/
inductive Entry where
  | text (content : String)
  | bytes (content : List UInt8)
  | directory
  deriving Repr

/-- What the file system holds, by the keys of paths from the root. -/
structure Disk where
  entries : List (Path × Entry) := []
  deriving Repr

namespace Disk

/-- The path from the root with the given names. -/
def place (parts : List String) : Path := ⟨true, parts⟩

/-- What stands at a place. -/
def entry? (d : Disk) (parts : List String) : Option Entry :=
  match d.entries.lookup (place parts) with
  | some e => some e
  | none =>
    if parts.isEmpty || d.entries.any fun (p, _) => parts.isPrefixOf p.parts then
      some .directory
    else none

/-- Whether there is a directory at a place. -/
def isDirectoryAt (d : Disk) (parts : List String) : Bool :=
  match d.entry? parts with
  | some .directory => true
  | _ => false

/-- Goes from a directory along names to what they lead to. -/
def follow (d : Disk) (here : List String) : List String → Except DiskError (List String)
  | [] => .ok here
  | name :: names =>
    if !d.isDirectoryAt here then .error .notDirectory
    else if name = "." ∨ name = "" then d.follow here names
    else if name = ".." then d.follow here.dropLast names
    else if 255 < name.utf8ByteSize then .error .nameTooLong
    else if (d.entry? (here ++ [name])).isSome then d.follow (here ++ [name]) names
    else .error .notFound

/-- Whether there is a zero byte in a path, so that the machine cannot be told of
it. -/
def hasZero (p : Path) : Bool := p.parts.any fun name => name.toList.contains '\x00'

/-- The place that a path from the root leads to, name by name. -/
def resolve (d : Disk) (p : Path) : Except DiskError Path :=
  if hasZero p then .error .zeroByte
  else if p.absolute then (d.follow [] p.parts).map place
  else .error .notFound

/-- The place that a path leads to which is given to the machine as a whole. -/
def find (d : Disk) (p : Path) : Except DiskError Path :=
  if !hasZero p && 4095 < p.display.utf8ByteSize then .error .nameTooLong else d.resolve p

/-- The text of the file at a path. -/
def read (d : Disk) (p : Path) : Except DiskError String := do
  let there ← d.find p
  match d.entry? there.parts with
  | some (.text content) => .ok content
  | some (.bytes content) => (Utf8.decode content).mapError fun _ => .notText
  | some .directory => .error .isDirectory
  | none => .error .notFound

/-- Whether there is a file at a path. -/
def isFile (d : Disk) (p : Path) : Bool :=
  match d.find p with
  | .ok there => !d.isDirectoryAt there.parts
  | .error _ => false

/-- Puts something at a path. -/
def write (d : Disk) (p : Path) (e : Entry) : Disk :=
  ⟨(p.key, e) :: d.entries.filter (·.1 ≠ p.key)⟩

/-- Removes what is at a path and below it. The directory that held it stays. -/
def remove (d : Disk) (p : Path) : Disk :=
  let rest : Disk := ⟨d.entries.filter fun (q, _) => !p.key.parts.isPrefixOf q.parts⟩
  match p.key.parent? with
  | some parent => if d.isDirectoryAt parent.parts then rest.write parent .directory else rest
  | none => rest

end Disk

end MesonLens
