import MesonLens.Files.Disk

/-!
# `MesonLens.Files.Source`: where the text of a file comes from

The editor holds some files in buffers of its own. Their text takes the place
of what is on the disk.

* `Source.read`, `Source.hasFile`: the text of a file;
* `Source.setOverride`, `Source.openFile`, `Source.close`: what the editor does.
-/

set_option autoImplicit false

namespace MesonLens

/-- A file that could not be read, and why. -/
structure ReadError where
  path : Path
  cause : DiskError
  deriving DecidableEq, Repr

/-- The wording, the outermost cause first. -/
def ReadError.chain (e : ReadError) : List String :=
  [s!"Failed to read '{e.path.display}'", e.cause.message]

/-- What the editor holds. -/
structure Source where
  /-- Texts that take the place of what is on the disk, by the keys of paths. -/
  overrides : List (Path × String) := []
  /-- The files that are open, as the editor names them. -/
  opened : List Path := []
  deriving Repr

namespace Source

/-- The text that takes the place of a file. -/
def override? (s : Source) (p : Path) : Option String := s.overrides.lookup p.key

/-- Whether a text takes the place of a file. -/
def hasOverride (s : Source) (p : Path) : Bool := (s.override? p).isSome

/-- Whether a file is open. -/
def isOpen (s : Source) (p : Path) : Bool := s.opened.any (·.key == p.key)

/-- The text of a file: what the editor holds, or what is on the disk. -/
def read (s : Source) (disk : Disk) (p : Path) : Except ReadError String :=
  match s.override? p with
  | some text => .ok text
  | none => (disk.read p).mapError fun cause => ⟨p, cause⟩

/-- Whether there is a file, in the editor or on the disk. -/
def hasFile (s : Source) (disk : Disk) (p : Path) : Bool :=
  s.hasOverride p || disk.isFile p

/-- Drops the text that takes the place of a file. -/
def removeOverride (s : Source) (p : Path) : Source :=
  { s with overrides := s.overrides.filter (·.1 ≠ p.key) }

/-- Puts a text in the place of a file. -/
def setOverride (s : Source) (p : Path) (text : String) : Source :=
  { s with overrides := (p.key, text) :: s.overrides.filter (·.1 ≠ p.key) }

/-- A file is opened with a text. One that is open already keeps its name. -/
def openFile (s : Source) (p : Path) (text : String) : Source :=
  { s.setOverride p text with opened := if s.isOpen p then s.opened else p :: s.opened }

/-- A file is closed; the disk tells its text again. -/
def close (s : Source) (p : Path) : Source :=
  { s.removeOverride p with opened := s.opened.filter (·.key ≠ p.key) }

/-- The open files in order. -/
def openFiles (s : Source) : List Path := s.opened.mergeSort Path.le

end Source

end MesonLens
