import MesonLens.Files.Path
import MesonLens.Syntax.SourceFile
import MesonLens.Text.Digest

/-!
# `MesonLens.Project.Cache`: files that were read before

A file that is not open is parsed once for each text that it has: the cache
keeps its tree with a fingerprint of the text. An open file changes all the
time; it is parsed anew and leaves the cache alone.
-/

set_option autoImplicit false

namespace MesonLens

/-- A parsed file. The serial number tells one parse from another. -/
structure Parsed where
  serial : Nat
  file : SourceFile

/-- A parsed file with the fingerprint of its text. -/
structure CacheEntry where
  digest : UInt64
  parsed : Parsed

/-- The parsed files by the keys of their paths. -/
structure Cache where
  entries : List (Path × CacheEntry) := []
  /-- How many parses there were. -/
  parses : Nat := 0

namespace Cache

/-- What is kept for a path. -/
def entry? (c : Cache) (p : Path) : Option CacheEntry := c.entries.lookup p.key

/-- The tree that is kept for a path, whatever text it comes from. -/
def get? (c : Cache) (p : Path) : Option Parsed := (c.entry? p).map CacheEntry.parsed

/-- Whether something is kept for a path. -/
def contains (c : Cache) (p : Path) : Bool := (c.entry? p).isSome

/-- How many files are kept. -/
def size (c : Cache) : Nat := c.entries.length

/-- Forgets a path. -/
def evict (c : Cache) (p : Path) : Cache :=
  { c with entries := c.entries.filter (·.1 ≠ p.key) }

/-- Parses a text, and counts the parse. -/
def parse (c : Cache) (text : String) : Parsed × Cache :=
  (⟨c.parses, SourceFile.parse text⟩, { c with parses := c.parses + 1 })

/-- Keeps a parsed file. -/
def insert (c : Cache) (p : Path) (e : CacheEntry) : Cache :=
  { c with entries := (p.key, e) :: c.entries.filter (·.1 ≠ p.key) }

/-- The tree of a file with a text. -/
def read (c : Cache) (p : Path) (text : String) (isOpen : Bool) : Parsed × Cache :=
  if isOpen then c.parse text
  else
    let digest := Digest.ofText text
    match (c.entry? p).filter (·.digest == digest) with
    | some e => (e.parsed, c)
    | none =>
      let (parsed, c) := c.parse text
      (parsed, c.insert p ⟨digest, parsed⟩)

end Cache

end MesonLens
