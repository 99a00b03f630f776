import MesonLens.Files.Host
import MesonLens.Files.Path
import MesonLens.Files.Percent

/-!
# `MesonLens.Files.Url`: documents by address

An editor names documents by address. A document is a file when its address has
a path of its own and is on this machine.

* `Url.parse?`: reads an address; what it cannot read is no address;
* `Url.toPath?`: the file that an address names;
* `Url.ofPath?`: the address of a file.
-/

set_option autoImplicit false

namespace MesonLens

/-- What comes after the authority of an address. -/
inductive Route where
  /-- Names between slashes, percent-encoded. -/
  | steps (names : List String)
  /-- Text without an inner form. -/
  | plain (text : String)
  deriving DecidableEq, Repr

/-- Who is asked for a document. -/
structure Authority where
  /-- The user, with a password after a colon if there is one. -/
  user : String := ""
  host : Option Host := none
  /-- The number after the host, unless it is the usual one of the scheme. -/
  number : Option Nat := none
  deriving DecidableEq, Repr

/-- An address. -/
structure Url where
  scheme : String
  authority : Option Authority := none
  route : Route
  query : Option String := none
  fragment : Option String := none
  deriving DecidableEq, Repr

namespace Url

/-! ### Schemes -/

/-- What is known of a scheme. -/
inductive Family where
  | file
  /-- Its addresses always have a host. -/
  | hosted
  | other
  deriving DecidableEq, Repr

/-- The schemes whose addresses always have a host, with their usual numbers. -/
def hostedSchemes : List (String × Nat) :=
  [("http", 80), ("https", 443), ("ws", 80), ("wss", 443), ("ftp", 21)]

/-- What is known of a scheme. -/
def family (scheme : String) : Family :=
  if scheme = "file" then .file
  else if (hostedSchemes.lookup scheme).isSome then .hosted
  else .other

/-- Whether a character separates names; a backslash does so only in schemes of
which something is known. -/
def Family.isSlash (family : Family) (c : Char) : Bool :=
  c = '/' || (family ≠ .other && c = '\\')

/-- Whether a character only breaks the text of an address: a tab or a line end. -/
def isBreak (c : Char) : Bool := c = '\t' || c = '\n' || c = '\r'

/-- A text without breaks. -/
def clean (cs : List Char) : List Char := cs.filter (!isBreak ·)

/-- The text of an address without blanks and control characters at its ends. -/
def trim (text : String) : List Char :=
  let drop := fun cs : List Char => cs.dropWhile (·.toNat ≤ 0x20)
  (drop (drop text.toList).reverse).reverse

/-- Whether a character can stand in a scheme. -/
def inScheme (c : Char) : Bool := c.isAlphanum || c = '+' || c = '-' || c = '.'

/-- The scheme and what follows its colon. -/
def splitScheme? (cs : List Char) : Option (String × List Char) := do
  let belongs := fun c => inScheme c || isBreak c
  let name := clean (cs.takeWhile belongs)
  guard ((name.head?.map Char.isAlpha).getD false)
  match cs.dropWhile belongs with
  | ':' :: rest => pure (String.ofList (name.map Char.toLower), rest)
  | _ => none

/-! ### Names of a path -/

/-- A letter and a colon or bar, which name a drive. -/
def isDrive : List Char → Bool
  | [letter, mark] => letter.isAlpha && (mark = ':' || mark = '|')
  | _ => false

/-- A drive with a colon and what stands behind the breaks after it, when both are
there. -/
def brokenDrive? (name : List Char) : Option (List Char × List Char) :=
  match clean name, (name.dropWhile (· ≠ ':')).drop 1 with
  | letter :: ':' :: c :: cs, next :: _ =>
    if letter.isAlpha && isBreak next then some ([letter, ':'], c :: cs) else none
  | _, _ => none

/-- Whether nothing is above a name: it is a drive, or a drive and a backslash
stand at its front. -/
def isTop (name : List Char) : Bool :=
  isDrive (name.take 2) && (name.length = 2 || name[2]? = some '\\')

/-- A name that stands for the directory itself. -/
def isDot (name : List Char) : Bool :=
  [".", "%2e"].contains (String.ofList (name.map Char.toLower))

/-- A name that stands for the directory above. -/
def isDoubleDot (name : List Char) : Bool :=
  ["..", ".%2e", "%2e.", "%2e%2e"].contains (String.ofList (name.map Char.toLower))

/-- The names above the innermost one, which comes first. -/
def leave : List (List Char) → List (List Char)
  | [] => []
  | top :: names => if isTop top then top :: names else names

/-- How far the reading of a path has come. -/
structure Walk where
  /-- The names passed, the innermost first. -/
  passed : List (List Char) := []
  /-- Whether the path starts at a drive, which no other machine has. -/
  atDrive : Bool := false

/-- Goes on by a name that is no dots. -/
def Walk.enter (walk : Walk) (family : Family) (name : List Char) : Walk :=
  if family = .file && walk.passed.isEmpty && isDrive name then
    { passed := [name.take 1 ++ [':']], atDrive := true }
  else { walk with passed := name :: walk.passed }

/-- Goes on by a name without breaks. Dots at the end of an address leave an empty
name. -/
def Walk.pass (walk : Walk) (family : Family) (name : List Char) (last : Bool) : Walk :=
  let passed := if isDoubleDot name then leave walk.passed else walk.passed
  if isDot name || isDoubleDot name then
    { walk with passed := if last then [] :: passed else passed }
  else walk.enter family (Percent.encode Percent.inAddress name)

/-- Goes on by a name. What stands behind the breaks after the colon of a first
drive is a name of its own, whatever it is. -/
def Walk.step (walk : Walk) (family : Family) (name : List Char) (last : Bool) : Walk :=
  match (if family = .file && walk.passed.isEmpty then brokenDrive? name else none) with
  | some (drive, rest) =>
    { walk with passed := [Percent.encode Percent.inAddress rest, drive] }
  | none => walk.pass family (clean name) last

/-- Goes on by names to the end of an address. -/
def Walk.follow (family : Family) (walk : Walk) : List (List Char) → Walk
  | [] => walk
  | name :: names => Walk.follow family (walk.step family name names.isEmpty) names

/-- The names passed, the outermost first. The path of a file does not start
with empty names. -/
def Walk.names (walk : Walk) (family : Family) : List String :=
  let found := walk.passed.reverse.map String.ofList
  if family = .file then
    let found := found.dropWhile (· == "")
    if found.isEmpty then [""] else found
  else found

/-- Reads the names after the slash of the root. -/
def walkNames (family : Family) (cs : List Char) : Walk :=
  Walk.follow family {} (cs.splitOnP family.isSlash)

/-- A text without the slash that it may start with. -/
def dropSlash (family : Family) : List Char → List Char
  | [] => []
  | c :: cs => if family.isSlash c then cs else c :: cs

/-! ### Users and hosts -/

/-- What stands before the last at sign, if there is one, and what after it. -/
def splitUser (cs : List Char) : Option (List Char) × List Char :=
  let after := (cs.reverse.takeWhile (· ≠ '@')).reverse
  (if cs.contains '@' then some (cs.take (cs.length - after.length - 1)) else none, after)

/-- A user as it is written. The colon before an empty password is left out. -/
def writeUser (cs : List Char) : String :=
  let name := cs.takeWhile (· ≠ ':')
  let password := (cs.dropWhile (· ≠ ':')).drop 1
  let write := fun part => String.ofList (Percent.encode Percent.inUser part)
  if password.isEmpty then write name else write name ++ ":" ++ write password

/-- Splits behind a host: before the first colon that is not in brackets. -/
def splitHost (inside : Bool) : List Char → List Char × List Char
  | [] => ([], [])
  | c :: cs =>
    if c = ':' && !inside then ([], c :: cs)
    else
      let (host, rest) := splitHost (if c = '[' then true else if c = ']' then false else inside) cs
      (c :: host, rest)

/-- The number after a colon, if there is one, and what follows it. It has at
most 16 bits, and a slash of any kind ends it. -/
def splitNumber? : List Char → Option (Option Nat × List Char)
  | ':' :: cs => do
    let digits := cs.takeWhile Char.isDigit
    let rest := cs.dropWhile Char.isDigit
    guard (rest.isEmpty || rest.head? = some '\\')
    let n := Nat.ofDigitChars 10 digits 0
    guard (n ≤ 0xffff)
    pure (if digits.isEmpty then none else some n, rest)
  | rest => some (none, rest)

/-- A host; only schemes of which nothing is known do without one. -/
def host? (family : Family) (cs : List Char) : Option (Option Host) :=
  if cs.isEmpty then (if family = .other then some none else none)
  else ((if family = .other then Host.readPlain? cs else Host.read? cs).map some)

/-- Reads an authority, and gives what follows it too. Whether the address goes
on after the text matters where a user has no name and no host. -/
def authority? (scheme : String) (goesOn : Bool) (cs : List Char) :
    Option (Authority × List Char) := do
  let family := family scheme
  let text := cs.takeWhile (!family.isSlash ·)
  let rest := cs.dropWhile (!family.isSlash ·)
  let (user, place) := splitUser text
  guard (!(user = some [] && place.isEmpty && (goesOn || !rest.isEmpty)))
  let user := (user.map writeUser).getD ""
  let (name, tail) := splitHost false place
  let host ← host? family name
  -- Neither a user nor a number stands without a host.
  guard (host.isSome || (user = "" && tail.isEmpty))
  let (number, tail) ← splitNumber? tail
  let number := if number = hostedSchemes.lookup scheme then none else number
  pure ({ user, host, number }, tail ++ rest)

/-! ### Addresses -/

/-- Whether the query or the fragment starts at a character. -/
def startsTail (c : Char) : Bool := c = '?' || c = '#'

/-- Puts the query and the fragment to an address. -/
def withTail (url : Url) (cs : List Char) : Url :=
  let query := cs.takeWhile (· ≠ '#')
  let fragment := cs.dropWhile (· ≠ '#')
  let quoted := family url.scheme ≠ .other
  { url with
    query :=
      if query.isEmpty then none
      else some (String.ofList (Percent.encode (Percent.inQuery quoted) (query.drop 1)))
    fragment :=
      if fragment.isEmpty then none
      else some (String.ofList (Percent.encode Percent.inFragment (fragment.drop 1))) }

/-- The address of a file at the end of a path. -/
def ofWalk (walk : Walk) (host : Option Host) : Url :=
  { scheme := "file"
    authority := some { host := if walk.atDrive then none else host }
    route := .steps (walk.names .file) }

/-- Reads the address of a file after its two slashes. -/
def readRemote? (cs : List Char) : Option Url := do
  let name := clean (cs.takeWhile (!Family.isSlash .file ·))
  let rest := cs.dropWhile (!Family.isSlash .file ·)
  -- A drive in the place of a host is the first name of the path.
  if isDrive name then pure (ofWalk (walkNames .file cs) none)
  else if name.isEmpty then pure (ofWalk (walkNames .file rest) none)
  else
    let host ← Host.read? name
    if host.isLocal then pure (ofWalk (walkNames .file rest) none)
    else pure (ofWalk (walkNames .file (dropSlash .file rest)) (some host))

/-- What follows the slash that a text starts with behind breaks. -/
def afterSlash? (family : Family) (cs : List Char) : Option (List Char) :=
  match cs.dropWhile isBreak with
  | [] => none
  | c :: cs => if family.isSlash c then some cs else none

/-- Reads the address of a file after its scheme. -/
def readFile? (cs : List Char) : Option Url :=
  match afterSlash? .file cs with
  | none => some (ofWalk (walkNames .file cs) none)
  | some rest =>
    match afterSlash? .file rest with
    | none => some (ofWalk (walkNames .file rest) none)
    | some rest => readRemote? rest

/-- Reads an address with an authority, from the authority on. -/
def readHosted? (scheme : String) (goesOn : Bool) (cs : List Char) : Option Url := do
  let family := family scheme
  let (authority, rest) ← authority? scheme goesOn cs
  -- An address that always has a host has at least the root as its path.
  let names :=
    if family = .other && rest.isEmpty then []
    else (walkNames family (dropSlash family rest)).names family
  pure { scheme, authority := some authority, route := .steps names }

/-- Reads an address of which only the scheme is known. -/
def readOther? (scheme : String) (goesOn : Bool) : List Char → Option Url
  | '/' :: '/' :: cs => readHosted? scheme goesOn cs
  | '/' :: cs => some { scheme, route := .steps ((walkNames .other cs).names .other) }
  | cs => some { scheme, route := .plain (String.ofList (Percent.encode Percent.isPrintable cs)) }

/-- Reads an address; nothing when the text is none. -/
def parse? (text : String) : Option Url := do
  let (scheme, rest) ← splitScheme? (trim text)
  let body := rest.takeWhile (!startsTail ·)
  let tail := clean (rest.dropWhile (!startsTail ·))
  let url ←
    match family scheme with
    | .file => readFile? body
    | .hosted =>
      readHosted? scheme (!tail.isEmpty) ((clean body).dropWhile (Family.isSlash .hosted))
    | .other => readOther? scheme (!tail.isEmpty) (clean body)
  pure (url.withTail tail)

/-! ### Files -/

/-- Whether an address is on this machine. -/
def isLocal (u : Url) : Bool :=
  ((u.authority.bind (·.host)).map Host.isLocal).getD true

/-- The resolved path of the file that an address names. -/
def toPath? (u : Url) : Option Path :=
  match u.route with
  | .plain _ | .steps [] => none
  | .steps names =>
    if u.isLocal then
      let decoded := names.map fun name => Percent.decode name.toList
      some (Path.ofString ("/" ++ String.intercalate "/" decoded)).normalize
    else none

/-- The address of a file; nothing when the path does not start at the root. -/
def ofPath? (p : Path) : Option Url :=
  if p.absolute then
    let names := p.parts.map fun name => String.ofList (Percent.encode Percent.inName name.toList)
    some
      { scheme := "file", authority := some {}
        route := .steps (if names.isEmpty then [""] else names) }
  else none

/-- Writes an authority. -/
def displayAuthority (a : Authority) : String :=
  (if a.user = "" then "" else a.user ++ "@") ++ (a.host.map Host.display).getD ""
    ++ (a.number.map fun n => ":" ++ toString n).getD ""

/-- Writes a path. Without an authority two slashes at its front are kept apart
from the scheme. -/
def displayRoute (u : Url) : String :=
  match u.route with
  | .plain text => text
  | .steps names =>
    (if u.authority.isNone && 1 < names.length && names.head? = some "" then "/." else "")
      ++ String.join (names.map ("/" ++ ·))

/-- Writes an address. -/
def display (u : Url) : String :=
  u.scheme ++ ":" ++ (u.authority.map fun a => "//" ++ displayAuthority a).getD ""
    ++ u.displayRoute ++ (u.query.map ("?" ++ ·)).getD "" ++ (u.fragment.map ("#" ++ ·)).getD ""

end Url

end MesonLens
