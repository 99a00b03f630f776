import MesonLens.Files.Domain
import MesonLens.Files.Percent

/-!
# `MesonLens.Files.Host`: machines in addresses

An address names a machine by its name or by a number, which is written in parts
of 8 or of 16 bits.

* `Host.read?`: a machine in an address whose scheme knows machines;
* `Host.readPlain?`: a machine in any other address.
-/

set_option autoImplicit false

namespace MesonLens

/-- A machine. -/
inductive Host where
  | name (text : String)
  /-- A machine by a number of 32 bits. -/
  | short (number : Nat)
  /-- A machine by eight numbers of 16 bits. -/
  | long (pieces : List Nat)
  deriving DecidableEq, Repr

namespace Host

/-! ### Numbers of 32 bits -/

/-- What a part of a number is written with: sixteen digits after `0x`, eight
after a zero, else ten. -/
def radix : List Char → Nat × List Char
  | '0' :: 'x' :: cs | '0' :: 'X' :: cs => (16, cs)
  | '0' :: c :: cs => (8, c :: cs)
  | cs => (10, cs)

/-- The number that digits mean. -/
def ofDigits (base : Nat) (cs : List Char) : Option Nat :=
  cs.foldlM (fun sum c => do
    let d ← Percent.hexValue? c
    guard (d < base)
    pure (sum * base + d)) 0

/-- The number that a part means. No digits after a mark mean zero. -/
def part? (cs : List Char) : Option Nat :=
  if cs.isEmpty then none
  else
    let (base, digits) := radix cs
    ofDigits base digits

/-- The labels of a name, without an empty one at its end. -/
def labels (text : String) : List (List Char) :=
  let all := text.toList.splitOnP (· == '.')
  if 1 < all.length && all.getLast? = some [] then all.dropLast else all

/-- Whether a name ends as a number does, so that it has to be one. -/
def endsInNumber (text : String) : Bool :=
  match (labels text).getLast? with
  | some last => (!last.isEmpty && last.all Char.isDigit) || (part? last).isSome
  | none => false

/-- Joins parts: each but the last has 8 bits, and the last fills what is left. -/
def joinParts? (sum left : Nat) : List Nat → Option Nat
  | [] => none
  | [last] => if last < left then some (sum * left + last) else none
  | n :: parts => if n ≤ 0xff then joinParts? (sum * 0x100 + n) (left / 0x100) parts else none

/-- The number that a name of at most four parts means. -/
def number? (text : String) : Option Nat := do
  let parts := labels text
  guard (parts.length ≤ 4)
  joinParts? 0 0x100000000 (← parts.mapM part?)

/-! ### Numbers in brackets -/

/-- A piece: up to four hexadecimal digits. -/
def piece? (cs : List Char) : Option Nat := do
  guard (!cs.isEmpty && cs.length ≤ 4)
  ofDigits 16 cs

/-- A part of 8 bits in ten digits, without a zero in front. -/
def octet? (cs : List Char) : Option Nat := do
  guard (!cs.isEmpty && cs.length ≤ 3 && (cs.length = 1 || cs.head? ≠ some '0'))
  (ofDigits 10 cs).filter (· ≤ 0xff)

/-- The two pieces that four parts of 8 bits make. -/
def dotted? (cs : List Char) : Option (List Nat) := do
  match ← (cs.splitOnP (· == '.')).mapM octet? with
  | [a, b, c, d] => pure [a * 0x100 + b, c * 0x100 + d]
  | _ => none

/-- The pieces between colons. The last may be four parts of 8 bits. -/
def readPieces? (dots : Bool) : List (List Char) → Option (List Nat)
  | [] => some []
  | [last] => if dots && last.contains '.' then dotted? last else (piece? last).map ([·])
  | cs :: rest => do pure ((← piece? cs) :: (← readPieces? dots rest))

/-- The pieces of a text; it may be empty. -/
def pieces? (dots : Bool) (cs : List Char) : Option (List Nat) :=
  if cs.isEmpty then some [] else readPieces? dots (cs.splitOnP (· == ':'))

/-- What stands before and after the first two colons in a row. -/
def splitColons (before : List Char) : List Char → Option (List Char × List Char)
  | ':' :: ':' :: cs => some (before.reverse, cs)
  | c :: cs => splitColons (c :: before) cs
  | [] => none

/-- Eight pieces, where two colons in a row stand for as many zeros as are
missing, and at least for one. -/
def brackets? (cs : List Char) : Option Host := do
  match splitColons [] cs with
  | none =>
    let all ← pieces? true cs
    guard (all.length = 8)
    pure (long all)
  | some (before, after) =>
    let before ← pieces? false before
    let after ← pieces? true after
    let known := before.length + after.length
    guard (known ≤ 7)
    pure (long (before ++ List.replicate (8 - known) 0 ++ after))

/-- What stands between the brackets of a text that starts with one. -/
def inBrackets? (cs : List Char) : Option Host :=
  if cs.getLast? = some ']' then brackets? (cs.drop 1).dropLast else none

/-! ### Machines -/

/-- A machine in an address whose scheme knows machines. -/
def read? (cs : List Char) : Option Host :=
  if cs.head? = some '[' then inBrackets? cs
  else do
    let text ← Domain.read? (Percent.decode cs).toList
    if endsInNumber text then (number? text).map short else pure (name text)

/-- Characters that no machine's name has where the scheme knows nothing of
machines. -/
def isForbidden (c : Char) : Bool :=
  ['\x00', '\t', '\n', '\r', ' ', '#', '/', ':', '<', '>', '?', '@', '[', '\\', ']', '^',
    '|'].contains c

/-- A machine in an address whose scheme knows nothing of machines: its name is
kept as it is written. -/
def readPlain? (cs : List Char) : Option Host :=
  if cs.head? = some '[' then inBrackets? cs
  else if cs.any isForbidden then none
  else some (name (String.ofList (Percent.encode Percent.isPrintable cs)))

/-- Whether this is the machine at hand. -/
def isLocal (h : Host) : Bool := h = name "localhost"

/-- Writes a machine. -/
def display : Host → String
  | name text => text
  | short n =>
    String.intercalate "."
      ([0x1000000, 0x10000, 0x100, 1].map fun unit => toString (n / unit % 0x100))
  | long pieces =>
    "[" ++ String.intercalate ":" (pieces.map fun n => String.ofList (Nat.toDigits 16 n)) ++ "]"

end Host

end MesonLens
