import MesonLens.Text.Utf8

/-!
# `MesonLens.Files.Percent`: bytes behind percent signs

An address writes a character that may not stand in it as the bytes of the
character, each behind a percent sign and with two hexadecimal digits.

* `Percent.encode`: writes characters, those that may not stand as bytes;
* `Percent.decode`: the text that was meant.
-/

set_option autoImplicit false

namespace MesonLens.Percent

/-- A digit of an encoded byte. -/
def hexDigit (n : Nat) : Char := (Nat.digitChar n).toUpper

/-- The value of a hexadecimal digit. -/
def hexValue? (c : Char) : Option Nat :=
  if '0' ≤ c ∧ c ≤ '9' then some (c.toNat - '0'.toNat)
  else if 'a' ≤ c ∧ c ≤ 'f' then some (c.toNat - 'a'.toNat + 10)
  else if 'A' ≤ c ∧ c ≤ 'F' then some (c.toNat - 'A'.toNat + 10)
  else none

/-- A byte behind a percent sign. -/
def encodeByte (b : UInt8) : List Char :=
  ['%', hexDigit (b.toNat / 16), hexDigit (b.toNat % 16)]

/-- Characters with those encoded that may not stand by themselves. -/
def encode (stands : Char → Bool) (cs : List Char) : List Char :=
  cs.flatMap fun c =>
    if stands c then [c] else (String.singleton c).toUTF8.toList.flatMap encodeByte

/-- The bytes that encoded characters mean. A percent sign without two digits
means itself. -/
def decodeBytes : List Char → List UInt8
  | [] => []
  | '%' :: a :: b :: cs =>
    match hexValue? a, hexValue? b with
    | some x, some y => UInt8.ofNat (x * 16 + y) :: decodeBytes cs
    | _, _ => '%'.toNat.toUInt8 :: decodeBytes (a :: b :: cs)
  | c :: cs => (String.singleton c).toUTF8.toList ++ decodeBytes cs

/-- The text that encoded characters mean. -/
def decode (cs : List Char) : String := Utf8.decodeLossy (decodeBytes cs)

/-! ### Which characters stand by themselves -/

/-- Whether a character is a blank or visible, and of one byte. -/
def isPrintable (c : Char) : Bool := 0x20 ≤ c.toNat && c.toNat < 0x7f

/-- Whether a character is visible and of one byte. -/
def isGraphic (c : Char) : Bool := 0x20 < c.toNat && c.toNat < 0x7f

/-- The characters that stand in a path that is given as an address. -/
def inAddress (c : Char) : Bool :=
  isGraphic c && !(['"', '#', '<', '>', '?', '\x60', '\x7b', '\x7d'].contains c)

/-- The characters that stand in a name of a file. -/
def inName (c : Char) : Bool := inAddress c && !(['/', '%', '\\'].contains c)

/-- The characters that stand in the name of a user. -/
def inUser (c : Char) : Bool :=
  inAddress c && !(['/', ':', ';', '=', '@', '[', '\\', ']', '^', '|'].contains c)

/-- The characters that stand in a query, where some schemes keep out the single
quote too. -/
def inQuery (quoted : Bool) (c : Char) : Bool :=
  isGraphic c && !(['"', '#', '<', '>'].contains c) && !(quoted && c = '\'')

/-- The characters that stand in a fragment. -/
def inFragment (c : Char) : Bool :=
  isGraphic c && !(['"', '<', '>', '\x60'].contains c)

end MesonLens.Percent
