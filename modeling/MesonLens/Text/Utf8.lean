/-!
# `MesonLens.Text.Utf8`: text out of bytes

Bytes that come from outside need not be text. `Utf8.piece` looks at the front
of some bytes and tells what stands there: a character, bytes that belong to no
character, or the start of a character that is cut off.

* `Utf8.decode`: the text, or the first fault;
* `Utf8.decodeLossy`: the text with a mark in place of every fault.
-/

set_option autoImplicit false

namespace MesonLens.Utf8

/-- What stands at the front of some bytes. -/
inductive Piece where
  /-- A character of some number of bytes. -/
  | char (value : Char) (size : Nat)
  /-- Bytes that belong to no character. -/
  | invalid (size : Nat)
  /-- All bytes left are the start of a character. -/
  | incomplete
  deriving Repr

/-- How a character goes on after its first byte: the number of further bytes,
and the bounds of the next one; nothing when no character starts so. -/
def continuation? (first : Nat) : Option (Nat × Nat × Nat) :=
  if first < 0x80 then some (0, 0, 0)
  else if first < 0xc2 then none
  else if first < 0xe0 then some (1, 0x80, 0xbf)
  else if first < 0xf0 then
    some (2, if first = 0xe0 then 0xa0 else 0x80, if first = 0xed then 0x9f else 0xbf)
  else if first < 0xf5 then
    some (3, if first = 0xf0 then 0x90 else 0x80, if first = 0xf4 then 0x8f else 0xbf)
  else none

/-- The bits that the first byte of a character adds to its number, by how many
bytes follow. -/
def leadingBits (first more : Nat) : Nat :=
  match more with
  | 0 => first
  | 1 => first % 32
  | 2 => first % 16
  | _ => first % 8

/-- Reads the further bytes of a character. -/
def follow : Nat → Nat → Nat → Nat → Nat → List UInt8 → Piece
  | 0, _, _, value, size, _ => .char (Char.ofNat value) size
  | _ + 1, _, _, _, _, [] => .incomplete
  | more + 1, low, high, value, size, b :: bytes =>
    if low ≤ b.toNat ∧ b.toNat ≤ high then
      follow more 0x80 0xbf (value * 64 + b.toNat % 64) (size + 1) bytes
    else .invalid size

/-- What stands at the front, from the first byte on. -/
def piece (first : UInt8) (bytes : List UInt8) : Piece :=
  match continuation? first.toNat with
  | some (more, low, high) => follow more low high (leadingBits first.toNat more) 1 bytes
  | none => .invalid 1

/-- A place where bytes are not text. -/
inductive Fault where
  | invalid (size index : Nat)
  | incomplete (index : Nat)
  deriving DecidableEq, Repr

/-- The wording of a fault. -/
def Fault.message : Fault → String
  | invalid size index => s!"invalid utf-8 sequence of {size} bytes from index {index}"
  | incomplete index => s!"incomplete utf-8 byte sequence from index {index}"

/-- The characters of bytes that start at an index, or the first fault. -/
def decodeFrom (index : Nat) (bytes : List UInt8) : Except Fault (List Char) :=
  match bytes with
  | [] => .ok []
  | b :: rest =>
    match piece b rest with
    | .char c size => (decodeFrom (index + size) (rest.drop (size - 1))).map (c :: ·)
    | .invalid size => .error (.invalid size index)
    | .incomplete => .error (.incomplete index)
  termination_by bytes.length
  decreasing_by simp only [List.length_drop, List.length_cons]; omega

/-- The text of bytes, or the first fault. -/
def decode (bytes : List UInt8) : Except Fault String :=
  (decodeFrom 0 bytes).map String.ofList

/-- The characters of bytes, with one replacement character for every fault. -/
def replaceFaults (bytes : List UInt8) : List Char :=
  match bytes with
  | [] => []
  | b :: rest =>
    match piece b rest with
    | .char c size => c :: replaceFaults (rest.drop (size - 1))
    | .invalid size => '\ufffd' :: replaceFaults (rest.drop (size - 1))
    | .incomplete => ['\ufffd']
  termination_by bytes.length
  decreasing_by all_goals simp only [List.length_drop, List.length_cons]; omega

/-- The text of bytes, with one replacement character for every fault. -/
def decodeLossy (bytes : List UInt8) : String :=
  String.ofList (replaceFaults bytes)

end MesonLens.Utf8
