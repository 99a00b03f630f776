/-!
# `MesonLens.Text.Digest`: a fingerprint of a text

A 64-bit xxHash of the bytes of a text followed by one byte `0xff`, with seed
zero. Texts with different fingerprints are different.
-/

set_option autoImplicit false

namespace MesonLens.Digest

/-- The constants of the hash. -/
def prime1 : UInt64 := 0x9e3779b185ebca87

/-- The constants of the hash. -/
def prime2 : UInt64 := 0xc2b2ae3d27d4eb4f

/-- The constants of the hash. -/
def prime3 : UInt64 := 0x165667b19e3779f9

/-- The constants of the hash. -/
def prime4 : UInt64 := 0x85ebca77c2b2ae63

/-- The constants of the hash. -/
def prime5 : UInt64 := 0x27d4eb2f165667c5

/-- Rotates the bits to the left. -/
def rotate (x n : UInt64) : UInt64 := (x <<< n) ||| (x >>> (64 - n))

/-- The number that bytes write, least first. -/
def word (bytes : List UInt8) : UInt64 :=
  bytes.foldr (fun b acc => (acc <<< 8) ||| b.toUInt64) 0

/-- Mixes a word into a lane. -/
def mix (lane input : UInt64) : UInt64 := rotate (lane + input * prime2) 31 * prime1

/-- The four lanes of the hash. -/
structure Lanes where
  a : UInt64
  b : UInt64
  c : UInt64
  d : UInt64

/-- The lanes before any input. -/
def Lanes.start : Lanes := ⟨prime1 + prime2, prime2, 0, 0 - prime1⟩

/-- Mixes thirty-two bytes into the lanes. -/
def Lanes.stripe (l : Lanes) (bytes : List UInt8) : Lanes :=
  let at' := fun n => word ((bytes.drop n).take 8)
  ⟨mix l.a (at' 0), mix l.b (at' 8), mix l.c (at' 16), mix l.d (at' 24)⟩

/-- Mixes whole stripes into the lanes; the bytes left over come with them. -/
def Lanes.stripes : Nat → Lanes → List UInt8 → Lanes × List UInt8
  | 0, l, bytes => (l, bytes)
  | n + 1, l, bytes => stripes n (l.stripe (bytes.take 32)) (bytes.drop 32)

/-- Joins a lane into the hash. -/
def merge (acc lane : UInt64) : UInt64 := (acc ^^^ mix 0 lane) * prime1 + prime4

/-- The hash of the lanes. -/
def Lanes.join (l : Lanes) : UInt64 :=
  let acc := rotate l.a 1 + rotate l.b 7 + rotate l.c 12 + rotate l.d 18
  merge (merge (merge (merge acc l.a) l.b) l.c) l.d

/-- Mixes the bytes after the last stripe into the hash: by eight, then four,
then one by one. -/
def rest (acc : UInt64) : List UInt8 → UInt64
  | b0 :: b1 :: b2 :: b3 :: b4 :: b5 :: b6 :: b7 :: more =>
    let input := word [b0, b1, b2, b3, b4, b5, b6, b7]
    rest (rotate (acc ^^^ mix 0 input) 27 * prime1 + prime4) more
  | b0 :: b1 :: b2 :: b3 :: more =>
    rest (rotate (acc ^^^ (word [b0, b1, b2, b3] * prime1)) 23 * prime2 + prime3) more
  | b :: more => rest (rotate (acc ^^^ (b.toUInt64 * prime5)) 11 * prime1) more
  | [] => acc

/-- Spreads the bits at the end. -/
def finish (x : UInt64) : UInt64 :=
  let x := (x ^^^ (x >>> 33)) * prime2
  let x := (x ^^^ (x >>> 29)) * prime3
  x ^^^ (x >>> 32)

/-- The hash of bytes. -/
def ofBytes (bytes : List UInt8) : UInt64 :=
  let size := bytes.length
  let (acc, more) :=
    if size < 32 then (prime5, bytes)
    else
      let (lanes, more) := Lanes.stripes (size / 32) Lanes.start bytes
      (lanes.join, more)
  finish (rest (acc + size.toUInt64) more)

/-- The fingerprint of a text. -/
def ofText (text : String) : UInt64 := ofBytes (text.toUTF8.toList ++ [0xff])

end MesonLens.Digest
