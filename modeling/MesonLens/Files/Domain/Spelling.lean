/-!
# `MesonLens.Files.Domain.Spelling`: characters spelled by letters and digits

A label that starts with `xn--` spells other characters by letters and digits.
After the characters that stand for themselves come numbers. Each number tells
which character comes in next and where.

* `Spelling.spelled?`: the characters that such a label spells.
-/

set_option autoImplicit false

namespace MesonLens.Spelling

/-- The value of a digit: letters first, then figures. -/
def digit? (c : Char) : Option Nat :=
  if 'a' ≤ c ∧ c ≤ 'z' then some (c.toNat - 'a'.toNat)
  else if '0' ≤ c ∧ c ≤ '9' then some (c.toNat - '0'.toNat + 26)
  else none

/-- The digits below this value end a number, by the place of the digit. -/
def threshold (place bias : Nat) : Nat :=
  if place ≤ bias then 1 else if bias + 26 ≤ place then 26 else place - bias

/-- Divides until a bound is met, and counts the places that this takes. -/
def settle (delta place : Nat) : Nat × Nat :=
  if 455 < delta then settle (delta / 35) (place + 36) else (delta, place)
  termination_by delta
  decreasing_by exact Nat.div_lt_self (by omega) (by omega)

/-- The bias after a number that put in the last of some characters. -/
def adapt (delta count : Nat) (first : Bool) : Nat :=
  let start := if first then delta / 700 else delta / 2
  let (delta, place) := settle (start + start / count) 0
  place + 36 * delta / (delta + 38)

/-- Reads a number, of which the digits with the least weight come first. No
weight has more than 32 bits. -/
def number? (bias place weight sum : Nat) : List Char → Option (Nat × List Char)
  | [] => none
  | c :: cs => do
    let d ← digit? c
    let t := threshold place bias
    if d < t then pure (sum + d * weight, cs)
    else do
      guard (weight * (36 - t) < 0x100000000)
      number? bias (place + 36) (weight * (36 - t)) (sum + d * weight) cs

/-- Puts characters into a text, one for every number. The fuel bounds the count
of numbers. -/
def insertAll (fuel bias code index : Nat) (out : List Char) (cs : List Char) :
    Option (List Char) :=
  match fuel, cs with
  | _, [] => some out
  | 0, _ => none
  | fuel + 1, cs => do
    let (sum, rest) ← number? bias 36 1 index cs
    let count := out.length + 1
    let code := code + sum / count
    guard code.isValidChar
    let place := sum % count
    insertAll fuel (adapt (sum - index) count (index = 0)) code (place + 1)
      (out.take place ++ Char.ofNat code :: out.drop place) rest

/-- The characters that a label spells after its mark. What stands before the
last hyphen stands for itself. -/
def spelled? (cs : List Char) : Option (List Char) :=
  let tail := (cs.reverse.takeWhile (· ≠ '-')).reverse
  let plain := cs.take (cs.length - tail.length - 1)
  -- A hyphen in front of all is no digit and divides nothing.
  let tail := if cs.head? = some '-' && plain.isEmpty then cs else tail
  insertAll tail.length 72 128 0 plain tail

end MesonLens.Spelling
