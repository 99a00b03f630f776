/-!
# `MesonLens.Text.Value`: structured values

The values that settings, editor messages and reports are made of. There are no
numbers with a fraction among the program's own values, but a client may send
some.

* `Value` and its readers `field?`, `string?`, `nat?`, ...;
* `Value.pretty`: a value as indented text.
-/

set_option autoImplicit false

namespace MesonLens

/-- A structured value. -/
inductive Value where
  | null
  | bool (value : Bool)
  | int (value : Int)
  /-- A number with a fraction, as its digits and how many of them are places. -/
  | fraction (digits : Int) (places : Nat)
  | string (value : String)
  | array (items : List Value)
  | object (fields : List (String × Value))
  deriving Repr, Inhabited

namespace Value

/-- A natural number as a value. -/
def nat (n : Nat) : Value := int n

/-- The value of a field; nothing for a value without fields. -/
def field? (j : Value) (name : String) : Option Value :=
  match j with
  | object fields => fields.lookup name
  | _ => none

/-- The field of an object, null when it is missing. -/
def field (j : Value) (name : String) : Value := (j.field? name).getD null

/-- The text of a string. -/
def string? : Value → Option String
  | string value => some value
  | _ => none

/-- A truth value. -/
def bool? : Value → Option Bool
  | bool value => some value
  | _ => none

/-- A whole number from zero on. -/
def nat? : Value → Option Nat
  | int (.ofNat n) => some n
  | _ => none

/-- A whole number. -/
def int? : Value → Option Int
  | int n => some n
  | _ => none

/-- The items of an array. -/
def array? : Value → Option (List Value)
  | array items => some items
  | _ => none

/-- The fields of an object. -/
def object? : Value → Option (List (String × Value))
  | object fields => some fields
  | _ => none

/-- An object without the fields that are missing. -/
def objectOf (fields : List (String × Option Value)) : Value :=
  object (fields.filterMap fun (name, value) => value.map (name, ·))

/-- A hexadecimal digit in lower case. -/
def hexDigit (n : Nat) : Char := (Nat.digitChar n)

/-- How a character is written inside a string. -/
def escapeChar (c : Char) : List Char :=
  if c = '"' then ['\\', '"']
  else if c = '\\' then ['\\', '\\']
  else if c = '\n' then ['\\', 'n']
  else if c = '\r' then ['\\', 'r']
  else if c = '\t' then ['\\', 't']
  else if c = '\x08' then ['\\', 'b']
  else if c = '\x0c' then ['\\', 'f']
  else if c.toNat < 0x20 then
    ['\\', 'u', '0', '0', hexDigit (c.toNat / 16), hexDigit (c.toNat % 16)]
  else [c]

/-- A string with quotes around it. -/
def quote (s : String) : String :=
  String.ofList ('"' :: (s.toList.flatMap escapeChar ++ ['"']))

/-- A line break and the blanks before a line at some depth. -/
def newLine (depth : Nat) : String := "\n" ++ String.ofList (List.replicate (2 * depth) ' ')

mutual

/-- A value as text, indented by two blanks for every depth. -/
def pretty (depth : Nat) : Value → String
  | null => "null"
  | bool value => if value then "true" else "false"
  | int value => toString value
  | fraction digits places => toString digits ++ "e-" ++ toString places
  | string value => quote value
  | array [] => "[]"
  | array (item :: items) =>
    "[" ++ prettyItems (depth + 1) (item :: items) ++ newLine depth ++ "]"
  | object [] => "\x7b\x7d"
  | object (f :: fields) =>
    "\x7b" ++ prettyFields (depth + 1) (f :: fields) ++ newLine depth ++ "\x7d"

/-- Items, each on a line of its own. -/
def prettyItems (depth : Nat) : List Value → String
  | [] => ""
  | [item] => newLine depth ++ pretty depth item
  | item :: next :: items =>
    newLine depth ++ pretty depth item ++ "," ++ prettyItems depth (next :: items)

/-- Fields, each on a line of its own. -/
def prettyFields (depth : Nat) : List (String × Value) → String
  | [] => ""
  | [(name, value)] => newLine depth ++ quote name ++ ": " ++ pretty depth value
  | (name, value) :: next :: fields =>
    newLine depth ++ quote name ++ ": " ++ pretty depth value ++ ","
      ++ prettyFields depth (next :: fields)

end

end Value

end MesonLens
