import MesonLens.Files.Url
import MesonLens.Text.Value

/-!
# `MesonLens.Server.Schema`: forms of values

The parameters of a message must have the form that its method asks for. A
`Schema` is such a form, and `Schema.read?` reads a value by it. What it gives is
the value in one shape: records are objects with the known fields, without
those that are null where null means nothing.

A record may be written as an object or, unless its fields lie open among those
of another record, as an array of its fields in their order.
-/

set_option autoImplicit false

namespace MesonLens

/-- Whether a field may be left out. -/
inductive Presence where
  /-- It must be there. -/
  | required
  /-- It may be null, and an object may leave it out. -/
  | optional
  /-- An object or an array may leave it out. -/
  | defaulted
  /-- It may be null, and an object or an array may leave it out. -/
  | lenient
  deriving DecidableEq, Repr

namespace Presence

/-- Whether null stands for a field that is not there. -/
def allowsNull : Presence → Bool
  | optional | lenient => true
  | required | defaulted => false

/-- Whether an object may leave the field out. -/
def inObject : Presence → Bool
  | required => false
  | optional | defaulted | lenient => true

/-- Whether an array may end before the field. -/
def inArray : Presence → Bool
  | required | optional => false
  | defaulted | lenient => true

end Presence

/-- The form of a value. -/
inductive Schema where
  | any
  | bool
  | text
  /-- A text that is an address. -/
  | url
  /-- A whole number of 32 bits with a sign. -/
  | integer
  /-- A whole number of 32 bits without a sign. -/
  | ordinal
  /-- A number of any kind. -/
  | number
  /-- One of some words. -/
  | word (words : List String)
  | list (item : Schema)
  /-- As many items as there are forms. -/
  | tuple (items : List Schema)
  /-- An object with any names. Whether they must be addresses is told. -/
  | table (addresses : Bool) (value : Schema)
  /-- The first form that fits. -/
  | oneOf (choices : List Schema)
  /-- A record, as an object or an array. -/
  | record (fields : List (String × Presence × Schema))
  /-- A record that is always an object. Fields that it does not know must have a
  form too. -/
  | loose (fields : List (String × Presence × Schema)) (rest : Schema)
  /-- A record by a word, which is in a field, or in front of an array. -/
  | tagged (tag : String) (cases : List (String × Schema))
  deriving Repr

namespace Schema

/-- A word from a list. It may also be the one name in an object, with null. -/
def word? (words : List String) : Value → Option Value
  | .string w => if words.contains w then some (.string w) else none
  | .object [(w, .null)] => if words.contains w then some (.string w) else none
  | _ => none

/-- A whole number between bounds. -/
def bounded? (low high : Int) : Value → Option Value
  | .int n => if low ≤ n && n ≤ high then some (.int n) else none
  | _ => none

/-- A number of any kind. -/
def number? : Value → Option Value
  | .int n => some (.int n)
  | .fraction digits places => some (.fraction digits places)
  | _ => none

/-- The word of a case: its name, or its place among the cases. -/
def caseName? (names : List String) : Value → Option String
  | .string w => if names.contains w then some w else none
  | .int (.ofNat i) => names[i]?
  | _ => none

/-- A text that is an address. -/
def url? : Value → Option Value
  | .string address => (Url.parse? address).map fun _ => .string address
  | _ => none

mutual

/-- Reads a value of a form; nothing when it does not have the form. -/
def read? : Schema → Value → Option Value
  | any, v => some v
  | bool, v => v.bool?.map .bool
  | text, v => v.string?.map .string
  | url, v => url? v
  | integer, v => bounded? (-0x80000000) 0x7fffffff v
  | ordinal, v => bounded? 0 0xffffffff v
  | number, v => number? v
  | word words, v => word? words v
  | list item, v => do pure (.array (← (← v.array?).mapM (item.read? ·)))
  | tuple items, v => do pure (.array (← readItems? items (← v.array?)))
  | table addresses value, v => do
    let fields ← v.object?
    guard (!addresses || fields.all fun (name, _) => (Url.parse? name).isSome)
    pure (.object (← fields.mapM fun (name, v) => do pure (name, ← value.read? v)))
  | oneOf choices, v => readFirst? choices v
  | record fields, v =>
    match v with
    | .object given => (readFields? fields given).map .object
    | .array items => (readArray? fields items).map .object
    | _ => none
  | loose fields rest, v => do
    let given ← v.object?
    let read ← readFields? fields given
    let others := given.filter fun (name, _) => (fields.lookup name).isNone
    guard (others.all fun (_, v) => (rest.read? v).isSome)
    pure (.object read)
  | tagged tag cases, v =>
    match v with
    | .object given => do
      let name ← caseName? (cases.map (·.1)) (← given.lookup tag)
      readCase? cases name (.object (given.filter (·.1 ≠ tag)))
    | .array (first :: items) => do
      let name ← caseName? (cases.map (·.1)) first
      readCase? cases name (.array items)
    | _ => none

/-- Reads items, one of every form. -/
def readItems? : List Schema → List Value → Option (List Value)
  | [], [] => some []
  | s :: schemas, v :: items => do pure ((← s.read? v) :: (← readItems? schemas items))
  | _, _ => none

/-- Reads a value by the first form that fits. -/
def readFirst? : List Schema → Value → Option Value
  | [], _ => none
  | s :: schemas, v => (s.read? v).or (readFirst? schemas v)

/-- Reads the fields of an object. -/
def readFields? : List (String × Presence × Schema) → List (String × Value) →
    Option (List (String × Value))
  | [], _ => some []
  | (name, presence, s) :: fields, given => do
    let rest ← readFields? fields given
    match given.lookup name with
    | none => if presence.inObject then pure rest else none
    | some .null =>
      if presence.allowsNull then pure rest else pure ((name, ← s.read? .null) :: rest)
    | some v => pure ((name, ← s.read? v) :: rest)

/-- Reads fields that come as an array. -/
def readArray? : List (String × Presence × Schema) → List Value →
    Option (List (String × Value))
  | [], items => if items.isEmpty then some [] else none
  | (_, presence, _) :: fields, [] => if presence.inArray then readArray? fields [] else none
  | (name, presence, s) :: fields, v :: items => do
    let rest ← readArray? fields items
    match v with
    | .null => if presence.allowsNull then pure rest else pure ((name, ← s.read? .null) :: rest)
    | v => pure ((name, ← s.read? v) :: rest)

/-- Reads a record by the case of a name. -/
def readCase? : List (String × Schema) → String → Value → Option Value
  | [], _, _ => none
  | (name, s) :: cases, wanted, v => if name = wanted then s.read? v else readCase? cases wanted v

end

/-! ### Fields -/

/-- A field that must be there. -/
def need (name : String) (s : Schema) : String × Presence × Schema := (name, .required, s)

/-- A field that may be null, and that an object may leave out. -/
def opt (name : String) (s : Schema) : String × Presence × Schema := (name, .optional, s)

/-- A field that may be null, and that an object or an array may leave out. -/
def free (name : String) (s : Schema) : String × Presence × Schema := (name, .lenient, s)

/-- Fields of one form that may be left out. -/
def opts (names : List String) (s : Schema) : List (String × Presence × Schema) :=
  names.map (opt · s)

/-- A record that is always an object, whatever else it has. -/
def parts (fields : List (String × Presence × Schema)) : Schema := loose fields any

end Schema

end MesonLens
