import MesonLens.Catalog.Basic
import MesonLens.Syntax.Operator

/-!
# `MesonLens.Analysis.Operator`: the types of expressions

* `BinaryOp.result`: what an operator can give for operands of given types;
* `Catalog.subscriptResult`: what a subscript can give;
* `placeholders`: the variables a format string names.
-/

set_option autoImplicit false

namespace MesonLens

namespace BinaryOp

/-- What is added to a list by adding a value: a list adds its elements. -/
def listItem : Ty → TypeSet
  | .list elements => ⟨elements⟩
  | t => TypeSet.single t

/-- What an arithmetic operator gives for two types, if they go together. -/
def pairResult? (op : BinaryOp) (left right : Ty) : Option Ty :=
  if left.isAnyLike || right.isAnyLike then some .any
  else
    match op, left, right with
    | add, .int, .int => some .int
    | add, .str, .str => some .str
    | add, .list elements, other => some ((TypeSet.mk elements).union (listItem other)).listType
    | add, .dict a, .dict b => some ((TypeSet.mk a).union ⟨b⟩).dictType
    | div, .str, .str => some .str
    | sub, .int, .int | mul, .int, .int | div, .int, .int | mod, .int, .int => some .int
    | _, _, _ => none

/-- What an arithmetic operator gives when nothing is known about an operand. -/
def unknownResult (op : BinaryOp) (left right : TypeSet) : TypeSet :=
  match op with
  | add | div => left.union right
  | _ => TypeSet.single .int

/-- What an operator can give for any pair of operand types. Comparisons and
logical operators give truth values. -/
def result (op : BinaryOp) (left right : TypeSet) : TypeSet :=
  if op.family ≠ .arithmetic then TypeSet.single .bool
  else if left.isEmpty || right.isEmpty then op.unknownResult left right
  else
    TypeSet.ofList (left.members.flatMap fun l => right.members.filterMap (op.pairResult? l))

end BinaryOp

/-- What a subscript into a value of one type can give. -/
def Catalog.elementTypes (c : Catalog) : Ty → List Ty
  | .any | .disabler => [.any]
  | .str => [.str]
  | .list elements => elements
  | .dict values => values
  | .object _ "custom_tgt" => ((c.lookup? "custom_idx").map ObjectInfo.type).toList
  | _ => []

/-- What a subscript can give. -/
def Catalog.subscriptResult (c : Catalog) (container : TypeSet) : TypeSet :=
  TypeSet.ofList (container.members.flatMap c.elementTypes)

/-- Whether a character may be part of a placeholder's name. -/
def isPlaceholderChar (c : Char) : Bool := c.isAlphanum || c == '_'

/-- The name that a placeholder writes, given the text after its opening sign:
a word up to a closing sign. -/
def placeholderName? (cs : List Char) : Option (List Char) :=
  let name := cs.takeWhile isPlaceholderChar
  match name, cs.dropWhile isPlaceholderChar with
  | c :: _, '@' :: _ => if c.isDigit then none else some name
  | _, _ => none

/-- The placeholders of the text that starts at byte `offset`. After a
placeholder the search goes on behind its closing sign, and else behind the
opening one. -/
def placeholdersFrom (offset : Nat) : List Char → List (Nat × String)
  | [] => []
  | c :: cs =>
    if c = '@' then
      match placeholderName? cs with
      | some name =>
        (offset + 1, String.ofList name)
          :: placeholdersFrom (offset + 2 + name.length) (cs.drop (name.length + 1))
      | none => placeholdersFrom (offset + 1) cs
    else placeholdersFrom (offset + c.utf8Size) cs
  termination_by cs => cs.length
  decreasing_by all_goals simp only [List.length_cons, List.length_drop]; omega

/-- The variables named between `@` signs in a format string, each with the
byte offset of its name. -/
def placeholders (value : String) : List (Nat × String) := placeholdersFrom 0 value.toList

end MesonLens
