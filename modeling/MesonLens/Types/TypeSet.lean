/-!
# `MesonLens.Types.TypeSet`: what a value can be

A value of a build file has one of a few built-in types or is an object of the
catalog. What is known about an expression is a set of types.

* `Ty`: a type, and `Ty.cmp`, the order types are kept in;
* `Ty.search`: finding a type in an ordered sequence by halves;
* `TypeSet`: a set of types, kept in order, in which all lists are one list and
  all dictionaries one dictionary;
* `TypeSet.insert`, `TypeSet.union`: adding types.
-/

set_option autoImplicit false

namespace MesonLens

/-- The type of a value. The types of the elements of a list and of the values
of a dictionary are the members of a type set. -/
inductive Ty where
  | any
  | bool
  | int
  | str
  | void
  | disabler
  | list (elements : List Ty)
  | dict (values : List Ty)
  /-- An object type, by its number in the catalog and its name. -/
  | object (id : Nat) (name : String)
  deriving Inhabited, Repr

namespace Ty

/-- The place of a type's family in the order. -/
def rank : Ty → Nat
  | any => 0
  | bool => 1
  | int => 2
  | str => 3
  | void => 4
  | disabler => 5
  | list _ => 6
  | dict _ => 7
  | object _ _ => 8

mutual

/-- The order of types: by family, then by what they hold. Objects go by their
numbers, whatever their names. -/
def cmp : Ty → Ty → Ordering
  | list a, list b => cmpAll a b
  | dict a, dict b => cmpAll a b
  | object i _, object j _ => compare i j
  | a, b => compare a.rank b.rank

/-- The order of sequences of types: at the first difference, else the shorter
one first. -/
def cmpAll : List Ty → List Ty → Ordering
  | [], [] => .eq
  | [], _ :: _ => .lt
  | _ :: _, [] => .gt
  | a :: as, b :: bs => (cmp a b).then (cmpAll as bs)

end

instance : BEq Ty where
  beq a b := a.cmp b == .eq

mutual

/-- The type as a type expression writes it; a list or dictionary about whose
contents nothing is known is written without any. -/
def display : Ty → String
  | any => "any"
  | bool => "bool"
  | int => "int"
  | str => "str"
  | void => "void"
  | disabler => "disabler"
  | list [] => "list"
  | list (t :: ts) => "list(" ++ displayAll (t :: ts) ++ ")"
  | dict [] => "dict"
  | dict (t :: ts) => "dict(" ++ displayAll (t :: ts) ++ ")"
  | object _ name => name

/-- Types divided by bars. -/
def displayAll : List Ty → String
  | [] => ""
  | [t] => display t
  | t :: t' :: ts => display t ++ "|" ++ displayAll (t' :: ts)

end

/-- Whether the type passes every check. -/
def isAnyLike : Ty → Bool
  | any | disabler => true
  | _ => false

/-- Whether the type is a list. -/
def isList : Ty → Bool
  | list _ => true
  | _ => false

/-- The name under which the methods of a type are declared. -/
def methodOwner? : Ty → Option String
  | bool => some "bool"
  | int => some "int"
  | str => some "str"
  | list _ => some "list"
  | dict _ => some "dict"
  | object _ name => some name
  | any | void | disabler => none

/-- Looks for a type in an ordered sequence whose first place is `start`: the
place where it is, or as an error the place where it belongs. Every round
leaves less than half of the sequence, so more rounds than types are never
needed. -/
def searchFrom (t : Ty) : Nat → Nat → List Ty → Except Nat Nat
  | 0, start, _ => .error start
  | rounds + 1, start, ts =>
    match ts.drop (ts.length / 2) with
    | [] => .error start
    | u :: after =>
      match t.cmp u with
      | .lt => searchFrom t rounds start (ts.take (ts.length / 2))
      | .eq => .ok (start + ts.length / 2)
      | .gt => searchFrom t rounds (start + ts.length / 2 + 1) after

/-- Looks for a type in an ordered sequence. -/
def search (t : Ty) (ts : List Ty) : Except Nat Nat := searchFrom t ts.length 0 ts

/-- Puts a type at its place in an ordered sequence, once. -/
def insertSorted (t : Ty) (ts : List Ty) : List Ty :=
  match t.search ts with
  | .ok _ => ts
  | .error place => ts.insertIdx place t

end Ty

/-- The kinds of types that hold types. -/
inductive Holder where
  | list
  | dict
  deriving DecidableEq, Repr

namespace Holder

/-- The type of that kind that holds the given types. -/
def of : Holder → List Ty → Ty
  | list, ts => .list ts
  | dict, ts => .dict ts

/-- What a type of that kind holds. -/
def open? : Holder → Ty → Option (List Ty)
  | list, .list ts => some ts
  | dict, .dict ts => some ts
  | _, _ => none

/-- Changes what the first type of that kind holds, if there is one. -/
def update? (k : Holder) (f : List Ty → List Ty) : List Ty → Option (List Ty)
  | [] => none
  | t :: ts =>
    match k.open? t with
    | some there => some (k.of (f there) :: ts)
    | none => (k.update? f ts).map (t :: ·)

end Holder

namespace Ty

mutual

/-- Adds a type to a set's members. A list is joined with the list that is
there, and a dictionary with the dictionary. -/
def addTo : Ty → List Ty → List Ty
  | list elements, ts =>
    (Holder.list.update? (fun there => addAllTo elements there) ts).getD
      (insertSorted (list elements) ts)
  | dict values, ts =>
    (Holder.dict.update? (fun there => addAllTo values there) ts).getD
      (insertSorted (dict values) ts)
  | t, ts => insertSorted t ts

/-- Adds types to a set's members in order. -/
def addAllTo : List Ty → List Ty → List Ty
  | [], ts => ts
  | t :: more, ts => addAllTo more (addTo t ts)

end

end Ty

/-- A set of types. -/
structure TypeSet where
  members : List Ty := []
  deriving Inhabited, Repr

namespace TypeSet

instance : BEq TypeSet where
  beq a b := Ty.cmpAll a.members b.members == .eq

/-- Adds a type. -/
def insert (s : TypeSet) (t : Ty) : TypeSet := ⟨t.addTo s.members⟩

/-- Every type of either set. -/
def union (a b : TypeSet) : TypeSet := ⟨Ty.addAllTo b.members a.members⟩

/-- The set of the given types. -/
def ofList (ts : List Ty) : TypeSet := ⟨Ty.addAllTo ts []⟩

/-- The set of one type. -/
def single (t : Ty) : TypeSet := ofList [t]

/-- The set of anything. -/
def any : TypeSet := single .any

/-- Whether a type is a member, by searching the ordered members. -/
def contains (s : TypeSet) (t : Ty) : Bool := (t.search s.members).isOk

/-- Whether nothing is known. -/
def isEmpty (s : TypeSet) : Bool := s.members.isEmpty

/-- Whether a member passes every check. -/
def hasAnyLike (s : TypeSet) : Bool := s.members.any Ty.isAnyLike

/-- The type of lists of such elements. -/
def listType (elements : TypeSet) : Ty := .list elements.members

/-- The type of dictionaries of such values. -/
def dictType (values : TypeSet) : Ty := .dict values.members

/-- The union of sets in order. -/
def unionAll (sets : List TypeSet) : TypeSet := sets.foldl union {}

/-- What the types of one kind in the set hold. -/
def contents (k : Holder) (s : TypeSet) : TypeSet :=
  unionAll ((s.members.filterMap k.open?).map mk)

/-- What the lists of the set hold. -/
def elements (s : TypeSet) : TypeSet := s.contents .list

/-- What the dictionaries of the set hold. -/
def values (s : TypeSet) : TypeSet := s.contents .dict

/-- The number and name of a type that is an object. -/
def objectOf? : Ty → Option (Nat × String)
  | .object id name => some (id, name)
  | _ => none

/-- The objects of the set. -/
def objects (s : TypeSet) : List (Nat × String) := s.members.filterMap objectOf?

/-- The set as a type expression writes it. -/
def display (s : TypeSet) : String := Ty.displayAll s.members

/-- The set for people; that nothing is known is said in a word. -/
def describe (s : TypeSet) : String := if s.isEmpty then "unknown" else s.display

end TypeSet

end MesonLens
