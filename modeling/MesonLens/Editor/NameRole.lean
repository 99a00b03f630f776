import MesonLens.Syntax.Traversal

/-!
# `MesonLens.Editor.NameRole`: what a name stands for

The same word can name a function, a method, a keyword argument or a variable.
`Tree.family` lists every node with the node it is a part of, and
`NameRole.of` tells from the two what a name stands for.
-/

set_option autoImplicit false

namespace MesonLens

/-- Every node with the node it is a part of, a node before its parts. -/
def Tree.family {α : Type} (parent : Option (Tree α)) (t : Tree α) :
    List (Option (Tree α) × Tree α) :=
  (parent, t) :: t.children.attach.flatMap fun c => family (some t) c.val
  termination_by sizeOf t
  decreasing_by exact Tree.sizeOf_lt_of_mem_children c.property

/-- What a name stands for. -/
inductive NameRole where
  /-- The function that is called. -/
  | function
  /-- The method that is called. -/
  | method
  /-- A keyword argument. -/
  | keyword
  /-- A variable that receives a value. -/
  | binding
  /-- A variable that is read. -/
  | reading
  deriving DecidableEq, Repr

namespace NameRole

/-- What a name stands for as a part of a node. -/
def of (parent : Option (Tree Mark)) (id : Nat) : NameRole :=
  match parent with
  | some (.call _ callee _) => if callee.id = id then function else reading
  | some (.method _ _ name _) => if name.id = id then method else reading
  | some (.keyword _ key _) => if key.id = id then keyword else reading
  | some (.assignment _ target _ _) => if target.id = id then binding else reading
  | some (.iteration _ names _ _) =>
    if names.any (·.id == id) then binding else reading
  | _ => reading

/-- Whether a variable is named. -/
def isVariable : NameRole → Bool
  | binding | reading => true
  | function | method | keyword => false

end NameRole

/-- A name in a file. -/
structure NameUse where
  mark : Mark
  name : String
  role : NameRole
  deriving Repr

/-- The name that a node writes. -/
def NameUse.of? : Option (Tree Mark) × Tree Mark → Option NameUse
  | (parent, .identifier mark name) => some ⟨mark, name, .of parent mark.id⟩
  | _ => none

/-- Every name of a tree in text order. -/
def Tree.names (t : Tree Mark) : List NameUse := (t.family none).filterMap NameUse.of?

end MesonLens
