import MesonLens.Syntax.Tree

/-!
# `MesonLens.Syntax.Traversal`: going through a tree

* `Tree.outline`, `Tree.preorder`: every node, a node before its parts;
* `Tree.walk`: the same order under the control of a visitor, which may skip
  the parts of a node or end the walk;
* `Tree.nodeAt`: the innermost node around a place;
* `Tree.ancestors?`: the way from a node up to the root.
-/

set_option autoImplicit false

namespace MesonLens

namespace Tree

variable {α : Type}

/-- Every node with its depth, a node before its parts. -/
def outline (depth : Nat) (t : Tree α) : List (Nat × Tree α) :=
  (depth, t) :: t.children.attach.flatMap fun c => outline (depth + 1) c.val
  termination_by sizeOf t
  decreasing_by exact sizeOf_lt_of_mem_children c.property

/-- Every node, a node before its parts. -/
def preorder (t : Tree α) : List (Tree α) :=
  t :: t.children.attach.flatMap fun c => preorder c.val
  termination_by sizeOf t
  decreasing_by exact sizeOf_lt_of_mem_children c.property

/-- What a visitor wants after it has seen a node. -/
inductive Visit where
  /-- Go through the parts, then leave the node. -/
  | enter
  /-- Go on with the next node that is not a part of this one. -/
  | skip
  /-- End the walk. -/
  | stop
  deriving DecidableEq, Repr

/-- What a visitor does: on meeting a node, and after the parts of a node it
entered. -/
structure Visitor (α σ : Type) where
  visit : Tree α → σ → Visit × σ
  leave : Tree α → σ → σ := fun _ s => s

/-- Walks the tree. The answer tells whether the visitor ended the walk. -/
def walk {σ : Type} (v : Visitor α σ) (t : Tree α) (s : σ) : Bool × σ :=
  match v.visit t s with
  | (.stop, s) => (true, s)
  | (.skip, s) => (false, s)
  | (.enter, s) =>
    let step := fun (acc : Bool × σ) (c : { c // c ∈ t.children }) =>
      if acc.1 then acc else walk v c.val acc.2
    match t.children.attach.foldl step (false, s) with
    | (true, s) => (true, s)
    | (false, s) => (false, v.leave t s)
  termination_by sizeOf t
  decreasing_by exact sizeOf_lt_of_mem_children c.property

/-- The node reached by always going into the first part around the place. -/
def descend (line column : Nat) (t : Tree Mark) : Tree Mark :=
  match t.children.attach.find? fun c => c.val.span.contains line column with
  | some c => descend line column c.val
  | none => t
  termination_by sizeOf t
  decreasing_by exact sizeOf_lt_of_mem_children c.property

/-- The innermost node around a place, if the tree covers the place at all. -/
def nodeAt (t : Tree Mark) (line column : Nat) : Option (Tree Mark) :=
  if t.span.contains line column then some (t.descend line column) else none

/-- The nodes above the node with a given number, nearest first; nothing when
the tree has no such node. -/
def ancestors? (id : Nat) (t : Tree Mark) : Option (List (Tree Mark)) :=
  if t.id = id then some []
  else (t.children.attach.findSome? fun c => ancestors? id c.val).map (· ++ [t])
  termination_by sizeOf t
  decreasing_by exact sizeOf_lt_of_mem_children c.property

/-- The node with a given number. -/
def find? (id : Nat) (t : Tree Mark) : Option (Tree Mark) :=
  t.preorder.find? fun node => node.id == id

/-! ### Parts by name -/

/-- The name that an identifier writes. -/
def identifier? : Tree α → Option String
  | identifier _ name => some name
  | _ => none

/-- The value of a string without placeholders. -/
def string? : Tree α → Option String
  | string _ value false _ => some value
  | _ => none

/-- The name of the function or method that a call names. -/
def callName? : Tree α → Option String
  | call _ callee _ => callee.identifier?
  | method _ _ name _ => name.identifier?
  | _ => none

/-- The items between the brackets of a call. -/
def callItems : Tree α → List (Tree α)
  | call _ _ (arguments _ items) | method _ _ _ (some (arguments _ items)) => items
  | _ => []

/-- Whether the node is a keyword argument. -/
def isKeyword : Tree α → Bool
  | keyword .. => true
  | _ => false

/-- The arguments of a call that stand without a name. -/
def positionalArgs (t : Tree α) : List (Tree α) :=
  t.callItems.filter (!·.isKeyword)

/-- A keyword argument with its name. -/
def keywordName? : Tree α → Option (String × Tree α)
  | item@(keyword _ key _) => key.identifier?.map (·, item)
  | _ => none

/-- The keyword arguments of a call with their names. -/
def keywordArgs (t : Tree α) : List (String × Tree α) :=
  t.callItems.filterMap keywordName?

end Tree

end MesonLens
