import MesonLens.Syntax.Fault
import MesonLens.Syntax.Operator

/-!
# `MesonLens.Syntax.Tree`: syntax trees

A build file is a tree of nodes, each with a note: the parser notes the
stretch of text a node covers, and `Tree.number` adds a number of its own.

* `Tree`, `Branches`: the nodes;
* `Kind`: what a node is, without its parts;
* `Tree.children`: the parts of a node in order, each smaller than the node;
* `Mark`, `Tree.number`: notes with numbers, given so that the parts of a node
  come before the node.
-/

set_option autoImplicit false

namespace MesonLens

mutual

/-- A syntax node with a note of type `α`. -/
inductive Tree (α : Type) where
  /-- A whole file. -/
  | file (note : α) (statements : List (Tree α))
  /-- The bracketed arguments of a call; keyword arguments are `keyword` nodes. -/
  | arguments (note : α) (items : List (Tree α))
  | array (note : α) (elements : List (Tree α))
  | assignment (note : α) (target : Tree α) (op : AssignOp) (value : Tree α)
  | binary (note : α) (left : Tree α) (op : BinaryOp) (right : Tree α)
  | boolean (note : α) (value : Bool)
  | conditional (note : α) (condition ifTrue ifFalse : Tree α)
  /-- A dictionary; its items are `entry` nodes. -/
  | dictionary (note : α) (entries : List (Tree α))
  /-- A call of a function by its name. -/
  | call (note : α) (callee args : Tree α)
  | identifier (note : α) (name : String)
  /-- An integer with the text it was written as. -/
  | integer (note : α) (value : Nat) (raw : String)
  /-- A loop over one or two variables; none when its header is malformed. -/
  | iteration (note : α) (names : List (Tree α)) (iterable : Tree α) (body : List (Tree α))
  | entry (note : α) (key value : Tree α)
  | keyword (note : α) (key value : Tree α)
  /-- A call of a method; the arguments are missing when their brackets are. -/
  | method (note : α) (object name : Tree α) (args : Option (Tree α))
  | selection (note : α) (branches : Branches α)
  | string (note : α) (value : String) (format multiline : Bool)
  | subscript (note : α) (object index : Tree α)
  | unary (note : α) (op : UnaryOp) (operand : Tree α)
  /-- Text that could not be read. -/
  | malformed (note : α) (fault : Fault)
  | breakLoop (note : α)
  | continueLoop (note : α)

/-- The branches of a selection: conditions with their blocks, and at most one
block without a condition, which comes last. -/
inductive Branches (α : Type) where
  | done
  | otherwise (body : List (Tree α))
  | arm (condition : Tree α) (body : List (Tree α)) (rest : Branches α)

end

/-- What a node is, without its parts. -/
inductive Kind where
  | file | arguments | array | assignment | binary | boolean | conditional | dictionary | call
  | identifier | integer | iteration | entry | keyword | method | selection | string | subscript
  | unary | malformed | breakLoop | continueLoop
  deriving DecidableEq, Repr

/-- The word for a kind of node in reports on a tree. -/
def Kind.label : Kind → String
  | file => "BuildDefinition"
  | arguments => "ArgumentList"
  | array => "ArrayLiteral"
  | assignment => "AssignmentStatement"
  | binary => "BinaryExpression"
  | boolean => "BooleanLiteral"
  | conditional => "ConditionalExpression"
  | dictionary => "DictionaryLiteral"
  | call => "FunctionExpression"
  | identifier => "IdExpression"
  | integer => "IntegerLiteral"
  | iteration => "IterationStatement"
  | entry => "KeyValueItem"
  | keyword => "KeywordItem"
  | method => "MethodExpression"
  | selection => "SelectionStatement"
  | string => "StringLiteral"
  | subscript => "SubscriptExpression"
  | unary => "UnaryExpression"
  | malformed => "ErrorNode"
  | breakLoop => "BreakNode"
  | continueLoop => "ContinueNode"

namespace Branches

variable {α : Type}

/-- Conditions paired with blocks in order. Blocks left over are one block
without a condition. -/
def ofLists : List (Tree α) → List (List (Tree α)) → Branches α
  | condition :: conditions, body :: bodies => arm condition body (ofLists conditions bodies)
  | [], body :: bodies => otherwise (body :: bodies).flatten
  | _, [] => done

/-- The conditions in order. -/
def conditions : Branches α → List (Tree α)
  | done | otherwise _ => []
  | arm condition _ rest => condition :: rest.conditions

/-- The blocks in order. -/
def blocks : Branches α → List (List (Tree α))
  | done => []
  | otherwise body => [body]
  | arm _ body rest => body :: rest.blocks

/-- Whether one of the blocks is always taken. -/
def exhaustive : Branches α → Bool
  | done => false
  | otherwise _ => true
  | arm _ _ rest => rest.exhaustive

/-- Every condition and statement: a condition, then the block it guards. -/
def children : Branches α → List (Tree α)
  | done => []
  | otherwise body => body
  | arm condition body rest => condition :: (body ++ rest.children)

theorem sizeOf_lt_of_mem_children [SizeOf α] {t : Tree α} {b : Branches α} (h : t ∈ b.children) :
    sizeOf t < sizeOf b := by
  fun_induction children b with
  | case1 => simp at h
  | case2 body =>
    have := List.sizeOf_lt_of_mem h
    simp only [otherwise.sizeOf_spec]
    omega
  | case3 condition body rest ih =>
    simp only [List.mem_cons, List.mem_append] at h
    simp only [arm.sizeOf_spec]
    rcases h with rfl | h | h
    · omega
    · have := List.sizeOf_lt_of_mem h
      omega
    · have := ih h
      omega

end Branches

namespace Tree

variable {α : Type}

/-- What the node is. -/
def kind : Tree α → Kind
  | file .. => .file
  | arguments .. => .arguments
  | array .. => .array
  | assignment .. => .assignment
  | binary .. => .binary
  | boolean .. => .boolean
  | conditional .. => .conditional
  | dictionary .. => .dictionary
  | call .. => .call
  | identifier .. => .identifier
  | integer .. => .integer
  | iteration .. => .iteration
  | entry .. => .entry
  | keyword .. => .keyword
  | method .. => .method
  | selection .. => .selection
  | string .. => .string
  | subscript .. => .subscript
  | unary .. => .unary
  | malformed .. => .malformed
  | breakLoop .. => .breakLoop
  | continueLoop .. => .continueLoop

/-- The note on the node. -/
def note : Tree α → α
  | file a _ | arguments a _ | array a _ | assignment a _ _ _ | binary a _ _ _ | boolean a _
  | conditional a _ _ _ | dictionary a _ | call a _ _ | identifier a _ | integer a _ _
  | iteration a _ _ _ | entry a _ _ | keyword a _ _ | method a _ _ _ | selection a _
  | string a _ _ _ | subscript a _ _ | unary a _ _ | malformed a _ | breakLoop a
  | continueLoop a => a

/-- The parts of the node in order. -/
def children : Tree α → List (Tree α)
  | file _ ts | arguments _ ts | array _ ts | dictionary _ ts => ts
  | assignment _ l _ r | binary _ l _ r | call _ l r | entry _ l r | keyword _ l r
  | subscript _ l r => [l, r]
  | conditional _ c t f => [c, t, f]
  | iteration _ names iterable body => names ++ iterable :: body
  | method _ object name args => object :: name :: args.toList
  | selection _ branches => branches.children
  | unary _ _ t => [t]
  | boolean .. | identifier .. | integer .. | string .. | malformed .. | breakLoop ..
  | continueLoop .. => []

/-- A part is smaller than the node, so that recursion over parts ends. -/
theorem sizeOf_lt_of_mem_children [SizeOf α] {t c : Tree α} (h : c ∈ t.children) :
    sizeOf c < sizeOf t := by
  cases t with
  | file a ts | arguments a ts | array a ts | dictionary a ts =>
    have := List.sizeOf_lt_of_mem (show c ∈ ts from h)
    simp +arith only [file.sizeOf_spec, arguments.sizeOf_spec, array.sizeOf_spec,
      dictionary.sizeOf_spec]
    omega
  | assignment a l op r | binary a l op r | call a l r | entry a l r | keyword a l r
  | subscript a l r =>
    simp only [children, List.mem_cons, List.not_mem_nil, or_false] at h
    rcases h with rfl | rfl <;> simp +arith
  | conditional a x y z =>
    simp only [children, List.mem_cons, List.not_mem_nil, or_false] at h
    rcases h with rfl | rfl | rfl <;> simp +arith
  | iteration a names iterable body =>
    simp only [children, List.mem_append, List.mem_cons] at h
    simp only [iteration.sizeOf_spec]
    rcases h with h | rfl | h
    · have := List.sizeOf_lt_of_mem h
      omega
    · omega
    · have := List.sizeOf_lt_of_mem h
      omega
  | method a object name args =>
    cases args with
    | none =>
      simp only [children, Option.toList_none, List.mem_cons, List.not_mem_nil, or_false] at h
      rcases h with rfl | rfl <;> simp +arith
    | some args =>
      simp only [children, Option.toList_some, List.mem_cons, List.not_mem_nil, or_false] at h
      rcases h with rfl | rfl | rfl <;> simp +arith
  | selection a branches =>
    have := Branches.sizeOf_lt_of_mem_children (show c ∈ branches.children from h)
    simp only [selection.sizeOf_spec]
    omega
  | unary a op t =>
    simp only [children, List.mem_cons, List.not_mem_nil, or_false] at h
    subst h
    simp +arith
  | boolean | identifier | integer | string | malformed | breakLoop | continueLoop =>
    simp [children] at h

/-- The number of nodes on the longest way down. -/
def height (t : Tree α) : Nat :=
  1 + (t.children.attach.map fun c => height c.val).foldl max 0
  termination_by sizeOf t
  decreasing_by exact sizeOf_lt_of_mem_children c.property

end Tree

/-- The note on a node of a finished tree: its number in the file and the
stretch of text it covers. -/
structure Mark where
  id : Nat
  span : Span
  deriving DecidableEq, Repr

/-- Gives out the next number. -/
def Mark.fresh (span : Span) : StateM Nat Mark :=
  modifyGet fun n => (⟨n, span⟩, n + 1)

mutual

/-- Numbers the nodes, the parts of a node before the node itself. -/
def Tree.number : Tree Span → StateM Nat (Tree Mark)
  | .file a ts => do
    let ts ← Tree.numberAll ts
    return .file (← Mark.fresh a) ts
  | .arguments a ts => do
    let ts ← Tree.numberAll ts
    return .arguments (← Mark.fresh a) ts
  | .array a ts => do
    let ts ← Tree.numberAll ts
    return .array (← Mark.fresh a) ts
  | .assignment a l op r => do
    let l ← l.number
    let r ← r.number
    return .assignment (← Mark.fresh a) l op r
  | .binary a l op r => do
    let l ← l.number
    let r ← r.number
    return .binary (← Mark.fresh a) l op r
  | .boolean a v => return .boolean (← Mark.fresh a) v
  | .conditional a c t f => do
    let c ← c.number
    let t ← t.number
    let f ← f.number
    return .conditional (← Mark.fresh a) c t f
  | .dictionary a ts => do
    let ts ← Tree.numberAll ts
    return .dictionary (← Mark.fresh a) ts
  | .call a l r => do
    let l ← l.number
    let r ← r.number
    return .call (← Mark.fresh a) l r
  | .identifier a name => return .identifier (← Mark.fresh a) name
  | .integer a v raw => return .integer (← Mark.fresh a) v raw
  | .iteration a names iterable body => do
    let names ← Tree.numberAll names
    let iterable ← iterable.number
    let body ← Tree.numberAll body
    return .iteration (← Mark.fresh a) names iterable body
  | .entry a l r => do
    let l ← l.number
    let r ← r.number
    return .entry (← Mark.fresh a) l r
  | .keyword a l r => do
    let l ← l.number
    let r ← r.number
    return .keyword (← Mark.fresh a) l r
  | .method a object name none => do
    let object ← object.number
    let name ← name.number
    return .method (← Mark.fresh a) object name none
  | .method a object name (some args) => do
    let object ← object.number
    let name ← name.number
    let args ← args.number
    return .method (← Mark.fresh a) object name (some args)
  | .selection a branches => do
    let branches ← branches.number
    return .selection (← Mark.fresh a) branches
  | .string a v f m => return .string (← Mark.fresh a) v f m
  | .subscript a l r => do
    let l ← l.number
    let r ← r.number
    return .subscript (← Mark.fresh a) l r
  | .unary a op t => do
    let t ← t.number
    return .unary (← Mark.fresh a) op t
  | .malformed a fault => return .malformed (← Mark.fresh a) fault
  | .breakLoop a => return .breakLoop (← Mark.fresh a)
  | .continueLoop a => return .continueLoop (← Mark.fresh a)

/-- Numbers trees in order. -/
def Tree.numberAll : List (Tree Span) → StateM Nat (List (Tree Mark))
  | [] => return []
  | t :: ts => do
    let t ← t.number
    return t :: (← Tree.numberAll ts)

/-- Numbers the conditions and blocks of a selection in order. -/
def Branches.number : Branches Span → StateM Nat (Branches Mark)
  | .done => return .done
  | .otherwise body => return .otherwise (← Tree.numberAll body)
  | .arm condition body rest => do
    let condition ← condition.number
    let body ← Tree.numberAll body
    return .arm condition body (← rest.number)

end

namespace Tree

/-- The number of a node. -/
def id (t : Tree Mark) : Nat := t.note.id

/-- The stretch of text a node covers. -/
def span (t : Tree Mark) : Span := t.note.span

end Tree

end MesonLens
