import MesonLens.Token

/-!
# `MesonLens.Syntax.Operator`: the operators of expressions and assignments

Operators with the text they are written as and the classes that decide how
they are typed.
-/

set_option autoImplicit false

namespace MesonLens

/-- An operator before its operand. -/
inductive UnaryOp where
  | not | negate
  deriving DecidableEq, Repr

/-- The operator as written. -/
def UnaryOp.display : UnaryOp → String
  | not => "not"
  | negate => "-"

/-- An operator between its operands. -/
inductive BinaryOp where
  | add | sub | mul | div | mod
  | eq | ne | gt | lt | ge | le
  | isIn | notIn
  | and | or
  deriving DecidableEq, Repr

namespace BinaryOp

/-- How an operator is typed. -/
inductive Family where
  | arithmetic | comparison | logical
  deriving DecidableEq, Repr

/-- The family of an operator. -/
def family : BinaryOp → Family
  | add | sub | mul | div | mod => .arithmetic
  | eq | ne | gt | lt | ge | le | isIn | notIn => .comparison
  | and | or => .logical

/-- Every operator. -/
def all : List BinaryOp :=
  [add, sub, mul, div, mod, eq, ne, gt, lt, ge, le, isIn, notIn, and, or]

/-- The comparison that one token writes; `not in` takes two. -/
def comparison? : Token → Option BinaryOp
  | .eq => some eq
  | .ne => some ne
  | .gt => some gt
  | .lt => some lt
  | .ge => some ge
  | .le => some le
  | .kwIn => some isIn
  | _ => none

/-- The operator as written. -/
def display : BinaryOp → String
  | add => "+"
  | sub => "-"
  | mul => "*"
  | div => "/"
  | mod => "%"
  | eq => "=="
  | ne => "!="
  | gt => ">"
  | lt => "<"
  | ge => ">="
  | le => "<="
  | isIn => "in"
  | notIn => "not in"
  | and => "and"
  | or => "or"

end BinaryOp

/-- An assignment operator. -/
inductive AssignOp where
  | assign | add | sub | mul | div | mod
  deriving DecidableEq, Repr

namespace AssignOp

/-- The assignment that a token writes. -/
def ofToken? : Token → Option AssignOp
  | .assign => some assign
  | .addAssign => some add
  | .subAssign => some sub
  | .mulAssign => some mul
  | .divAssign => some div
  | .modAssign => some mod
  | _ => none

/-- The operator that a compound assignment applies; plain assignment applies none. -/
def binary? : AssignOp → Option BinaryOp
  | assign => none
  | add => some .add
  | sub => some .sub
  | mul => some .mul
  | div => some .div
  | mod => some .mod

/-- The operator as written. -/
def display (op : AssignOp) : String :=
  match op.binary? with
  | some binary => binary.display ++ "="
  | none => "="

end AssignOp

end MesonLens
