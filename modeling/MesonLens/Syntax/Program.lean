import MesonLens.Syntax.Words

/-!
# `MesonLens.Syntax.Program`: programs and how they are written

A program is a list of statements, without a text. It is written as tokens, one
statement on a line, with parentheses only where the grammar needs them.

* `Expr`, `Stmt`, `Arms`: programs;
* `Expr.grade`: how tightly the parts of an expression hold together, from
  conditionals (0) to operands (7);
* `Expr.tokens`, `Expr.tokensAt`: an expression as it is written, and with
  parentheses where it stands at a place that asks for a greater grade;
* `Stmt.tokens`: statements as they are written;
* `Expr.nesting`, `Stmt.nesting`: how many levels of nesting are open at a time
  when they are read;
* `Expr.toTree`, `Stmt.toTree`: the tree of a program;
* `Tree.bare`: a tree without its notes and the texts of its integers.
-/

set_option autoImplicit false

namespace MesonLens

/-! ### Programs -/

/-- An expression. -/
inductive Expr where
  | identifier (name : String)
  | integer (value : Nat)
  | boolean (value : Bool)
  | string (value : String) (format multiline : Bool)
  | array (elements : List Expr)
  | dictionary (entries : List (Expr × Expr))
  | unary (op : UnaryOp) (operand : Expr)
  | binary (left : Expr) (op : BinaryOp) (right : Expr)
  | conditional (condition ifTrue ifFalse : Expr)
  | subscript (object index : Expr)
  /-- A call of a function. An argument may have a keyword. -/
  | call (name : String) (args : List (Option String × Expr))
  /-- A call of a method. An argument may have a keyword. -/
  | method (object : Expr) (name : String) (args : List (Option String × Expr))

mutual

/-- A statement. -/
inductive Stmt where
  | expression (e : Expr)
  | assignment (target : String) (op : AssignOp) (value : Expr)
  | selection (condition : Expr) (body : List Stmt) (rest : Arms)
  /-- A loop over one or two variables. -/
  | iteration (name : String) (second : Option String) (iterable : Expr) (body : List Stmt)
  | breakLoop
  | continueLoop

/-- The branches of a selection after the first. -/
inductive Arms where
  | done
  | otherwise (body : List Stmt)
  | arm (condition : Expr) (body : List Stmt) (rest : Arms)

end

/-! ### Expressions as tokens -/

/-- How tightly an operator holds its operands together. -/
def BinaryOp.grade : BinaryOp → Nat
  | or => 1
  | and => 2
  | eq | ne | gt | lt | ge | le | isIn | notIn => 3
  | add | sub => 4
  | mul | div | mod => 5

/-- How tightly the parts of an expression hold together. -/
def Expr.grade : Expr → Nat
  | conditional .. => 0
  | binary _ op _ => op.grade
  | unary .. => 6
  | _ => 7

/-- Puts parentheses around what does not hold together tightly enough. -/
def parenthesize (asked own : Nat) (ts : List Token) : List Token :=
  if own < asked then .lparen :: ts ++ [.rparen] else ts

/-- Commas between the parts of a list. -/
def commas : List (List Token) → List Token
  | [] => []
  | [ts] => ts
  | ts :: more => ts ++ .comma :: commas more

mutual

/-- An expression as it is written. -/
def Expr.tokens : Expr → List Token
  | .identifier name => [.name name]
  | .integer value => [.integer value]
  | .boolean value => [.boolean value]
  | .string value format multiline => [.string value format multiline]
  | .array es => .lbracket :: commas (Expr.tokensEach es) ++ [.rbracket]
  | .dictionary entries => .lbrace :: commas (Expr.entryTokens entries) ++ [.rbrace]
  | .unary op e => op.token :: parenthesize 6 e.grade e.tokens
  | .binary l op r =>
    parenthesize op.grade l.grade l.tokens ++ op.tokens ++
      parenthesize (op.grade + 1) r.grade r.tokens
  | .conditional c t f =>
    parenthesize 1 c.grade c.tokens ++ .question :: t.tokens ++ .colon :: f.tokens
  | .subscript e i => parenthesize 7 e.grade e.tokens ++ .lbracket :: i.tokens ++ [.rbracket]
  | .call name args => .name name :: .lparen :: commas (Expr.argTokens args) ++ [.rparen]
  | .method e name args =>
    parenthesize 7 e.grade e.tokens ++ .dot :: .name name :: .lparen ::
      commas (Expr.argTokens args) ++ [.rparen]

/-- The elements of an array as they are written. -/
def Expr.tokensEach : List Expr → List (List Token)
  | [] => []
  | e :: es => e.tokens :: Expr.tokensEach es

/-- The entries of a dictionary as they are written. -/
def Expr.entryTokens : List (Expr × Expr) → List (List Token)
  | [] => []
  | (key, value) :: entries => (key.tokens ++ .colon :: value.tokens) :: Expr.entryTokens entries

/-- Arguments as they are written. -/
def Expr.argTokens : List (Option String × Expr) → List (List Token)
  | [] => []
  | (none, e) :: args => e.tokens :: Expr.argTokens args
  | (some name, e) :: args => (.name name :: .colon :: e.tokens) :: Expr.argTokens args

end

/-- An expression as it is written at a place that asks for a grade. -/
def Expr.tokensAt (asked : Nat) (e : Expr) : List Token := parenthesize asked e.grade e.tokens

/-! ### Statements as tokens -/

mutual

/-- A statement as it is written, with the end of its line. -/
def Stmt.tokens : Stmt → List Token
  | .expression e => e.tokens ++ [.newline]
  | .assignment target op value => .name target :: op.token :: value.tokens ++ [.newline]
  | .selection condition body rest =>
    .kwIf :: condition.tokens ++ .newline :: Stmt.tokensAll body ++ rest.tokens
  | .iteration name second iterable body =>
    .kwForeach :: .name name :: (second.map fun second => [.comma, .name second]).getD [] ++
      .colon :: iterable.tokens ++ .newline :: Stmt.tokensAll body ++ [.kwEndforeach, .newline]
  | .breakLoop => [.kwBreak, .newline]
  | .continueLoop => [.kwContinue, .newline]

/-- Statements as they are written, one on a line. -/
def Stmt.tokensAll : List Stmt → List Token
  | [] => []
  | s :: rest => s.tokens ++ Stmt.tokensAll rest

/-- Branches as they are written, with the end of the selection. -/
def Arms.tokens : Arms → List Token
  | .done => [.kwEndif, .newline]
  | .otherwise body => .kwElse :: .newline :: Stmt.tokensAll body ++ [.kwEndif, .newline]
  | .arm condition body rest =>
    .kwElif :: condition.tokens ++ .newline :: Stmt.tokensAll body ++ rest.tokens

end

/-! ### Nesting -/

/-- Parentheses open a level of nesting. -/
def parenthesizedNesting (asked own n : Nat) : Nat := if own < asked then n + 1 else n

mutual

/-- How many levels of nesting an expression opens at a time. Brackets, unary
operators and the arms of a conditional open one each. -/
def Expr.nesting : Expr → Nat
  | .identifier _ | .integer _ | .boolean _ | .string .. => 0
  | .array es => Expr.nestingEach es
  | .dictionary entries => Expr.entryNesting entries
  | .unary _ e => parenthesizedNesting 6 e.grade e.nesting + 1
  | .binary l op r =>
    max (parenthesizedNesting op.grade l.grade l.nesting)
      (parenthesizedNesting (op.grade + 1) r.grade r.nesting)
  | .conditional c t f =>
    max (parenthesizedNesting 1 c.grade c.nesting) (max (t.nesting + 1) (f.nesting + 1))
  | .subscript e i => max (parenthesizedNesting 7 e.grade e.nesting) (i.nesting + 1)
  | .call _ args => Expr.argNesting args
  | .method e _ args => max (parenthesizedNesting 7 e.grade e.nesting) (Expr.argNesting args)

/-- The nesting of a list of elements in brackets. -/
def Expr.nestingEach : List Expr → Nat
  | [] => 0
  | e :: es => max (e.nesting + 1) (Expr.nestingEach es)

/-- The nesting of the entries of a dictionary in brackets. -/
def Expr.entryNesting : List (Expr × Expr) → Nat
  | [] => 0
  | (key, value) :: entries =>
    max (max (key.nesting + 1) (value.nesting + 1)) (Expr.entryNesting entries)

/-- The nesting of arguments in brackets. -/
def Expr.argNesting : List (Option String × Expr) → Nat
  | [] => 0
  | (_, e) :: args => max (e.nesting + 1) (Expr.argNesting args)

end

/-- The nesting of an expression at a place that asks for a grade. -/
def Expr.nestingAt (asked : Nat) (e : Expr) : Nat :=
  parenthesizedNesting asked e.grade e.nesting

mutual

/-- How many levels of nesting a statement opens at a time. Its expressions, and a
selection or a loop, open one each. -/
def Stmt.nesting : Stmt → Nat
  | .expression e => e.nesting + 1
  | .assignment _ _ value => value.nesting + 1
  | .selection condition body rest =>
    max (condition.nesting + 1) (max (Stmt.nestingAll body) rest.nesting) + 1
  | .iteration _ _ iterable body => max (iterable.nesting + 1) (Stmt.nestingAll body) + 1
  | .breakLoop | .continueLoop => 0

/-- The nesting of statements. -/
def Stmt.nestingAll : List Stmt → Nat
  | [] => 0
  | s :: rest => max s.nesting (Stmt.nestingAll rest)

/-- The nesting of branches. -/
def Arms.nesting : Arms → Nat
  | .done => 0
  | .otherwise body => Stmt.nestingAll body
  | .arm condition body rest =>
    max (condition.nesting + 1) (max (Stmt.nestingAll body) rest.nesting)

end

mutual

/-- The expressions of a statement, those of its blocks included. -/
def Stmt.expressions : Stmt → List Expr
  | .expression e | .assignment _ _ e => [e]
  | .selection condition body rest => condition :: Stmt.expressionsAll body ++ rest.expressions
  | .iteration _ _ iterable body => iterable :: Stmt.expressionsAll body
  | .breakLoop | .continueLoop => []

/-- The expressions of statements. -/
def Stmt.expressionsAll : List Stmt → List Expr
  | [] => []
  | s :: rest => s.expressions ++ Stmt.expressionsAll rest

/-- The expressions of branches. -/
def Arms.expressions : Arms → List Expr
  | .done => []
  | .otherwise body => Stmt.expressionsAll body
  | .arm condition body rest => condition :: Stmt.expressionsAll body ++ rest.expressions

end

/-! ### Trees -/

mutual

/-- The tree of an expression. -/
def Expr.toTree : Expr → Tree Unit
  | .identifier name => .identifier () name
  | .integer value => .integer () value ""
  | .boolean value => .boolean () value
  | .string value format multiline => .string () value format multiline
  | .array es => .array () (Expr.toTrees es)
  | .dictionary entries => .dictionary () (Expr.entryTrees entries)
  | .unary op e => .unary () op e.toTree
  | .binary l op r => .binary () l.toTree op r.toTree
  | .conditional c t f => .conditional () c.toTree t.toTree f.toTree
  | .subscript e i => .subscript () e.toTree i.toTree
  | .call name args => .call () (.identifier () name) (.arguments () (Expr.argTrees args))
  | .method e name args =>
    .method () e.toTree (.identifier () name) (some (.arguments () (Expr.argTrees args)))

/-- The trees of expressions. -/
def Expr.toTrees : List Expr → List (Tree Unit)
  | [] => []
  | e :: es => e.toTree :: Expr.toTrees es

/-- The trees of the entries of a dictionary. -/
def Expr.entryTrees : List (Expr × Expr) → List (Tree Unit)
  | [] => []
  | (key, value) :: entries => .entry () key.toTree value.toTree :: Expr.entryTrees entries

/-- The trees of arguments. -/
def Expr.argTrees : List (Option String × Expr) → List (Tree Unit)
  | [] => []
  | (none, e) :: args => e.toTree :: Expr.argTrees args
  | (some name, e) :: args =>
    .keyword () (.identifier () name) e.toTree :: Expr.argTrees args

end

mutual

/-- The tree of a statement. -/
def Stmt.toTree : Stmt → Tree Unit
  | .expression e => e.toTree
  | .assignment target op value => .assignment () (.identifier () target) op value.toTree
  | .selection condition body rest =>
    .selection () (.arm condition.toTree (Stmt.toTrees body) rest.toBranches)
  | .iteration name second iterable body =>
    .iteration () (.identifier () name :: (second.map (Tree.identifier ())).toList)
      iterable.toTree (Stmt.toTrees body)
  | .breakLoop => .breakLoop ()
  | .continueLoop => .continueLoop ()

/-- The trees of statements. -/
def Stmt.toTrees : List Stmt → List (Tree Unit)
  | [] => []
  | s :: rest => s.toTree :: Stmt.toTrees rest

/-- The branches of a selection after the first. -/
def Arms.toBranches : Arms → Branches Unit
  | .done => .done
  | .otherwise body => .otherwise (Stmt.toTrees body)
  | .arm condition body rest => .arm condition.toTree (Stmt.toTrees body) rest.toBranches

end

mutual

/-- A tree without its notes and the texts of its integers. -/
def Tree.bare {α : Type} : Tree α → Tree Unit
  | .file _ ts => .file () (Tree.bareAll ts)
  | .arguments _ ts => .arguments () (Tree.bareAll ts)
  | .array _ ts => .array () (Tree.bareAll ts)
  | .assignment _ l op r => .assignment () l.bare op r.bare
  | .binary _ l op r => .binary () l.bare op r.bare
  | .boolean _ value => .boolean () value
  | .conditional _ c t f => .conditional () c.bare t.bare f.bare
  | .dictionary _ ts => .dictionary () (Tree.bareAll ts)
  | .call _ l r => .call () l.bare r.bare
  | .identifier _ name => .identifier () name
  | .integer _ value _ => .integer () value ""
  | .iteration _ names iterable body =>
    .iteration () (Tree.bareAll names) iterable.bare (Tree.bareAll body)
  | .entry _ l r => .entry () l.bare r.bare
  | .keyword _ l r => .keyword () l.bare r.bare
  | .method _ object name none => .method () object.bare name.bare none
  | .method _ object name (some args) => .method () object.bare name.bare (some args.bare)
  | .selection _ branches => .selection () branches.bare
  | .string _ value format multiline => .string () value format multiline
  | .subscript _ l r => .subscript () l.bare r.bare
  | .unary _ op t => .unary () op t.bare
  | .malformed _ fault => .malformed () fault
  | .breakLoop _ => .breakLoop ()
  | .continueLoop _ => .continueLoop ()

/-- Trees without their notes. -/
def Tree.bareAll {α : Type} : List (Tree α) → List (Tree Unit)
  | [] => []
  | t :: ts => t.bare :: Tree.bareAll ts

/-- Branches without their notes. -/
def Branches.bare {α : Type} : Branches α → Branches Unit
  | .done => .done
  | .otherwise body => .otherwise (Tree.bareAll body)
  | .arm condition body rest => .arm condition.bare (Tree.bareAll body) rest.bare

end

end MesonLens
