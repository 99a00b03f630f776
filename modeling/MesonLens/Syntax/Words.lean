import MesonLens.Syntax.Tree

/-!
# `MesonLens.Syntax.Words`: the words of a tree

A text is more than its brackets and separators: names, literals, operators and
keywords are its words. `Tree.words` lists the words of a tree in the order in
which they are written.

* `UnaryOp.token`, `BinaryOp.tokens`, `AssignOp.token`: how operators are
  written;
* `Token.isSeparator`: the tokens that are no words;
* `Tree.words`, `Branches.words`: the words of a tree.
-/

set_option autoImplicit false

namespace MesonLens

/-- How the operator is written. -/
def UnaryOp.token : UnaryOp → Token
  | not => .kwNot
  | negate => .sub

/-- How the operator is written; `not in` takes two tokens. -/
def BinaryOp.tokens : BinaryOp → List Token
  | add => [.add]
  | sub => [.sub]
  | mul => [.mul]
  | div => [.div]
  | mod => [.mod]
  | eq => [.eq]
  | ne => [.ne]
  | gt => [.gt]
  | lt => [.lt]
  | ge => [.ge]
  | le => [.le]
  | isIn => [.kwIn]
  | notIn => [.kwNot, .kwIn]
  | and => [.kwAnd]
  | or => [.kwOr]

/-- How the operator is written. -/
def AssignOp.token : AssignOp → Token
  | assign => .assign
  | add => .addAssign
  | sub => .subAssign
  | mul => .mulAssign
  | div => .divAssign
  | mod => .modAssign

/-- Whether the token is a line end, a bracket or a separator. -/
def Token.isSeparator : Token → Bool
  | newline | lparen | rparen | lbracket | rbracket | lbrace | rbrace => true
  | comma | colon | dot | question => true
  | _ => false

/-- The words among tokens. -/
def Token.wordsOf (ts : List Token) : List Token := ts.filter (!·.isSeparator)

mutual

/-- The words of a tree in the order in which they are written. -/
def Tree.words {α : Type} : Tree α → List Token
  | .file _ ts | .arguments _ ts | .array _ ts | .dictionary _ ts => Tree.wordsAll ts
  | .assignment _ target op value => target.words ++ op.token :: value.words
  | .binary _ left op right => left.words ++ op.tokens ++ right.words
  | .boolean _ value => [.boolean value]
  | .conditional _ condition ifTrue ifFalse =>
    condition.words ++ ifTrue.words ++ ifFalse.words
  | .call _ callee args => callee.words ++ args.words
  | .identifier _ name => [.name name]
  | .integer _ value _ => [.integer value]
  | .iteration _ names iterable body =>
    .kwForeach :: Tree.wordsAll names ++ iterable.words ++ Tree.wordsAll body ++ [.kwEndforeach]
  | .entry _ key value | .keyword _ key value => key.words ++ value.words
  | .method _ object name none => object.words ++ name.words
  | .method _ object name (some args) => object.words ++ name.words ++ args.words
  | .selection _ branches => branches.words .kwIf
  | .string _ value format multiline => [.string value format multiline]
  | .subscript _ object index => object.words ++ index.words
  | .unary _ op operand => op.token :: operand.words
  | .malformed .. => []
  | .breakLoop _ => [.kwBreak]
  | .continueLoop _ => [.kwContinue]

/-- The words of trees in order. -/
def Tree.wordsAll {α : Type} : List (Tree α) → List Token
  | [] => []
  | t :: ts => t.words ++ Tree.wordsAll ts

/-- The words of branches, the first of which starts with the given keyword. The
last word closes the selection. -/
def Branches.words {α : Type} (first : Token) : Branches α → List Token
  | .done => [.kwEndif]
  | .otherwise body => .kwElse :: Tree.wordsAll body ++ [.kwEndif]
  | .arm condition body rest =>
    first :: condition.words ++ Tree.wordsAll body ++ rest.words .kwElif

end

end MesonLens
