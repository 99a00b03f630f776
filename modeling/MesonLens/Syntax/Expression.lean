import MesonLens.Syntax.Cursor

/-!
# `MesonLens.Syntax.Expression`: the grammar of expressions

From loosest to tightest: conditional, `or`, `and`, comparison, additive,
multiplicative, unary, and what follows an operand (method calls and
subscripts). Operators of one level group to the left; conditionals group to
the right.

Brackets, unary operators and the arms of a conditional each open a level of
nesting, and a text may nest `maxNesting` levels deep. `Level` holds what can
be read one level further in, so every rule below is a plain function of the
level inside it and `level` is defined by recursion on the levels left.
-/

set_option autoImplicit false

namespace MesonLens

/-- How deep brackets, unary operators, conditionals and blocks may nest. -/
def maxNesting : Nat := 100

/-- The greatest height of an expression. -/
def maxHeight : Nat := 128

namespace Parse

/-- What can be read one level of nesting further in. -/
structure Level where
  conditional : Parse (Tree Span)
  unary : Parse (Tree Span)

/-- Fails because no level of nesting is left. -/
def tooDeep {α : Type} : Parse α := do
  throw ⟨.nestedTooDeep, ← here⟩

/-- An expression: a conditional one level further in, not too tall. -/
def Level.expression (inner : Level) : Parse (Tree Span) := do
  let e ← inner.conditional
  if maxHeight < e.height then throw ⟨.expressionTooTall, e.note⟩
  return e

/-- Items divided by commas up to the closing token, with that token's stretch.
A comma may stand before the closing token. Every round reads at least one
token, so more rounds than tokens left are never needed. -/
def commaList (item : Parse (Tree Span)) (close : Token) :
    Nat → Parse (List (Tree Span) × Span)
  | 0 => failWanting (.commaOr close)
  | rounds + 1 => do
    match ← eat close with
    | some span => return ([], span)
    | none =>
      let first ← item
      match ← eat .comma with
      | some _ =>
        let (more, span) ← commaList item close rounds
        return (first :: more, span)
      | none => return ([first], ← expectAs close (.commaOr close))

/-- Items divided by commas up to the closing token. -/
def untilClose (item : Parse (Tree Span)) (close : Token) : Parse (List (Tree Span) × Span) := do
  commaList item close ((← get).rest.length + 1)

/-- An argument: an expression, or a name, a colon and an expression. -/
def argument (inner : Level) : Parse (Tree Span) := do
  let key ← inner.expression
  match ← eat .colon with
  | none => return key
  | some _ =>
    if key.kind ≠ .identifier then throw ⟨.badKeyword, key.note⟩
    let value ← inner.expression
    return .keyword (key.note.join value.note) key value

/-- The bracketed arguments of a call. -/
def arguments (inner : Level) : Parse (Tree Span) := do
  let start ← expect .lparen
  let (items, stop) ← untilClose (argument inner) .rparen
  return .arguments (start.join stop) items

/-- A key, a colon and a value. -/
def entry (inner : Level) : Parse (Tree Span) := do
  let key ← inner.expression
  discard (expect .colon)
  let value ← inner.expression
  return .entry (key.note.join value.note) key value

/-- What a lexeme that was just read starts: a literal, a name, a call, or a
bracketed expression. -/
def startedBy (inner : Level) (l : Lexeme) : Parse (Tree Span) := do
  match l.token with
  | .integer value => return .integer l.span value l.raw
  | .boolean value => return .boolean l.span value
  | .string value format multiline => return .string l.span value format multiline
  | .name name =>
    let callee := Tree.identifier l.span name
    if (← peek).map Lexeme.token = some .lparen then
      let args ← arguments inner
      return .call (l.span.join args.note) callee args
    else return callee
  | .lparen =>
    let e ← inner.expression
    discard (expect .rparen)
    return e
  | .lbracket =>
    let (elements, stop) ← untilClose inner.expression .rbracket
    return .array (l.span.join stop) elements
  | .lbrace =>
    let (entries, stop) ← untilClose (entry inner) .rbrace
    return .dictionary (l.span.join stop) entries
  | token => throw ⟨.unexpected token, l.span⟩

/-- A literal, a name, a call, or a bracketed expression. -/
def primary (inner : Level) : Parse (Tree Span) := do
  let some l ← peek | failWanting .expression
  -- A line end is not read, so that the error stays on its line.
  if l.token = .newline then failWanting .expression
  discard advance
  startedBy inner l

/-- A method call on `object`, the dot already read. Without a name the call
still becomes a node, so that a name can be proposed there. -/
def method (inner : Level) (object : Tree Span) (dot : Span) : Parse (Tree Span) := do
  match ← peek with
  | some ⟨.name name, span, _⟩ =>
    discard advance
    let member := Tree.identifier span name
    if (← peek).map Lexeme.token = some .lparen then
      let args ← arguments inner
      return .method (object.note.join args.note) object member (some args)
    else
      let error ← unexpected .methodArguments
      report error.fault error.span
      return .method (object.note.join span) object member none
  | _ =>
    let place := Span.empty dot.stop
    report .noMethodName place
    return .method (object.note.join dot) object (.malformed place .noMethodName) none

/-- The method calls and subscripts that follow `object`. Every round reads at
least one token. -/
def suffixes (inner : Level) : Nat → Tree Span → Parse (Tree Span)
  | 0, object => return object
  | rounds + 1, object => do
    match ← peek with
    | some ⟨.dot, dot, _⟩ =>
      discard advance
      suffixes inner rounds (← method inner object dot)
    | some ⟨.lbracket, _, _⟩ =>
      discard advance
      let index ← inner.expression
      let stop ← expect .rbracket
      suffixes inner rounds (.subscript (object.note.join stop) object index)
    | _ => return object

/-- An operand with the method calls and subscripts that follow it. -/
def operand (inner : Level) : Parse (Tree Span) := do
  let e ← primary inner
  suffixes inner (← get).rest.length e

/-- The unary operator that a token writes. -/
def unaryOp? : Token → Option UnaryOp
  | .kwNot => some .not
  | .sub => some .negate
  | _ => none

/-- An operand with the unary operators before it. -/
def unary (inner : Level) : Parse (Tree Span) := do
  match ← peek with
  | some l =>
    match unaryOp? l.token with
    | some op =>
      discard advance
      let e ← inner.unary
      return .unary (l.span.join e.note) op e
    | none => operand inner
  | none => operand inner

/-- Reads the operator that `op?` sees in the next token. -/
def operator (op? : Token → Option BinaryOp) : Reading (Option BinaryOp) := do
  match (← peek).bind fun l => op? l.token with
  | some op => do
    discard advance
    return some op
  | none => return none

/-- Reads a comparison operator, which may be the two tokens `not in`. -/
def comparisonOperator : Reading (Option BinaryOp) := do
  match (← peek).map Lexeme.token with
  | some .kwNot =>
    if (← peekSecond) = some .kwIn then
      discard advance
      discard advance
      return some .notIn
    else return none
  | _ => operator BinaryOp.comparison?

/-- Further operators and operands after `left`, grouped to the left. Every
round reads at least one token. -/
def chain (op : Reading (Option BinaryOp)) (next : Parse (Tree Span)) :
    Nat → Tree Span → Parse (Tree Span)
  | 0, left => return left
  | rounds + 1, left => do
    match ← (op : Parse (Option BinaryOp)) with
    | none => return left
    | some op' =>
      let right ← next
      chain op next rounds (.binary (left.note.join right.note) left op' right)

/-- Operands divided by operators, grouped to the left. -/
def leftGrouped (op : Reading (Option BinaryOp)) (next : Parse (Tree Span)) :
    Parse (Tree Span) := do
  let first ← next
  chain op next (← get).rest.length first

/-- The multiplicative operator that a token writes. -/
def multiplicativeOp? : Token → Option BinaryOp
  | .mul => some .mul
  | .div => some .div
  | .mod => some .mod
  | _ => none

/-- The additive operator that a token writes. -/
def additiveOp? : Token → Option BinaryOp
  | .add => some .add
  | .sub => some .sub
  | _ => none

/-- The operator `and`. -/
def andOp? : Token → Option BinaryOp
  | .kwAnd => some .and
  | _ => none

/-- The operator `or`. -/
def orOp? : Token → Option BinaryOp
  | .kwOr => some .or
  | _ => none

/-- Products, quotients and remainders. -/
def multiplicative (inner : Level) : Parse (Tree Span) :=
  leftGrouped (operator multiplicativeOp?) (unary inner)

/-- Sums and differences. -/
def additive (inner : Level) : Parse (Tree Span) :=
  leftGrouped (operator additiveOp?) (multiplicative inner)

/-- Comparisons and membership. -/
def comparison (inner : Level) : Parse (Tree Span) :=
  leftGrouped comparisonOperator (additive inner)

/-- Conjunctions. -/
def conjunction (inner : Level) : Parse (Tree Span) :=
  leftGrouped (operator andOp?) (comparison inner)

/-- Disjunctions. -/
def disjunction (inner : Level) : Parse (Tree Span) :=
  leftGrouped (operator orOp?) (conjunction inner)

/-- A disjunction, or a conditional with its two arms one level further in. -/
def conditional (inner : Level) : Parse (Tree Span) := do
  let condition ← disjunction inner
  match ← eat .question with
  | none => return condition
  | some _ =>
    let ifTrue ← inner.conditional
    discard (expect .colon)
    let ifFalse ← inner.conditional
    return .conditional (condition.note.join ifFalse.note) condition ifTrue ifFalse

/-- What can be read with some number of levels of nesting left. -/
def level : Nat → Level
  | 0 => ⟨tooDeep, tooDeep⟩
  | room + 1 => ⟨conditional (level room), unary (level room)⟩

end Parse

end MesonLens
