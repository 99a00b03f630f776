import MesonLens.Syntax.Expression

/-!
# `MesonLens.Syntax.Statement`: the grammar of statements

A statement ends with its line. A statement that cannot be read becomes one
`malformed` node up to the end of the line, and reading goes on with the next
line, so a file is always read to its end.

* `statement`: one statement, with some number of levels of nesting left;
* `block`: statements up to the word that closes their block;
* `statements`: a whole file.
-/

set_option autoImplicit false

namespace MesonLens

namespace Parse

/-- Runs a step; what it fails on becomes one node. -/
def orRecover (p : Parse (Tree Span)) : Reading (Tree Span) := do
  let start := (← get).rest
  match ← p.run with
  | .ok t => return t
  | .error e => recover start e

/-- Forgets the open brackets: every line starts outside of any. -/
def closeBrackets : Reading Unit :=
  modify fun c => { c with depth := 0 }

/-- Reads the end of a line. What stands before it becomes one node. -/
def finishLine : Reading (List (Tree Span)) := do
  closeBrackets
  let c ← get
  -- A block that ran to the end of the text may have passed the line end already.
  if c.last.any (·.token = .newline) then return []
  match c.rest with
  | [] => return []
  | l :: rest =>
    if l.token = .newline then
      set c.pass
      return []
    else
      let error ← unexpected .endOfLine
      return [← recover (l :: rest) error]

/-- Reads the end of a line that heads a block; what stands before it is only
reported. -/
def finishHeader : Reading Unit :=
  discard finishLine

/-- An expression, or an assignment to one. -/
def simpleStatement (inner : Level) : Parse (Tree Span) := do
  let target ← inner.expression
  match (← peek).bind fun l => AssignOp.ofToken? l.token with
  | none => return target
  | some op =>
    discard advance
    if target.kind ≠ .identifier then report .badTarget target.note
    let value ← inner.expression
    return .assignment (target.note.join value.note) target op value

/-- The branches of a selection after the first: their conditions and blocks.
Every round reads at least one token. -/
def moreBranches (inner : Level) (block : Reading (List (Tree Span))) :
    Nat → Bool → Reading (List (Tree Span) × List (List (Tree Span)))
  | 0, _ => return ([], [])
  | rounds + 1, seenElse => do
    closeBrackets
    match (← get).rest.head? with
    | some ⟨.kwElif, span, _⟩ =>
      if seenElse then report .elifAfterElse span
      discard advance
      let condition ← orRecover inner.expression
      finishHeader
      let body ← block
      let (conditions, bodies) ← moreBranches inner block rounds seenElse
      return (condition :: conditions, body :: bodies)
    | some ⟨.kwElse, span, _⟩ =>
      if seenElse then report .repeatedElse span
      discard advance
      finishHeader
      let body ← block
      let (conditions, bodies) ← moreBranches inner block rounds true
      return (conditions, body :: bodies)
    | some ⟨.kwEndif, _, _⟩ =>
      discard advance
      return ([], [])
    | _ =>
      let error ← unexpected (.token .kwEndif)
      report error.fault error.span
      return ([], [])

/-- A selection; the next token is its `if`. -/
def selection (inner : Level) (block : Reading (List (Tree Span))) : Reading (Tree Span) := do
  let start ← here
  discard advance
  let condition ← orRecover inner.expression
  finishHeader
  let body ← block
  let (conditions, bodies) ← moreBranches inner block ((← get).rest.length + 1) false
  return .selection (start.join (← get).lastSpan)
    (Branches.ofLists (condition :: conditions) (body :: bodies))

/-- Names divided by commas. Every round reads at least one token. -/
def loopVariables : Nat → Parse (List (Tree Span))
  | 0 => failWanting .loopVariable
  | rounds + 1 => do
    match ← peek with
    | some ⟨.name name, span, _⟩ =>
      discard advance
      let loopVar := Tree.identifier span name
      match ← eat .comma with
      | some _ => return loopVar :: (← loopVariables rounds)
      | none => return [loopVar]
    | _ => failWanting .loopVariable

/-- One or two loop variables, a colon, and what they run through. -/
def loopHeader (inner : Level) : Parse (List (Tree Span) × Tree Span) := do
  let names ← loopVariables ((← get).rest.length + 1)
  if 2 < names.length then
    let first := (names.head?.map Tree.note).getD {}
    throw ⟨.tooManyVariables, first.join (← get).lastSpan⟩
  discard (expect .colon)
  let iterable ← inner.expression
  return (names, iterable)

/-- The header of a loop. One that cannot be read becomes one node. -/
def headerOrRecover (inner : Level) : Reading (List (Tree Span) × Tree Span) := do
  let start := (← get).rest
  match ← (loopHeader inner).run with
  | .ok header => return header
  | .error e => return ([], ← recover start e)

/-- Reads the word that closes a loop. -/
def closeLoop : Reading Unit := do
  closeBrackets
  if (← get).isAt .kwEndforeach then discard advance
  else
    let error ← unexpected (.token .kwEndforeach)
    report error.fault error.span

/-- A loop; the next token is its `foreach`. -/
def iteration (inner : Level) (block : Reading (List (Tree Span))) : Reading (Tree Span) := do
  let start ← here
  discard advance
  let (names, iterable) ← headerOrRecover inner
  finishHeader
  let body ← block
  closeLoop
  return .iteration (start.join (← get).lastSpan) names iterable body

/-- Statements up to the word that closes the block. In a file as a whole,
where no block is open, such a word is an error. Every round reads at least
one token. -/
def blockRounds (one : Parse (Tree Span)) (top : Bool) : Nat → Reading (List (Tree Span))
  | 0 => return []
  | rounds + 1 => do
    closeBrackets
    let c ← get
    match c.rest with
    | [] => return []
    | l :: rest =>
      if l.token = .newline then
        set c.pass
        blockRounds one top rounds
      else if l.token.closesBlock then
        -- The word is left for the statement that the block belongs to, if there is one.
        if top then
          let node ← recover (l :: rest) ⟨.unexpected l.token, l.span⟩
          return node :: (← blockRounds one top rounds)
        else return []
      else
        match ← one.run with
        | .ok t =>
          let junk ← finishLine
          return t :: (junk ++ (← blockRounds one top rounds))
        | .error e =>
          let node ← recover (l :: rest) e
          return node :: (← blockRounds one top rounds)

/-- Statements up to the word that closes the block. -/
def block (one : Parse (Tree Span)) (top : Bool) : Reading (List (Tree Span)) := do
  blockRounds one top ((← get).rest.length + 1)

/-- A statement. Selections and loops open a level of nesting. -/
def statement (room : Nat) : Parse (Tree Span) := do
  match (← peek).map Lexeme.token with
  | some .kwIf =>
    match room with
    | 0 => tooDeep
    | room + 1 => selection (level room) (block (statement room) false)
  | some .kwForeach =>
    match room with
    | 0 => tooDeep
    | room + 1 => iteration (level room) (block (statement room) false)
  | some .kwBreak =>
    let span ← here
    discard advance
    return .breakLoop span
  | some .kwContinue =>
    let span ← here
    discard advance
    return .continueLoop span
  | _ => simpleStatement (level room)

/-- The statements of a file and what is wrong with them, oldest first. -/
def statements (lexemes : List Lexeme) (eof : Position) :
    List (Tree Span) × List SyntaxError :=
  let (trees, c) := (block (statement maxNesting) true).run { rest := lexemes, eof }
  (trees, c.errors)

end Parse

end MesonLens
