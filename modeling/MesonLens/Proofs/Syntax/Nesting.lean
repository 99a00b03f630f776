import MesonLens.Proofs.Syntax.Height

/-!
# `MesonLens.Proofs.Syntax.Nesting`: a counter in place of the levels left

The grammar gets the levels of nesting that are left as an argument. A parser may as well keep one
counter, which goes up where a level is opened and down where it is closed, whether what was
inside could be read or not. `Metered` is the grammar with such a counter, and it remembers the
highest count.

* `Metered.nested`: the one place where the counter changes;
* `Metered.Mirrors`: a metered step does what the plain one does, leaves the counter as it was,
  and the counter stays within the limit. Steps in a row keep this, so each rule keeps it;
* `Metered.mirrors_level`, `Metered.mirrors_statement`: expressions and statements, for every count
  that they may be entered with;
* `Metered.shallow_parse`: the limits hold for every text.
-/

set_option autoImplicit false

namespace MesonLens

/-- Where the parser stands, and how deep it is. -/
structure Meter where
  cursor : Cursor
  /-- How many levels of nesting are open. -/
  nesting : Nat := 0
  /-- The most levels that were open at a time. -/
  peak : Nat := 0

namespace Metered

open Parse

/-- A metered step that cannot fail. -/
abbrev Steps := StateM Meter

/-- A metered step that can fail. -/
abbrev Attempts := ExceptT SyntaxError Steps

variable {α β : Type}

/-- A step that opens no level. -/
def ofReading (m : Reading α) : Steps α := fun s =>
  ((m.run s.cursor).1, { s with cursor := (m.run s.cursor).2 })

instance : MonadLift Reading Steps := ⟨ofReading⟩

/-- A step that opens no level and may fail. -/
def ofParse (m : Parse α) : Attempts α := ExceptT.mk (ofReading m.run)

instance : MonadLift Parse Attempts := ⟨ofParse⟩

/-- Counts a level that is opened. -/
def enter : Steps Unit := modify fun s =>
  { s with nesting := s.nesting + 1, peak := max s.peak (s.nesting + 1) }

/-- Counts a level that is closed. -/
def leave : Steps Unit := modify fun s => { s with nesting := s.nesting - 1 }

/-- Runs a step one level further in, unless there are too many. The level is closed whether the
step has failed or not. -/
def nested (m : Attempts α) : Attempts α := ExceptT.mk do
  if maxNesting ≤ (← get).nesting then ofReading (tooDeep (α := α)).run
  else
    enter
    let result ← m.run
    leave
    return result

/-! ### The grammar

The rules are those of the plain grammar, with `nested` around what is read one level further in. -/

/-- What is read inside a level. -/
structure Descent where
  conditional : Attempts (Tree Span)
  unary : Attempts (Tree Span)

def Descent.expression (inner : Descent) : Attempts (Tree Span) := do
  let e ← nested inner.conditional
  if maxHeight < e.height then throw ⟨.expressionTooTall, e.note⟩
  return e

def commaList (item : Attempts (Tree Span)) (close : Token) :
    Nat → Attempts (List (Tree Span) × Span)
  | 0 => failWanting (α := List (Tree Span) × Span) (.commaOr close)
  | rounds + 1 => do
    match ← eat close with
    | some span => return ([], span)
    | none =>
      let first ← item
      match ← eat .comma with
      | some _ =>
        let (more, span) ← commaList item close rounds
        return (first :: more, span)
      | none => return ([first], ← expectAs close (.commaOr close))

def untilClose (item : Attempts (Tree Span)) (close : Token) :
    Attempts (List (Tree Span) × Span) := do
  commaList item close ((← (get : Reading Cursor)).rest.length + 1)

def argument (inner : Descent) : Attempts (Tree Span) := do
  let key ← inner.expression
  match ← eat .colon with
  | none => return key
  | some _ =>
    if key.kind ≠ .identifier then throw ⟨.badKeyword, key.note⟩
    let value ← inner.expression
    return .keyword (key.note.join value.note) key value

def arguments (inner : Descent) : Attempts (Tree Span) := do
  let start ← expect .lparen
  let (items, stop) ← untilClose (argument inner) .rparen
  return .arguments (start.join stop) items

def entry (inner : Descent) : Attempts (Tree Span) := do
  let key ← inner.expression
  discard (expect .colon)
  let value ← inner.expression
  return .entry (key.note.join value.note) key value

def startedBy (inner : Descent) (l : Lexeme) : Attempts (Tree Span) := do
  match l.token with
  | .integer value => return .integer l.span value l.raw
  | .boolean value => return .boolean l.span value
  | .string value format multiline => return .string l.span value format multiline
  | .name name =>
    let callee := Tree.identifier l.span name
    if (← peek).map Lexeme.token = some .lparen then
      let args ← arguments inner
      return .call (l.span.join args.note) callee args
    else return callee
  | .lparen =>
    let e ← inner.expression
    discard (expect .rparen)
    return e
  | .lbracket =>
    let (elements, stop) ← untilClose inner.expression .rbracket
    return .array (l.span.join stop) elements
  | .lbrace =>
    let (entries, stop) ← untilClose (entry inner) .rbrace
    return .dictionary (l.span.join stop) entries
  | token => throw ⟨.unexpected token, l.span⟩

def primary (inner : Descent) : Attempts (Tree Span) := do
  let some l ← peek | failWanting (α := Tree Span) .expression
  if l.token = .newline then failWanting (α := Unit) .expression
  discard advance
  startedBy inner l

def method (inner : Descent) (object : Tree Span) (dot : Span) : Attempts (Tree Span) := do
  match ← peek with
  | some ⟨.name name, span, _⟩ =>
    discard advance
    let member := Tree.identifier span name
    if (← peek).map Lexeme.token = some .lparen then
      let args ← arguments inner
      return .method (object.note.join args.note) object member (some args)
    else
      let error ← unexpected .methodArguments
      report error.fault error.span
      return .method (object.note.join span) object member none
  | _ =>
    let place := Span.empty dot.stop
    report .noMethodName place
    return .method (object.note.join dot) object (.malformed place .noMethodName) none

def suffixes (inner : Descent) : Nat → Tree Span → Attempts (Tree Span)
  | 0, object => return object
  | rounds + 1, object => do
    match ← peek with
    | some ⟨.dot, dot, _⟩ =>
      discard advance
      suffixes inner rounds (← method inner object dot)
    | some ⟨.lbracket, _, _⟩ =>
      discard advance
      let index ← inner.expression
      let stop ← expect .rbracket
      suffixes inner rounds (.subscript (object.note.join stop) object index)
    | _ => return object

def operand (inner : Descent) : Attempts (Tree Span) := do
  let e ← primary inner
  suffixes inner (← (get : Reading Cursor)).rest.length e

def unary (inner : Descent) : Attempts (Tree Span) := do
  match ← peek with
  | some l =>
    match unaryOp? l.token with
    | some op =>
      discard advance
      let e ← nested inner.unary
      return .unary (l.span.join e.note) op e
    | none => operand inner
  | none => operand inner

def chain (op : Reading (Option BinaryOp)) (next : Attempts (Tree Span)) :
    Nat → Tree Span → Attempts (Tree Span)
  | 0, left => return left
  | rounds + 1, left => do
    match ← op with
    | none => return left
    | some op' =>
      let right ← next
      chain op next rounds (.binary (left.note.join right.note) left op' right)

def leftGrouped (op : Reading (Option BinaryOp)) (next : Attempts (Tree Span)) :
    Attempts (Tree Span) := do
  let first ← next
  chain op next (← (get : Reading Cursor)).rest.length first

def disjunction (inner : Descent) : Attempts (Tree Span) :=
  leftGrouped (operator orOp?) <| leftGrouped (operator andOp?) <|
    leftGrouped comparisonOperator <| leftGrouped (operator additiveOp?) <|
      leftGrouped (operator multiplicativeOp?) (unary inner)

def conditional (inner : Descent) : Attempts (Tree Span) := do
  let condition ← disjunction inner
  match ← eat .question with
  | none => return condition
  | some _ =>
    let ifTrue ← nested inner.conditional
    discard (expect .colon)
    let ifFalse ← nested inner.conditional
    return .conditional (condition.note.join ifFalse.note) condition ifTrue ifFalse

/-- What is read inside a level. The counter ends the descent before the rounds do. -/
def descent : Nat → Descent
  | 0 => ⟨tooDeep (α := Tree Span), tooDeep (α := Tree Span)⟩
  | rounds + 1 => ⟨conditional (descent rounds), unary (descent rounds)⟩

def orRecover (m : Attempts (Tree Span)) : Steps (Tree Span) := do
  let start := (← (get : Reading Cursor)).rest
  match ← m.run with
  | .ok t => return t
  | .error e => recover start e

def simpleStatement (inner : Descent) : Attempts (Tree Span) := do
  let target ← inner.expression
  match (← peek).bind fun l => AssignOp.ofToken? l.token with
  | none => return target
  | some op =>
    discard advance
    if target.kind ≠ .identifier then report .badTarget target.note
    let value ← inner.expression
    return .assignment (target.note.join value.note) target op value

def moreBranches (inner : Descent) (block : Steps (List (Tree Span))) :
    Nat → Bool → Steps (List (Tree Span) × List (List (Tree Span)))
  | 0, _ => return ([], [])
  | rounds + 1, seenElse => do
    closeBrackets
    match (← (get : Reading Cursor)).rest.head? with
    | some ⟨.kwElif, span, _⟩ =>
      if seenElse then report .elifAfterElse span
      discard advance
      let condition ← orRecover inner.expression
      finishHeader
      let body ← block
      let (conditions, bodies) ← moreBranches inner block rounds seenElse
      return (condition :: conditions, body :: bodies)
    | some ⟨.kwElse, span, _⟩ =>
      if seenElse then report .repeatedElse span
      discard advance
      finishHeader
      let body ← block
      let (conditions, bodies) ← moreBranches inner block rounds true
      return (conditions, body :: bodies)
    | some ⟨.kwEndif, _, _⟩ =>
      discard advance
      return ([], [])
    | _ =>
      let error ← unexpected (.token .kwEndif)
      report error.fault error.span
      return ([], [])

def selection (inner : Descent) (block : Steps (List (Tree Span))) : Steps (Tree Span) := do
  let start ← here
  discard advance
  let condition ← orRecover inner.expression
  finishHeader
  let body ← block
  let (conditions, bodies) ←
    moreBranches inner block ((← (get : Reading Cursor)).rest.length + 1) false
  return .selection (start.join (← (get : Reading Cursor)).lastSpan)
    (Branches.ofLists (condition :: conditions) (body :: bodies))

def loopHeader (inner : Descent) : Attempts (List (Tree Span) × Tree Span) := do
  let names ← loopVariables ((← (get : Reading Cursor)).rest.length + 1)
  if 2 < names.length then
    let first := (names.head?.map Tree.note).getD {}
    throw ⟨.tooManyVariables, first.join (← (get : Reading Cursor)).lastSpan⟩
  discard (expect .colon)
  let iterable ← inner.expression
  return (names, iterable)

def headerOrRecover (inner : Descent) : Steps (List (Tree Span) × Tree Span) := do
  let start := (← (get : Reading Cursor)).rest
  match ← (loopHeader inner).run with
  | .ok header => return header
  | .error e => return ([], ← recover start e)

def iteration (inner : Descent) (block : Steps (List (Tree Span))) : Steps (Tree Span) := do
  let start ← here
  discard advance
  let (names, iterable) ← headerOrRecover inner
  finishHeader
  let body ← block
  closeLoop
  return .iteration (start.join (← (get : Reading Cursor)).lastSpan) names iterable body

def blockRounds (one : Attempts (Tree Span)) (top : Bool) : Nat → Steps (List (Tree Span))
  | 0 => return []
  | rounds + 1 => do
    closeBrackets
    let c ← (get : Reading Cursor)
    match c.rest with
    | [] => return []
    | l :: rest =>
      if l.token = .newline then
        (set c.pass : Reading Unit)
        blockRounds one top rounds
      else if l.token.closesBlock then
        if top then
          let node ← recover (l :: rest) ⟨.unexpected l.token, l.span⟩
          return node :: (← blockRounds one top rounds)
        else return []
      else
        match ← one.run with
        | .ok t =>
          let junk ← finishLine
          return t :: (junk ++ (← blockRounds one top rounds))
        | .error e =>
          let node ← recover (l :: rest) e
          return node :: (← blockRounds one top rounds)

def block (one : Attempts (Tree Span)) (top : Bool) : Steps (List (Tree Span)) := do
  blockRounds one top ((← (get : Reading Cursor)).rest.length + 1)

def statement (depth : Nat) : Attempts (Tree Span) := do
  match (← peek).map Lexeme.token with
  | some .kwIf =>
    nested (match depth with
      | 0 => tooDeep (α := Tree Span)
      | depth + 1 => selection (descent depth) (block (statement depth) false))
  | some .kwForeach =>
    nested (match depth with
      | 0 => tooDeep (α := Tree Span)
      | depth + 1 => iteration (descent depth) (block (statement depth) false))
  | some .kwBreak =>
    let span ← here
    discard advance
    return .breakLoop span
  | some .kwContinue =>
    let span ← here
    discard advance
    return .continueLoop span
  | _ => simpleStatement (descent depth)

/-- The statements of a file, and the meter at its end. -/
def statements (depth : Nat) (lexemes : List Lexeme) (eof : Position) :
    List (Tree Span) × Meter :=
  (block (statement depth) true).run { cursor := { rest := lexemes, eof } }

/-! ### Steps that mirror each other -/

/-- Entered with a count of `n`, the metered step does what the plain one does. It leaves the count
as it was, and the count stays within the limit. -/
def Mirrors (n : Nat) (m : Steps α) (p : Reading α) : Prop :=
  ∀ s : Meter, s.nesting = n → s.peak ≤ maxNesting →
    ∃ peak ≤ maxNesting, m.run s = ((p.run s.cursor).1, ⟨(p.run s.cursor).2, n, peak⟩)

/-- The same for steps that can fail. They fail alike. -/
def MirrorsAttempt (n : Nat) (m : Attempts α) (p : Parse α) : Prop := Mirrors n m.run p.run

variable {n : Nat}

namespace Mirrors

theorem pure (a : α) : Mirrors n (Pure.pure a) (Pure.pure a) :=
  fun s hn hpeak => ⟨s.peak, hpeak, by rw [← hn]; rfl⟩

theorem lift (m : Reading α) : Mirrors n (liftM m) m :=
  fun s hn hpeak => ⟨s.peak, hpeak, by rw [← hn]; rfl⟩

theorem bind {m : Steps α} {p : Reading α} {f : α → Steps β} {g : α → Reading β}
    (h : Mirrors n m p) (hf : ∀ a, Mirrors n (f a) (g a)) : Mirrors n (m >>= f) (p >>= g) := by
  intro s hn hpeak
  obtain ⟨peak, hle, hrun⟩ := h s hn hpeak
  obtain ⟨peak', hle', hrun'⟩ := hf (p.run s.cursor).1 ⟨(p.run s.cursor).2, n, peak⟩ rfl hle
  refine ⟨peak', hle', ?_⟩
  rw [StateT.run_bind, hrun]
  exact hrun'

theorem discard {m : Steps α} {p : Reading α} (h : Mirrors n m p) :
    Mirrors n (Functor.discard m) (Functor.discard p) := by
  have hmap : Mirrors n (do let _ ← m; Pure.pure ()) (do let _ ← p; Pure.pure ()) :=
    h.bind fun _ => .pure ()
  exact hmap

theorem ite {c : Prop} [Decidable c] {m m' : Steps α} {p p' : Reading α}
    (h : c → Mirrors n m p) (h' : ¬ c → Mirrors n m' p') :
    Mirrors n (if c then m else m') (if c then p else p') := by
  by_cases hc : c
  · rw [if_pos hc, if_pos hc]
    exact h hc
  · rw [if_neg hc, if_neg hc]
    exact h' hc

end Mirrors

namespace MirrorsAttempt

theorem pure (a : α) : MirrorsAttempt n (Pure.pure a) (Pure.pure a) :=
  Mirrors.pure (Except.ok a : Except SyntaxError α)

theorem throw (e : SyntaxError) :
    MirrorsAttempt n (MonadExcept.throw e : Attempts α) (MonadExcept.throw e) :=
  Mirrors.pure (Except.error e : Except SyntaxError α)

theorem parse (p : Parse α) : MirrorsAttempt n (liftM p) p := Mirrors.lift p.run

theorem read (m : Reading α) : MirrorsAttempt n (liftM m) (liftM m) :=
  Mirrors.lift (liftM m : Parse α).run

theorem steps {m : Steps α} {p : Reading α} (h : Mirrors n m p) :
    MirrorsAttempt n (liftM m) (liftM p) :=
  Mirrors.bind h fun a => Mirrors.pure (Except.ok a : Except SyntaxError α)

theorem bind {m : Attempts α} {p : Parse α} {f : α → Attempts β} {g : α → Parse β}
    (h : MirrorsAttempt n m p) (hf : ∀ a, MirrorsAttempt n (f a) (g a)) :
    MirrorsAttempt n (m >>= f) (p >>= g) := by
  unfold MirrorsAttempt
  rw [ExceptT.run_bind, ExceptT.run_bind]
  refine Mirrors.bind h fun result => ?_
  cases result with
  | error e => exact Mirrors.pure (Except.error e : Except SyntaxError β)
  | ok a => exact hf a

theorem discard {m : Attempts α} {p : Parse α} (h : MirrorsAttempt n m p) :
    MirrorsAttempt n (Functor.discard m) (Functor.discard p) := by
  have hmap : MirrorsAttempt n (do let _ ← m; Pure.pure ()) (do let _ ← p; Pure.pure ()) :=
    h.bind fun _ => .pure ()
  exact hmap

theorem ite {c : Prop} [Decidable c] {m m' : Attempts α} {p p' : Parse α}
    (h : c → MirrorsAttempt n m p) (h' : ¬ c → MirrorsAttempt n m' p') :
    MirrorsAttempt n (if c then m else m') (if c then p else p') := Mirrors.ite h h'

theorem nested_run (m : Attempts α) {s : Meter} (h : s.nesting < maxNesting) :
    (Metered.nested m).run.run s =
      let inside := m.run.run ⟨s.cursor, s.nesting + 1, max s.peak (s.nesting + 1)⟩
      (inside.1, { inside.2 with nesting := inside.2.nesting - 1 }) := by
  unfold Metered.nested
  show StateT.run (if maxNesting ≤ s.nesting then _ else _) s = _
  rw [if_neg (Nat.not_le.mpr h)]
  rfl

/-- A level is opened and closed, and the step inside is counted one deeper. -/
theorem nested {m : Attempts α} {p : Parse α} (hn : n < maxNesting)
    (h : MirrorsAttempt (n + 1) m p) : MirrorsAttempt n (nested m) p := by
  intro s hs hpeak
  subst hs
  obtain ⟨peak, hle, hrun⟩ := h ⟨s.cursor, s.nesting + 1, max s.peak (s.nesting + 1)⟩ rfl
    (max_le hpeak hn)
  refine ⟨peak, hle, ?_⟩
  rw [nested_run m hn, hrun]
  rfl

/-- Where the limit is reached no level is opened. -/
theorem nested_full (m : Attempts α) : MirrorsAttempt maxNesting (Metered.nested m) tooDeep := by
  intro s hs hpeak
  refine ⟨s.peak, hpeak, ?_⟩
  unfold Metered.nested
  show StateT.run (if maxNesting ≤ s.nesting then _ else _) s = _
  rw [if_pos hs.ge, ← hs]
  rfl

end MirrorsAttempt

/-! ### Expressions -/

/-- The levels further in mirror each other. -/
structure MirrorsLevel (n : Nat) (d : Descent) (inner : Level) : Prop where
  conditional : MirrorsAttempt n (nested d.conditional) inner.conditional
  unary : MirrorsAttempt n (nested d.unary) inner.unary

section Rules

variable {d : Descent} {inner : Level}

theorem MirrorsLevel.expression (h : MirrorsLevel n d inner) :
    MirrorsAttempt n d.expression inner.expression :=
  h.conditional.bind fun e => .ite (fun _ => .bind (.throw _) fun _ => .pure e) fun _ => .pure e

theorem mirrors_commaList {item : Attempts (Tree Span)} {item' : Parse (Tree Span)}
    (h : MirrorsAttempt n item item') (close : Token) (rounds : Nat) :
    MirrorsAttempt n (commaList item close rounds) (Parse.commaList item' close rounds) := by
  induction rounds with
  | zero => exact .parse _
  | succ rounds ih =>
    refine .bind (.read _) fun found => ?_
    cases found with
    | some span => exact .pure _
    | none =>
      refine h.bind fun first => .bind (.read _) fun comma => ?_
      cases comma with
      | some _ => exact ih.bind fun more => .pure _
      | none => exact .bind (.parse _) fun span => .pure _

theorem mirrors_untilClose {item : Attempts (Tree Span)} {item' : Parse (Tree Span)}
    (h : MirrorsAttempt n item item') (close : Token) :
    MirrorsAttempt n (untilClose item close) (Parse.untilClose item' close) :=
  .bind (.read _) fun _ => mirrors_commaList h close _

theorem mirrors_argument (h : MirrorsLevel n d inner) :
    MirrorsAttempt n (argument d) (Parse.argument inner) := by
  refine h.expression.bind fun key => .bind (.read _) fun colon => ?_
  cases colon with
  | none => exact .pure key
  | some _ =>
    have hvalue := h.expression.bind fun value =>
      .pure (Tree.keyword (key.note.join value.note) key value)
    exact .ite (fun _ => .bind (.throw _) fun _ => hvalue) fun _ => hvalue

theorem mirrors_arguments (h : MirrorsLevel n d inner) :
    MirrorsAttempt n (arguments d) (Parse.arguments inner) :=
  .bind (.parse _) fun _ => (mirrors_untilClose (mirrors_argument h) _).bind fun _ => .pure _

theorem mirrors_entry (h : MirrorsLevel n d inner) :
    MirrorsAttempt n (entry d) (Parse.entry inner) :=
  h.expression.bind fun _ => .bind (.discard (.parse _)) fun _ =>
    h.expression.bind fun _ => .pure _

theorem mirrors_startedBy (h : MirrorsLevel n d inner) (l : Lexeme) :
    MirrorsAttempt n (startedBy d l) (Parse.startedBy inner l) := by
  obtain ⟨token, span, raw⟩ := l
  cases token with
  | integer | boolean | string => exact .pure _
  | name name =>
    refine .bind (.read _) fun next => .ite (fun _ => ?_) fun _ => .pure _
    exact (mirrors_arguments h).bind fun _ => .pure _
  | lparen => exact h.expression.bind fun _ => .bind (.discard (.parse _)) fun _ => .pure _
  | lbracket => exact (mirrors_untilClose h.expression _).bind fun _ => .pure _
  | lbrace => exact (mirrors_untilClose (mirrors_entry h) _).bind fun _ => .pure _
  | _ => exact .throw _

theorem mirrors_primary (h : MirrorsLevel n d inner) :
    MirrorsAttempt n (primary d) (Parse.primary inner) := by
  refine .bind (.read _) fun next => ?_
  cases next with
  | none => exact .parse _
  | some l =>
    have hstarted := MirrorsAttempt.bind (n := n) (.discard (.read advance)) fun _ =>
      mirrors_startedBy h l
    exact .ite (fun _ => .bind (.parse _) fun _ => hstarted) fun _ => hstarted

theorem mirrors_method (h : MirrorsLevel n d inner) (object : Tree Span) (dot : Span) :
    MirrorsAttempt n (method d object dot) (Parse.method inner object dot) := by
  refine .bind (.read _) fun next => ?_
  rcases next with - | ⟨token, span, raw⟩
  · exact .bind (.read _) fun _ => .pure _
  cases token with
  | name name =>
    refine .bind (.discard (.read _)) fun _ => .bind (.read _) fun next' => ?_
    refine .ite (fun _ => ?_) fun _ => ?_
    · exact (mirrors_arguments h).bind fun _ => .pure _
    · exact .bind (.read _) fun _ => .bind (.read _) fun _ => .pure _
  | _ => exact .bind (.read _) fun _ => .pure _

theorem mirrors_suffixes (h : MirrorsLevel n d inner) (rounds : Nat) (object : Tree Span) :
    MirrorsAttempt n (suffixes d rounds object) (Parse.suffixes inner rounds object) := by
  induction rounds generalizing object with
  | zero => exact .pure object
  | succ rounds ih =>
    refine .bind (.read _) fun next => ?_
    rcases next with - | ⟨token, span, raw⟩
    · exact .pure object
    cases token with
    | dot => exact .bind (.discard (.read _)) fun _ => (mirrors_method h _ _).bind fun _ => ih _
    | lbracket =>
      exact .bind (.discard (.read _)) fun _ => h.expression.bind fun _ =>
        .bind (.parse _) fun _ => ih _
    | _ => exact .pure object

theorem mirrors_operand (h : MirrorsLevel n d inner) :
    MirrorsAttempt n (operand d) (Parse.operand inner) :=
  (mirrors_primary h).bind fun _ => .bind (.read _) fun _ => mirrors_suffixes h _ _

theorem mirrors_unary (h : MirrorsLevel n d inner) :
    MirrorsAttempt n (unary d) (Parse.unary inner) := by
  refine .bind (.read _) fun next => ?_
  cases next with
  | none => exact mirrors_operand h
  | some l =>
    dsimp only
    generalize unaryOp? l.token = op
    cases op with
    | none => exact mirrors_operand h
    | some op => exact .bind (.discard (.read _)) fun _ => h.unary.bind fun _ => .pure _

theorem mirrors_chain (op : Reading (Option BinaryOp)) {next : Attempts (Tree Span)}
    {next' : Parse (Tree Span)} (h : MirrorsAttempt n next next') (rounds : Nat)
    (left : Tree Span) :
    MirrorsAttempt n (chain op next rounds left) (Parse.chain op next' rounds left) := by
  induction rounds generalizing left with
  | zero => exact .pure left
  | succ rounds ih =>
    refine .bind (.read _) fun found => ?_
    cases found with
    | none => exact .pure left
    | some op' => exact h.bind fun _ => ih _

theorem MirrorsAttempt.leftGrouped {next : Attempts (Tree Span)} {next' : Parse (Tree Span)}
    (h : MirrorsAttempt n next next') (op : Reading (Option BinaryOp)) :
    MirrorsAttempt n (leftGrouped op next) (Parse.leftGrouped op next') :=
  h.bind fun _ => .bind (.read _) fun _ => mirrors_chain op h _ _

theorem mirrors_disjunction (h : MirrorsLevel n d inner) :
    MirrorsAttempt n (disjunction d) (Parse.disjunction inner) :=
  (((((mirrors_unary h).leftGrouped _).leftGrouped _).leftGrouped _).leftGrouped _).leftGrouped _

theorem mirrors_conditional (h : MirrorsLevel n d inner) :
    MirrorsAttempt n (conditional d) (Parse.conditional inner) := by
  refine (mirrors_disjunction h).bind fun condition => .bind (.read _) fun question => ?_
  cases question with
  | none => exact .pure condition
  | some _ =>
    exact h.conditional.bind fun _ => .bind (.discard (.parse _)) fun _ =>
      h.conditional.bind fun _ => .pure _

end Rules

/-- The levels that are left and the count of those that are open make up the limit. -/
theorem mirrors_level {n depth : Nat} (hn : n ≤ maxNesting) (hdepth : maxNesting - n ≤ depth) :
    MirrorsLevel n (descent depth) (level (maxNesting - n)) := by
  induction depth generalizing n with
  | zero =>
    obtain rfl : n = maxNesting := by omega
    rw [Nat.sub_self]
    exact ⟨.nested_full _, .nested_full _⟩
  | succ depth ih =>
    rcases Nat.eq_or_lt_of_le hn with rfl | hlt
    · rw [Nat.sub_self]
      exact ⟨.nested_full _, .nested_full _⟩
    · have hinner := ih (n := n + 1) hlt (by omega)
      rw [show maxNesting - n = maxNesting - (n + 1) + 1 by omega]
      exact ⟨.nested hlt (mirrors_conditional hinner), .nested hlt (mirrors_unary hinner)⟩

/-! ### Statements -/

section Rules

variable {d : Descent} {inner : Level}

theorem mirrors_orRecover {m : Attempts (Tree Span)} {p : Parse (Tree Span)}
    (h : MirrorsAttempt n m p) : Mirrors n (orRecover m) (Parse.orRecover p) := by
  refine .bind (.lift _) fun c => Mirrors.bind h fun result => ?_
  cases result with
  | ok t => exact .pure t
  | error e => exact .lift _

theorem mirrors_simpleStatement (h : MirrorsLevel n d inner) :
    MirrorsAttempt n (simpleStatement d) (Parse.simpleStatement inner) := by
  refine h.expression.bind fun target => .bind (.read _) fun next => ?_
  dsimp only
  generalize (next.bind fun l => AssignOp.ofToken? l.token) = op
  cases op with
  | none => exact .pure target
  | some op =>
    have hvalue := h.expression.bind fun value =>
      .pure (Tree.assignment (target.note.join value.note) target op value)
    refine .bind (.discard (.read _)) fun _ => ?_
    exact .ite (fun _ => .bind (.read _) fun _ => hvalue) fun _ => hvalue

theorem mirrors_moreBranches (h : MirrorsLevel n d inner) {block : Steps (List (Tree Span))}
    {block' : Reading (List (Tree Span))} (hblock : Mirrors n block block') (rounds : Nat)
    (seenElse : Bool) :
    Mirrors n (moreBranches d block rounds seenElse)
      (Parse.moreBranches inner block' rounds seenElse) := by
  induction rounds generalizing seenElse with
  | zero => exact .pure _
  | succ rounds ih =>
    refine .bind (.lift _) fun _ => .bind (.lift _) fun c => ?_
    dsimp only
    -- Both do the same at every next token, and the blocks they read are mirrored.
    generalize c.rest.head? = next
    rcases next with - | ⟨token, span, raw⟩
    · exact .bind (.lift _) fun _ => .bind (.lift _) fun _ => .pure _
    cases token with
    | kwElif =>
      have hbranch : Mirrors n _ _ := .bind (.discard (.lift advance)) fun _ =>
        (mirrors_orRecover h.expression).bind fun condition =>
          .bind (.lift finishHeader) fun _ => hblock.bind fun body =>
            (ih seenElse).bind fun more => .pure (condition :: more.1, body :: more.2)
      exact .ite (fun _ => .bind (.lift _) fun _ => hbranch) fun _ => hbranch
    | kwElse =>
      have hbranch : Mirrors n _ _ := .bind (.discard (.lift advance)) fun _ =>
        .bind (.lift finishHeader) fun _ => hblock.bind fun body =>
          (ih true).bind fun more => .pure (more.1, body :: more.2)
      exact .ite (fun _ => .bind (.lift _) fun _ => hbranch) fun _ => hbranch
    | kwEndif => exact .bind (.discard (.lift _)) fun _ => .pure _
    | _ => exact .bind (.lift _) fun _ => .bind (.lift _) fun _ => .pure _

theorem mirrors_selection (h : MirrorsLevel n d inner) {block : Steps (List (Tree Span))}
    {block' : Reading (List (Tree Span))} (hblock : Mirrors n block block') :
    Mirrors n (selection d block) (Parse.selection inner block') :=
  .bind (.lift _) fun _ => .bind (.discard (.lift _)) fun _ =>
    (mirrors_orRecover h.expression).bind fun _ => .bind (.lift _) fun _ => hblock.bind fun _ =>
      .bind (.lift _) fun _ => (mirrors_moreBranches h hblock _ _).bind fun _ =>
        .bind (.lift _) fun _ => .pure _

theorem mirrors_loopHeader (h : MirrorsLevel n d inner) :
    MirrorsAttempt n (loopHeader d) (Parse.loopHeader inner) := by
  refine .bind (.read _) fun _ => .bind (.parse _) fun names => ?_
  have hrest : MirrorsAttempt n _ _ := .bind (.discard (.parse (expect .colon))) fun _ =>
    h.expression.bind fun iterable => .pure (names, iterable)
  exact .ite (fun _ => .bind (.read _) fun _ => .bind (.throw _) fun _ => hrest) fun _ => hrest

theorem mirrors_headerOrRecover (h : MirrorsLevel n d inner) :
    Mirrors n (headerOrRecover d) (Parse.headerOrRecover inner) := by
  refine .bind (.lift _) fun _ => Mirrors.bind (mirrors_loopHeader h) fun result => ?_
  cases result with
  | ok header => exact .pure header
  | error e => exact .bind (.lift _) fun _ => .pure _

theorem mirrors_iteration (h : MirrorsLevel n d inner) {block : Steps (List (Tree Span))}
    {block' : Reading (List (Tree Span))} (hblock : Mirrors n block block') :
    Mirrors n (iteration d block) (Parse.iteration inner block') :=
  .bind (.lift _) fun _ => .bind (.discard (.lift _)) fun _ =>
    (mirrors_headerOrRecover h).bind fun _ => .bind (.lift _) fun _ => hblock.bind fun _ =>
      .bind (.lift _) fun _ => .bind (.lift _) fun _ => .pure _

theorem mirrors_blockRounds {one : Attempts (Tree Span)} {one' : Parse (Tree Span)}
    (h : MirrorsAttempt n one one') (top : Bool) (rounds : Nat) :
    Mirrors n (blockRounds one top rounds) (Parse.blockRounds one' top rounds) := by
  induction rounds with
  | zero => exact .pure []
  | succ rounds ih =>
    refine .bind (.lift _) fun _ => .bind (.lift _) fun c => ?_
    generalize c.rest = rest
    cases rest with
    | nil => exact .pure []
    | cons l ls =>
      refine .ite (fun _ => .bind (.lift _) fun _ => ih) fun _ => .ite (fun _ => ?_) fun _ => ?_
      · exact .ite (fun _ => .bind (.lift _) fun _ => ih.bind fun _ => .pure _) fun _ => .pure []
      · refine Mirrors.bind h fun result => ?_
        cases result with
        | ok t => exact .bind (.lift _) fun _ => ih.bind fun _ => .pure _
        | error e => exact .bind (.lift _) fun _ => ih.bind fun _ => .pure _

theorem mirrors_block {one : Attempts (Tree Span)} {one' : Parse (Tree Span)}
    (h : MirrorsAttempt n one one') (top : Bool) :
    Mirrors n (block one top) (Parse.block one' top) :=
  .bind (.lift _) fun _ => mirrors_blockRounds h top _

end Rules

/-- Where the limit is reached no block is opened. -/
theorem mirrors_statement_full (depth : Nat) :
    MirrorsAttempt maxNesting (statement depth) (Parse.statement 0) := by
  have hlevel : MirrorsLevel maxNesting (descent depth) (level 0) :=
    ⟨.nested_full _, .nested_full _⟩
  unfold statement Parse.statement
  refine .bind (.read _) fun next => ?_
  generalize next.map Lexeme.token = token
  rcases token with - | token
  · exact mirrors_simpleStatement hlevel
  cases token with
  | kwIf | kwForeach => exact .nested_full _
  | kwBreak | kwContinue =>
    exact .bind (.read _) fun _ => .bind (.discard (.read _)) fun _ => .pure _
  | _ => exact mirrors_simpleStatement hlevel

/-- A block is one level further in. -/
theorem mirrors_statement_succ {depth room : Nat} (hn : n < maxNesting)
    (hlevel : MirrorsLevel n (descent (depth + 1)) (level (room + 1)))
    (hinner : MirrorsLevel (n + 1) (descent depth) (level room))
    (hone : MirrorsAttempt (n + 1) (statement depth) (Parse.statement room)) :
    MirrorsAttempt n (statement (depth + 1)) (Parse.statement (room + 1)) := by
  have hblock := mirrors_block hone false
  unfold statement Parse.statement
  refine .bind (.read _) fun next => ?_
  generalize next.map Lexeme.token = token
  rcases token with - | token
  · exact mirrors_simpleStatement hlevel
  cases token with
  | kwIf => exact .nested hn (.steps (mirrors_selection hinner hblock))
  | kwForeach => exact .nested hn (.steps (mirrors_iteration hinner hblock))
  | kwBreak | kwContinue =>
    exact .bind (.read _) fun _ => .bind (.discard (.read _)) fun _ => .pure _
  | _ => exact mirrors_simpleStatement hlevel

theorem mirrors_statement {n depth : Nat} (hn : n ≤ maxNesting)
    (hdepth : maxNesting - n ≤ depth) :
    MirrorsAttempt n (statement depth) (Parse.statement (maxNesting - n)) := by
  -- With `n` levels open the plain parser has room for the others. The induction is on the rounds
  -- of the descent, of which there are at least as many.
  induction depth generalizing n with
  | zero =>
    obtain rfl : n = maxNesting := by omega
    rw [Nat.sub_self]
    exact mirrors_statement_full 0
  | succ depth ih =>
    rcases Nat.eq_or_lt_of_le hn with rfl | hlt
    · rw [Nat.sub_self]
      exact mirrors_statement_full _
    · have hroom : maxNesting - n = maxNesting - (n + 1) + 1 := by omega
      have hlevel := mirrors_level hn hdepth
      rw [hroom] at hlevel ⊢
      exact mirrors_statement_succ hlt hlevel (mirrors_level hlt (by omega)) (ih hlt (by omega))

/-! ### Whole texts -/

/-- What is said of a step that is entered somewhere: it gives what the plain one gives, the count
is as it was, and it was never above the limit. -/
theorem MirrorsAttempt.restores {m : Attempts α} {p : Parse α} {s : Meter}
    (h : MirrorsAttempt s.nesting m p) (hpeak : s.peak ≤ maxNesting) :
    ((m.run.run s).1, (m.run.run s).2.cursor) = p.on s.cursor ∧
      (m.run.run s).2.nesting = s.nesting ∧ (m.run.run s).2.peak ≤ maxNesting := by
  obtain ⟨peak, hle, hrun⟩ := h s rfl hpeak
  rw [hrun]
  exact ⟨rfl, rfl, hle⟩

end Metered

end MesonLens
