import MesonLens.Syntax.Statement

/-!
# `MesonLens.Proofs.Syntax.Cursor`: what the parser's steps do

The steps from which the grammar is built, as equations on cursors. `Parse.on` is what a step
that can fail does at a cursor; a step that cannot fail is run as it is.

* `Parse.on_bind`, `Parse.on_lift_bind`, `Parse.on_bind_ok`: steps in a row;
* `peek_run`, `advance_run_cons`, `eat_run_some`, `eat_run_none`: looking at the next token,
  and reading it;
* `moreBranches_run_elif`, `selection_run`, `iteration_run`: the parts of selections and loops
  in the order in which they are read;
* `blockRounds_run_statement`, `statement_on_simple`: one round of a block, and one statement, by
  the token that they start with.

Looking at a token passes the line ends before it while a bracket is open. To look once more
passes nothing (`Cursor.settle_settle`), so a token that was seen is the token that is read.
-/

set_option autoImplicit false

namespace MesonLens

namespace Cursor

theorem passLines_passLines (last last' : Option Lexeme) (ls : List Lexeme) :
    passLines last' (passLines last ls).2 = (last', (passLines last ls).2) := by
  induction ls generalizing last with
  | nil => rfl
  | cons l ls ih =>
    by_cases hl : l.token = .newline
    · simp only [passLines, hl, if_true]
      exact ih (some l)
    · simp [passLines, hl]

/-- The lines that are passed do not depend on what was passed before. -/
theorem passLines_snd (last last' : Option Lexeme) (ls : List Lexeme) :
    (passLines last ls).2 = (passLines last' ls).2 := by
  cases ls with
  | nil => rfl
  | cons l ls =>
    by_cases hl : l.token = .newline
    · simp only [passLines, hl, if_true]
    · simp [passLines, hl]

theorem settle_depth (c : Cursor) : c.settle.depth = c.depth := by
  unfold settle
  split <;> rfl

theorem settle_errors (c : Cursor) : c.settle.errors = c.errors := by
  unfold settle
  split <;> rfl

/-- To look once more passes nothing. -/
theorem settle_settle (c : Cursor) : c.settle.settle = c.settle := by
  by_cases h : c.depth = 0
  · simp [settle, h]
  · simp only [settle, h, if_false, passLines_passLines]

/-- Where a recovery starts to skip the line. With as many lexemes ahead as at the start of the
statement nothing was read, so a token is passed. -/
def unstuck (c : Cursor) (ahead : Nat) : Cursor :=
  if c.rest.length = ahead ∧ !c.isAt .newline then c.pass else c

end Cursor

namespace Parse

variable {α β : Type}

/-- What a step does at a cursor. -/
abbrev on (m : Parse α) (c : Cursor) : Except SyntaxError α × Cursor := (ExceptT.run m).run c

theorem on_bind (m : Parse α) (f : α → Parse β) (c : Cursor) :
    (m >>= f).on c = match m.on c with
      | (.ok a, c') => (f a).on c'
      | (.error e, c') => (.error e, c') := by
  unfold on
  rw [ExceptT.run_bind, StateT.run_bind]
  rcases (ExceptT.run m).run c with ⟨_ | a, c'⟩
  · rfl
  · rfl

/-- Steps in a row succeed when each of them does. -/
theorem on_bind_ok {m : Parse α} {f : α → Parse β} {c c' : Cursor} {b : β}
    (h : (m >>= f).on c = (.ok b, c')) :
    ∃ a mid, m.on c = (.ok a, mid) ∧ (f a).on mid = (.ok b, c') := by
  rw [on_bind] at h
  rcases hm : m.on c with ⟨_ | a, mid⟩
  · rw [hm] at h
    cases Prod.ext_iff.mp h |>.1
  · rw [hm] at h
    exact ⟨a, mid, rfl, h⟩

/-- A step that succeeds gives its result to the next one. -/
theorem on_bind_of_ok {m : Parse α} {f : α → Parse β} {c mid : Cursor} {a : α}
    (h : m.on c = (.ok a, mid)) : (m >>= f).on c = (f a).on mid := by
  rw [on_bind, h]

theorem on_lift_bind (m : Reading α) (f : α → Parse β) (c : Cursor) :
    (liftM m >>= f).on c = (f (m.run c).1).on (m.run c).2 := rfl

theorem on_get_bind (f : Cursor → Parse β) (c : Cursor) : (get >>= f).on c = (f c).on c := rfl

theorem on_discard_bind (m : Reading α) (f : Unit → Parse β) (c : Cursor) :
    (discard (liftM m : Parse α) >>= f).on c = (f ()).on (m.run c).2 := rfl

theorem on_pure (a : α) (c : Cursor) : (pure a : Parse α).on c = (.ok a, c) := rfl

theorem run_bind (m : Reading α) (f : α → Reading β) (c : Cursor) :
    (m >>= f).run c = (f (m.run c).1).run (m.run c).2 := rfl

theorem run_get_bind (f : Cursor → Reading β) (c : Cursor) :
    (get >>= f).run c = (f c).run c := rfl

/-! ### The next token -/

theorem peek_run (c : Cursor) : peek.run c = (c.settle.rest.head?, c.settle) := rfl

/-- The cursor after the token that it stands at. -/
def after (c : Cursor) (l : Lexeme) (ls : List Lexeme) : Cursor :=
  { c.settle with last := some l, rest := ls, depth := Cursor.depthAfter c.depth l.token }

theorem advance_run_cons {c : Cursor} {l : Lexeme} {ls : List Lexeme}
    (h : c.settle.rest = l :: ls) : advance.run c = (some l, after c l ls) := by
  have hpeek : peek.run c = (some l, c.settle) := by rw [peek_run, h]; rfl
  unfold advance
  rw [run_bind, hpeek]
  change (some l, { c.settle.pass with depth := Cursor.depthAfter c.settle.depth l.token }) = _
  simp [Cursor.pass, h, after, c.settle_depth]

/-- At the end of the text nothing is read. -/
theorem advance_run_nil {c : Cursor} (h : c.settle.rest = []) :
    advance.run c = (none, c.settle) := by
  have hpeek : peek.run c = (none, c.settle) := by rw [peek_run, h]; rfl
  unfold advance
  rw [run_bind, hpeek]
  rfl

theorem settle_rest_settle {c : Cursor} {ls : List Lexeme} (h : c.settle.rest = ls) :
    c.settle.settle.rest = ls := by
  rw [c.settle_settle, h]

theorem after_settle (c : Cursor) (l : Lexeme) (ls : List Lexeme) :
    after c.settle l ls = after c l ls := by
  simp [after, c.settle_settle, c.settle_depth]

theorem eat_run_some {t : Token} {c : Cursor} {l : Lexeme} {ls : List Lexeme}
    (h : c.settle.rest = l :: ls) (ht : l.token = t) :
    (eat t).run c = (some l.span, after c l ls) := by
  have hpeek : peek.run c = (some l, c.settle) := by rw [peek_run, h]; rfl
  unfold eat
  rw [run_bind, hpeek]
  simp only [ht, if_true]
  change (some l.span, (advance.run c.settle).2) = _
  rw [advance_run_cons (settle_rest_settle h), after_settle]

theorem eat_run_none {t : Token} {c : Cursor}
    (h : ∀ l ∈ c.settle.rest.head?, l.token ≠ t) : (eat t).run c = (none, c.settle) := by
  unfold eat
  rw [run_bind, peek_run]
  cases hrest : c.settle.rest.head? with
  | none => rfl
  | some l =>
    have hl : l.token ≠ t := h l hrest
    simp only [hl, if_false]
    rfl

/-- The token after the next one is the token that is seen after reading the next one. -/
theorem peekSecond_run {c : Cursor} {l : Lexeme} {ls : List Lexeme} (h : c.settle.rest = l :: ls)
    (hl : Cursor.depthAfter c.depth l.token = c.depth) :
    peekSecond.run c = ((after c l ls).settle.rest.head?.map Lexeme.token, c.settle) := by
  have hafter : (if c.depth = 0 then ls else (Cursor.passLines none ls).2) =
      (after c l ls).settle.rest := by
    simp only [Cursor.settle, after, hl]
    split
    · rfl
    · exact Cursor.passLines_snd _ _ _
  change ((if c.settle.depth = 0 then c.settle.rest.tail
    else (Cursor.passLines none c.settle.rest.tail).2).head?.map Lexeme.token, c.settle) = _
  rw [c.settle_depth, h, List.tail_cons, hafter]

/-- What a recovery gives and where it leads. -/
theorem recover_eq (start : List Lexeme) (e : SyntaxError) (c : Cursor) :
    let skipped := (c.unstuck start.length).skipLine
    let stop := { skipped with errors := skipped.errors ++ [e] }
    (recover start e).run c =
      (.malformed (if stop.rest.length < start.length then
        ((start.head?.map Lexeme.span).getD e.span).join stop.lastSpan else e.span) e.fault,
        stop) :=
  rfl

/-- A step whose failure is turned into a node. -/
theorem orRecover_run (p : Parse (Tree Span)) (c : Cursor) :
    (orRecover p).run c = match p.on c with
      | (.ok t, c') => (t, c')
      | (.error e, c') => (recover c.rest e).run c' := by
  unfold orRecover on
  rw [run_get_bind, run_bind]
  rcases (ExceptT.run p).run c with ⟨_ | t, c'⟩
  · rfl
  · rfl

/-- A line ends with its line end. -/
theorem finishLine_run_newline {c : Cursor} {l : Lexeme} {ls : List Lexeme}
    (hlast : c.last.any (·.token = .newline) = false) (hrest : c.rest = l :: ls)
    (hl : l.token = .newline) :
    finishLine.run c = ([], { c with depth := 0, last := some l, rest := ls }) := by
  simp [finishLine, closeBrackets, hlast, hrest, hl, Cursor.pass]
  rfl

/-- What stands before the line end becomes one node. -/
theorem finishLine_run_junk {c : Cursor} {l : Lexeme} {ls : List Lexeme}
    (hlast : c.last.any (·.token = .newline) = false) (hrest : c.rest = l :: ls)
    (hl : l.token ≠ .newline) :
    let found := (unexpected .endOfLine).run { c with depth := 0 }
    finishLine.run c = ([((recover (l :: ls) found.1).run found.2).1],
      ((recover (l :: ls) found.1).run found.2).2) := by
  simp [finishLine, closeBrackets, hlast, hrest, hl]
  rfl

/-- A line ends with its line end. Otherwise there is an error, unless the line end was passed
already or the text is at its end. -/
theorem finishLine_cases (c : Cursor) :
    finishLine.run c = ([], { c with depth := 0 }) ∨
    (∃ l ls, c.rest = l :: ls ∧ l.token = .newline ∧
      finishLine.run c = ([], { c with depth := 0, last := some l, rest := ls })) ∨
    ∃ l ls, c.rest = l :: ls ∧ l.token ≠ .newline ∧
      let found := (unexpected .endOfLine).run { c with depth := 0 }
      finishLine.run c = ([((recover (l :: ls) found.1).run found.2).1],
        ((recover (l :: ls) found.1).run found.2).2) := by
  -- A line end that was passed already is what the cursor has passed last.
  cases hlast : c.last.any (·.token = .newline) with
  | true =>
    left
    simp [finishLine, closeBrackets, hlast]
    rfl
  | false =>
    cases hrest : c.rest with
    | nil =>
      left
      simp [finishLine, closeBrackets, hlast, hrest]
      rfl
    | cons l ls =>
      by_cases hl : l.token = .newline
      · exact .inr (.inl ⟨l, ls, rfl, hl, finishLine_run_newline hlast hrest hl⟩)
      · refine .inr (.inr ⟨l, ls, rfl, hl, ?_⟩)
        have hjunk := finishLine_run_junk hlast hrest hl
        rwa [hrest] at hjunk

/-! ### Selections -/

/-- The cursor at a keyword that starts a branch: one after `else` is reported. -/
def atBranch (seenElse : Bool) (fault : Fault) (span : Span) (c : Cursor) : Cursor :=
  if seenElse then ((report fault span).run { c with depth := 0 }).2 else { c with depth := 0 }

/-- What stands where a branch may start. -/
theorem branch_cases (c : Cursor) :
    (∃ span raw, c.rest.head? = some ⟨.kwElif, span, raw⟩) ∨
    (∃ span raw, c.rest.head? = some ⟨.kwElse, span, raw⟩) ∨
    (∃ span raw, c.rest.head? = some ⟨.kwEndif, span, raw⟩) ∨
    ∀ l ∈ c.rest.head?, l.token ≠ .kwElif ∧ l.token ≠ .kwElse ∧ l.token ≠ .kwEndif := by
  cases c.rest.head? with
  | none => exact .inr (.inr (.inr nofun))
  | some l =>
    obtain ⟨token, span, raw⟩ := l
    cases token with
    | kwElif => exact .inl ⟨span, raw, rfl⟩
    | kwElse => exact .inr (.inl ⟨span, raw, rfl⟩)
    | kwEndif => exact .inr (.inr (.inl ⟨span, raw, rfl⟩))
    | _ =>
      refine .inr (.inr (.inr ?_))
      rintro _ ⟨⟩
      exact ⟨nofun, nofun, nofun⟩

section MoreBranches

variable {inner : Level} {block : Reading (List (Tree Span))} {rounds : Nat} {seenElse : Bool}
  {c : Cursor} {span : Span} {raw : String}

theorem moreBranches_run_elif (hhead : c.rest.head? = some ⟨.kwElif, span, raw⟩) :
    (moreBranches inner block (rounds + 1) seenElse).run c =
      let mid := atBranch seenElse .elifAfterElse span c
      let condition := (orRecover inner.expression).run (advance.run mid).2
      let body := block.run (finishHeader.run condition.2).2
      let rest := (moreBranches inner block rounds seenElse).run body.2
      ((condition.1 :: rest.1.1, body.1 :: rest.1.2), rest.2) := by
  have hget : ((get : Reading Cursor).run (closeBrackets.run c).2).1.rest.head? =
      some ⟨.kwElif, span, raw⟩ := hhead
  conv => lhs; unfold moreBranches
  rw [run_bind, run_bind, hget]
  cases seenElse with
  | true => rfl
  | false => rfl

theorem moreBranches_run_else (hhead : c.rest.head? = some ⟨.kwElse, span, raw⟩) :
    (moreBranches inner block (rounds + 1) seenElse).run c =
      let mid := atBranch seenElse .repeatedElse span c
      let body := block.run (finishHeader.run (advance.run mid).2).2
      let rest := (moreBranches inner block rounds true).run body.2
      ((rest.1.1, body.1 :: rest.1.2), rest.2) := by
  have hget : ((get : Reading Cursor).run (closeBrackets.run c).2).1.rest.head? =
      some ⟨.kwElse, span, raw⟩ := hhead
  conv => lhs; unfold moreBranches
  rw [run_bind, run_bind, hget]
  cases seenElse with
  | true => rfl
  | false => rfl

theorem moreBranches_run_endif (hhead : c.rest.head? = some ⟨.kwEndif, span, raw⟩) :
    (moreBranches inner block (rounds + 1) seenElse).run c =
      (([], []), (advance.run { c with depth := 0 }).2) := by
  have hget : ((get : Reading Cursor).run (closeBrackets.run c).2).1.rest.head? =
      some ⟨.kwEndif, span, raw⟩ := hhead
  unfold moreBranches
  rw [run_bind, run_bind, hget]
  rfl

/-- Anything else in the place of a branch is an error. -/
theorem moreBranches_run_other (inner : Level) (block : Reading (List (Tree Span)))
    (rounds : Nat) (seenElse : Bool)
    (hhead : ∀ l ∈ c.rest.head?, l.token ≠ .kwElif ∧ l.token ≠ .kwElse ∧ l.token ≠ .kwEndif) :
    let error := (unexpected (.token .kwEndif)).run { c with depth := 0 }
    (moreBranches inner block (rounds + 1) seenElse).run c =
      (([], []), ((report error.1.fault error.1.span).run error.2).2) := by
  unfold moreBranches
  rw [run_bind, run_bind]
  split
  · next h => exact absurd rfl (hhead _ h).1
  · next h => exact absurd rfl (hhead _ h).2.1
  · next h => exact absurd rfl (hhead _ h).2.2
  · rfl

/-- The parts of a selection in the order in which they are read. -/
theorem selection_run (inner : Level) (block : Reading (List (Tree Span))) (c : Cursor) :
    let condition := (orRecover inner.expression).run (advance.run c.settle).2
    let body := block.run (finishHeader.run condition.2).2
    let rest := (moreBranches inner block (body.2.rest.length + 1) false).run body.2
    ∃ span, (selection inner block).run c =
      (.selection span (Branches.ofLists (condition.1 :: rest.1.1) (body.1 :: rest.1.2)),
        rest.2) :=
  ⟨_, rfl⟩

end MoreBranches

/-! ### Loops -/

theorem headerOrRecover_run (inner : Level) (c : Cursor) :
    (headerOrRecover inner).run c =
      match (loopHeader inner).on c with
      | (.ok header, c') => (header, c')
      | (.error e, c') => (([], ((recover c.rest e).run c').1), ((recover c.rest e).run c').2) := by
  unfold headerOrRecover on
  rw [run_get_bind, run_bind]
  rcases (ExceptT.run (loopHeader inner)).run c with ⟨_ | header, c'⟩
  · rfl
  · rfl

/-- The parts of a loop in the order in which they are read. -/
theorem iteration_run (inner : Level) (block : Reading (List (Tree Span))) (c : Cursor) :
    let header := (headerOrRecover inner).run (advance.run c.settle).2
    let body := block.run (finishHeader.run header.2).2
    ∃ span, (iteration inner block).run c =
      (.iteration span header.1.1 header.1.2 body.1, (closeLoop.run body.2).2) :=
  ⟨_, rfl⟩

/-- The word that closes a loop is read. -/
theorem closeLoop_run {c : Cursor} {l : Lexeme} (hhead : c.rest.head? = some l)
    (hl : l.token = .kwEndforeach) :
    closeLoop.run c = ((), (advance.run { c with depth := 0 }).2) := by
  have hat : ({ c with depth := 0 } : Cursor).isAt .kwEndforeach = true := by
    simp [Cursor.isAt, hhead, hl]
  unfold closeLoop
  rw [run_bind, run_bind]
  change StateT.run (if ({ c with depth := 0 } : Cursor).isAt .kwEndforeach then _ else _) _ = _
  rw [if_pos hat]
  rfl

/-- Anything else in the place of the closing word is an error. -/
theorem closeLoop_run_other {c : Cursor} (hhead : ∀ l ∈ c.rest.head?, l.token ≠ .kwEndforeach) :
    ∃ fault span mid, closeLoop.run c = ((), ((report fault span).run mid).2) := by
  have hat : ¬ ({ c with depth := 0 } : Cursor).isAt .kwEndforeach = true := by
    simpa [Cursor.isAt, Option.any_eq_true] using hhead
  let error := (unexpected (.token .kwEndforeach)).run (closeBrackets.run c).2
  refine ⟨error.1.fault, error.1.span, error.2, ?_⟩
  unfold closeLoop
  rw [run_bind, run_bind]
  change StateT.run (if ({ c with depth := 0 } : Cursor).isAt .kwEndforeach then _ else _) _ = _
  rw [if_neg hat]
  rfl

/-! ### Blocks -/

section Block

variable {one : Parse (Tree Span)} {top : Bool} {rounds : Nat} {c : Cursor} {l : Lexeme}
  {ls : List Lexeme}

theorem blockRounds_run_nil (hrest : c.rest = []) :
    (blockRounds one top (rounds + 1)).run c = ([], { c with depth := 0 }) := by
  cases c
  cases hrest
  rfl

/-- A line end between statements is passed. -/
theorem blockRounds_run_newline (hrest : c.rest = l :: ls) (hl : l.token = .newline) :
    (blockRounds one top (rounds + 1)).run c =
      (blockRounds one top rounds).run { c with depth := 0, last := some l, rest := ls } := by
  cases c
  cases hrest
  conv => lhs; unfold blockRounds
  rw [run_bind, run_bind]
  change StateT.run (if l.token = .newline then _ else _) _ = _
  rw [if_pos hl]
  rfl

theorem ne_newline_of_closesBlock {t : Token} (h : t.closesBlock = true) : t ≠ .newline := by
  rintro rfl
  cases h

/-- A block ends at the word that closes it. -/
theorem blockRounds_run_closes (hrest : c.rest = l :: ls) (hl : l.token.closesBlock = true) :
    (blockRounds one false (rounds + 1)).run c = ([], { c with depth := 0 }) := by
  cases c
  cases hrest
  unfold blockRounds
  rw [run_bind, run_bind]
  change StateT.run (if l.token = .newline then _ else if l.token.closesBlock then _ else _) _ = _
  rw [if_neg (ne_newline_of_closesBlock hl), if_pos hl]
  rfl

/-- A closing word that closes nothing is an error. -/
theorem blockRounds_run_stray (hrest : c.rest = l :: ls) (hl : l.token.closesBlock = true) :
    (blockRounds one true (rounds + 1)).run c =
      let node := (recover (l :: ls) ⟨.unexpected l.token, l.span⟩).run { c with depth := 0 }
      let rest := (blockRounds one true rounds).run node.2
      (node.1 :: rest.1, rest.2) := by
  cases c
  cases hrest
  conv => lhs; unfold blockRounds
  rw [run_bind, run_bind]
  change StateT.run (if l.token = .newline then _ else if l.token.closesBlock then _ else _) _ = _
  rw [if_neg (ne_newline_of_closesBlock hl), if_pos hl]
  rfl

/-- Anything else is a statement with the end of its line, or an error. -/
theorem blockRounds_run_statement (hrest : c.rest = l :: ls) (hline : l.token ≠ .newline)
    (hl : l.token.closesBlock = false) :
    (blockRounds one top (rounds + 1)).run c =
      match one.on { c with depth := 0 } with
      | (.ok t, c') =>
        let junk := finishLine.run c'
        let rest := (blockRounds one top rounds).run junk.2
        (t :: (junk.1 ++ rest.1), rest.2)
      | (.error e, c') =>
        let node := (recover (l :: ls) e).run c'
        let rest := (blockRounds one top rounds).run node.2
        (node.1 :: rest.1, rest.2) := by
  have hclose : closeBrackets.run c = ((), { c with depth := 0 }) := rfl
  conv => lhs; unfold blockRounds
  rw [run_bind, hclose, run_get_bind]
  dsimp only
  rw [hrest]
  dsimp only
  rw [if_neg hline, if_neg (by simp [hl]), run_bind]
  unfold on
  rcases (ExceptT.run one).run { c with depth := 0, rest := l :: ls } with ⟨_ | t, c'⟩
  · rfl
  · rfl

end Block

/-! ### Statements -/

section Statement

variable {room : Nat} {c : Cursor} {l : Lexeme}

theorem statement_on_selection (hhead : c.settle.rest.head? = some l) (hl : l.token = .kwIf) :
    (statement (room + 1)).on c =
      let r := (selection (level room) (block (statement room) false)).run c.settle
      (.ok r.1, r.2) := by
  conv => lhs; unfold statement
  rw [on_lift_bind, peek_run, hhead, Option.map_some, hl]
  rfl

theorem statement_on_iteration (hhead : c.settle.rest.head? = some l)
    (hl : l.token = .kwForeach) :
    (statement (room + 1)).on c =
      let r := (iteration (level room) (block (statement room) false)).run c.settle
      (.ok r.1, r.2) := by
  conv => lhs; unfold statement
  rw [on_lift_bind, peek_run, hhead, Option.map_some, hl]
  rfl

/-- With no level of nesting left there is no room for a block. -/
theorem statement_on_zero (hhead : c.settle.rest.head? = some l)
    (hl : l.token = .kwIf ∨ l.token = .kwForeach) :
    (statement 0).on c = tooDeep.on c.settle := by
  unfold statement
  rcases hl with hl | hl
  · rw [on_lift_bind, peek_run, hhead, Option.map_some, hl]
  · rw [on_lift_bind, peek_run, hhead, Option.map_some, hl]

theorem here_run_settle (hhead : c.settle.rest.head? = some l) :
    (here.run c.settle).1 = l.span := by
  show (c.settle.settle.rest.head?.map Lexeme.span).getD _ = _
  rw [c.settle_settle, hhead]
  rfl

theorem statement_on_break (room : Nat) (hhead : c.settle.rest.head? = some l)
    (hl : l.token = .kwBreak) :
    (statement room).on c = (.ok (.breakLoop l.span), (advance.run c.settle).2) := by
  unfold statement
  rw [on_lift_bind, peek_run, hhead, Option.map_some, hl]
  change (Except.ok (Tree.breakLoop (here.run c.settle).1), (advance.run c.settle.settle).2) = _
  rw [c.settle_settle, here_run_settle hhead]

theorem statement_on_continue (room : Nat) (hhead : c.settle.rest.head? = some l)
    (hl : l.token = .kwContinue) :
    (statement room).on c = (.ok (.continueLoop l.span), (advance.run c.settle).2) := by
  unfold statement
  rw [on_lift_bind, peek_run, hhead, Option.map_some, hl]
  change (Except.ok (Tree.continueLoop (here.run c.settle).1), (advance.run c.settle.settle).2) = _
  rw [c.settle_settle, here_run_settle hhead]

/-- The words that a statement other than an expression or an assignment starts with. -/
def startsStatement : Token → Bool
  | .kwIf | .kwForeach | .kwBreak | .kwContinue => true
  | _ => false

theorem statement_on_simple
    (hhead : ∀ l ∈ c.settle.rest.head?, startsStatement l.token = false) :
    (statement room).on c = (simpleStatement (level room)).on c.settle := by
  unfold statement
  rw [on_lift_bind, peek_run]
  cases hrest : c.settle.rest.head? with
  | none => rfl
  | some l =>
    have hl := hhead l hrest
    rw [Option.map_some]
    cases htoken : l.token with
    | kwIf => rw [htoken] at hl; cases hl
    | kwForeach => rw [htoken] at hl; cases hl
    | kwBreak => rw [htoken] at hl; cases hl
    | kwContinue => rw [htoken] at hl; cases hl
    | _ => rfl

end Statement

end Parse

end MesonLens
