import MesonLens.Proofs.Syntax.Rows
import MesonLens.Proofs.Syntax.Recovery
import MesonLens.Proofs.Text.Edits

/-!
# `MesonLens.Proofs.Syntax.StatementRows`: statements and branches in the order of the text

A selection keeps its conditions in one list and its blocks in another one, and its parts pair the
two by their places in the lists. After an `else` there is a block without a condition, so a
condition that follows is paired with an earlier block. The parser notes an error at such an `elif`,
and errors are never taken back (`Cursor.Further`). So where no such error lies in a selection its
parts stand in the order of the text, and so do the parts of every other node.

* `Parse.Retains`: errors that were noted stay noted;
* `Parse.Ranks`: trees that stand in a row in the text that is passed;
* `Parse.finishLine_stops`, `Parse.line_lt_of_header`: a block after the first one starts on a later
  line than the selection, because a line end is passed after every condition;
* `Parse.RanksBranches`: the branches of a selection, round by round;
* `Parse.ranks_blockRounds`, `Parse.ranksLine_statement`: blocks, statement by statement, and
  statements, by induction on the number of blocks that may be open;
* `Parse.row_statements`: the statements of a file.
-/

set_option autoImplicit false

namespace MesonLens

namespace Cursor

/-- From the first cursor to the second some lexemes are passed, and no error is taken back. -/
structure Further (c c' : Cursor) : Prop where
  onward : Onward c c'
  errors : c.errors ⊆ c'.errors

/-- The cursor stands in a text, where a line end leads to the next line. -/
structure Sound (c : Cursor) : Prop where
  ordered : c.Ordered
  lines : ∀ l, (l ∈ c.rest ∨ c.last = some l) → l.token = .newline →
    l.span.start.line < l.span.stop.line

variable {a b c c' : Cursor} {l : Lexeme} {ls : List Lexeme}

theorem Further.refl (c : Cursor) : Further c c := ⟨.refl c, List.Subset.refl _⟩

theorem Further.trans (h : Further a b) (h' : Further b c) : Further a c :=
  ⟨h.onward.trans h'.onward, List.Subset.trans h.errors h'.errors⟩

theorem Further.sound (h : Further c c') (hc : c.Sound) : c'.Sound := by
  refine ⟨(h.onward.ordered hc.ordered).1, fun l hl hline => hc.lines l ?_ hline⟩
  obtain ⟨-, passed, hrest, hlast⟩ := h.onward
  rcases hl with hl | hl
  · exact .inl (hrest ▸ List.mem_append_right _ hl)
  · rw [hlast, Option.or_eq_some_iff] at hl
    rcases hl with hl | ⟨-, hl⟩
    · exact .inl (hrest ▸ List.mem_append_left _ (List.mem_of_getLast? hl))
    · exact .inr hl

theorem Further.ahead_le (h : Further c c') (hc : c.Sound) : c.ahead ≤ c'.ahead :=
  h.onward.ahead_le hc.ordered

theorem Further.front_le (h : Further c c') (hc : c.Sound) : c.front ≤ c'.front :=
  h.onward.front_le hc.ordered

theorem further_settle (c : Cursor) : Further c c.settle :=
  ⟨onward_settle c, by rw [c.settle_errors]; exact List.Subset.refl _⟩

theorem further_depth (c : Cursor) (depth : Nat) : Further c { c with depth } :=
  ⟨onward_depth c depth, List.Subset.refl _⟩

theorem Further.one {c c' : Cursor} (hrest : c.rest = l :: c'.rest) (hlast : c'.last = some l)
    (heof : c'.eof = c.eof) (herrors : c'.errors = c.errors) : Further c c' :=
  ⟨.one hrest hlast heof, herrors ▸ List.Subset.refl _⟩

/-- Behind a line end the next token stands on a later line. -/
theorem Sound.line_lt (hc : c.Sound) (hlast : c.last = some l) (hl : l.token = .newline)
    {p : Position} (hp : p ≤ l.span.start) : p.line < c.ahead.line := by
  have hfront : c.front = l.span.stop := congrArg Span.stop (lastSpan_of_last hlast)
  have hahead := Position.line_le_of_le (hfront ▸ hc.ordered.front_le_ahead)
  exact ((Position.line_le_of_le hp).trans_lt (hc.lines l (.inr hlast) hl)).trans_le hahead

end Cursor

namespace Tandem

/-- A reading side by side with itself, once some errors were noted. -/
def noted (errors : List SyntaxError) : Tandem where
  move := id
  extra := 0
  Meet c c' := c' = c ∧ errors ⊆ c.errors
  move_le := move_id_le
  length := by
    rintro _ c ⟨rfl, -⟩
    rfl
  head := by
    rintro _ c ⟨rfl, -⟩
    cases c.rest.head? <;> rfl
  eof := by
    rintro _ c ⟨rfl, -⟩ -
    rfl
  settle := by
    rintro _ c ⟨rfl, h⟩
    rw [c.settle_errors]
    exact ⟨rfl, h⟩
  read := by
    rintro _ c l ls ls' ⟨rfl, h⟩ hrest hrest' -
    rw [hrest] at hrest'
    cases hrest'
    exact ⟨rfl, c.settle_errors.symm ▸ h⟩
  noting := by
    rintro _ c e ⟨rfl, h⟩
    exact ⟨rfl, List.Subset.trans h (List.subset_append_left _ _)⟩

end Tandem

namespace Branches

variable {α : Type}

/-- Every condition has its place when there is a block for each. -/
theorem conditions_ofLists : ∀ (conditions : List (Tree α)) (bodies : List (List (Tree α))),
    conditions.length ≤ bodies.length → (ofLists conditions bodies).conditions = conditions
  | [], [], _ => rfl
  | [], _ :: _, _ => rfl
  | condition :: conditions, _ :: bodies, h =>
    congrArg (condition :: ·) (conditions_ofLists conditions bodies (Nat.le_of_succ_le_succ h))

theorem flatten_blocks_ofLists : ∀ (conditions : List (Tree α)) (bodies : List (List (Tree α))),
    conditions.length ≤ bodies.length → (ofLists conditions bodies).blocks.flatten = bodies.flatten
  | [], [], _ => rfl
  | [], _ :: _, _ => List.append_nil _
  | _ :: conditions, body :: bodies, h =>
    congrArg (body ++ ·) (flatten_blocks_ofLists conditions bodies (Nat.le_of_succ_le_succ h))

end Branches

namespace Parse

open Cursor MesonLens.Tree

variable {α β : Type} {c c' mid : Cursor} {l : Lexeme} {ls : List Lexeme}

/-! ### Errors stay noted -/

/-- The step takes no error back, whether it succeeds or fails. -/
def Retains (m : Parse α) : Prop := ∀ c, c.errors ⊆ (m.on c).2.errors

namespace Retains

theorem pure (a : α) : Retains (pure a) := fun c => List.Subset.refl c.errors

theorem throw (e : SyntaxError) : Retains (throw e : Parse α) := fun c => List.Subset.refl c.errors

theorem bind {m : Parse α} {f : α → Parse β} (hm : Retains m) (hf : ∀ a, Retains (f a)) :
    Retains (m >>= f) := by
  intro c
  have hm := hm c
  rw [on_bind]
  rcases hrun : m.on c with ⟨e | a, mid⟩
  · rw [hrun] at hm
    exact hm
  · rw [hrun] at hm
    exact List.Subset.trans hm (hf a mid)

theorem lift {m : Reading α} (h : ∀ c, Further c (m.run c).2) : Retains (liftM m) :=
  fun c => (h c).errors

theorem expression (room : Nat) : Retains (level room).expression := by
  intro c
  obtain ⟨-, hmeet, -⟩ := (Tandem.carries_level (T := .noted c.errors) room).expression c c
    ⟨rfl, List.Subset.refl _⟩
  exact hmeet.2

theorem simpleStatement (room : Nat) : Retains (simpleStatement (level room)) := by
  intro c
  obtain ⟨-, hmeet, -⟩ := Tandem.carries_simpleStatement
    (T := .noted c.errors) (Tandem.carries_level room) c c ⟨rfl, List.Subset.refl _⟩
  exact hmeet.2

theorem failWanting (wanted : Wanted) : Retains (failWanting wanted : Parse α) := by
  intro c
  rw [failWanting_on]
  exact (further_settle c).errors

end Retains

theorem further_after (hrest : c.settle.rest = l :: ls) : Further c (after c l ls) :=
  (further_settle c).trans (.one hrest rfl rfl rfl)

theorem further_advance (c : Cursor) : Further c (advance.run c).2 := by
  cases hrest : c.settle.rest with
  | nil =>
    rw [advance_run_nil hrest]
    exact further_settle c
  | cons l ls =>
    rw [advance_run_cons hrest]
    exact further_after hrest

theorem further_eat (t : Token) (c : Cursor) : Further c ((eat t).run c).2 := by
  obtain hrun | ⟨l, ls, hrest, -, hrun⟩ := eat_cases t c
  · rw [hrun]
    exact further_settle c
  · rw [hrun]
    exact further_after hrest

theorem further_report (fault : Fault) (span : Span) (c : Cursor) :
    Further c ((report fault span).run c).2 :=
  ⟨onward_report fault span c, List.subset_append_left _ _⟩

theorem further_unexpected (wanted : Wanted) (c : Cursor) :
    Further c ((unexpected wanted).run c).2 := by
  rw [unexpected_run]
  exact further_settle c

/-- What could not be read is skipped. -/
theorem further_recover (start : List Lexeme) (e : SyntaxError) (c : Cursor) :
    Further c ((recover start e).run c).2 := by
  have hunstuck : (c.unstuck start.length).errors = c.errors := by
    unfold unstuck Cursor.pass
    split
    · split <;> rfl
    · rfl
  have hskip : Onward (c.unstuck start.length) ((recover start e).run c).2 :=
    onward_skipLine (c.unstuck start.length)
  refine ⟨(onward_unstuck c _).trans hskip, ?_⟩
  show c.errors ⊆ (c.unstuck start.length).errors ++ [e]
  rw [hunstuck]
  exact List.subset_append_left _ _

theorem further_finishLine (c : Cursor) : Further c (finishLine.run c).2 := by
  obtain hrun | ⟨l, ls, hrest, -, hrun⟩ | ⟨l, ls, hrest, -, hrun⟩ := finishLine_cases c
  · rw [hrun]
    exact further_depth c 0
  · rw [hrun]
    exact .one hrest rfl rfl rfl
  · rw [hrun]
    exact ((further_depth c 0).trans (further_unexpected _ _)).trans (further_recover _ _ _)

theorem further_finishHeader (c : Cursor) : Further c (finishHeader.run c).2 := further_finishLine c

theorem further_closeLoop (c : Cursor) : Further c (closeLoop.run c).2 := by
  unfold closeLoop
  rw [run_bind, run_bind]
  split
  · exact (further_depth c 0).trans (further_advance _)
  · have hunexpected := further_unexpected (.token .kwEndforeach) { c with depth := 0 }
    exact (further_depth c 0).trans (hunexpected.trans (further_report ..))

theorem further_atBranch (seenElse : Bool) (fault : Fault) (span : Span) (c : Cursor) :
    Further c (atBranch seenElse fault span c) := by
  cases seenElse with
  | true => exact (further_depth c 0).trans (further_report fault span _)
  | false => exact further_depth c 0

theorem retains_loopVariables (rounds : Nat) : Retains (loopVariables rounds) := by
  induction rounds with
  | zero => exact .failWanting _
  | succ rounds ih =>
    refine .bind (.lift further_settle) fun next => ?_
    split
    · refine .bind (.lift fun c => further_advance c) fun _ => ?_
      refine .bind (.lift (further_eat .comma)) fun comma => ?_
      split
      · exact .bind ih fun _ => .pure _
      · exact .pure _
    · exact .failWanting _

theorem retains_loopHeader (room : Nat) : Retains (loopHeader (level room)) := by
  have hcolon : Retains (discard (expect .colon)) := by
    refine .bind (.bind (.lift (further_eat .colon)) fun found => ?_) fun _ => .pure _
    split
    · exact .pure _
    · exact .failWanting _
  have hget : Retains (get : Parse Cursor) := fun c => List.Subset.refl c.errors
  refine .bind hget fun _ => .bind (retains_loopVariables _) fun names => ?_
  split
  · exact .bind hget fun _ => .throw _
  · exact .bind hcolon fun _ => .bind (.expression room) fun _ => .pure _

/-! ### Rows of statements -/

/-- The trees that a step gives stand in a row in the text that it passes, and start before what was
passed last. -/
structure Ranks (c : Cursor) (r : List (Tree Span) × Cursor) : Prop where
  further : Further c r.2
  row : Row r.2.errors r.1 c.ahead r.2.ahead
  le_front : ∀ t ∈ r.1, t.note.start ≤ r.2.front

namespace Ranks

variable {ts us : List (Tree Span)} {r : List (Tree Span) × Cursor}

theorem nil (h : Further c c') (hc : c.Sound) : Ranks c ([], c') :=
  ⟨h, .nil (h.ahead_le hc), nofun⟩

theorem before (h : Ranks mid r) (hmid : Further c mid) (hc : c.Sound) : Ranks c r :=
  ⟨hmid.trans h.further, h.row.mono (hmid.ahead_le hc) (le_refl _), h.le_front⟩

theorem append (h : Ranks c (ts, mid)) (h' : Ranks mid (us, c')) (hc : c.Sound) :
    Ranks c (ts ++ us, c') := by
  refine ⟨h.further.trans h'.further,
    (h.row.errors_mono h'.further.errors).append h'.row (le_refl _), ?_⟩
  refine List.forall_mem_append.mpr ⟨fun t ht => ?_, h'.le_front⟩
  exact (h.le_front t ht).trans (h'.further.front_le (h.further.sound hc))

end Ranks

/-- Where a node covers some text, something was passed. -/
theorem rest_ne_of_placed {t : Tree Span} (hon : Onward c c') (ht : t.Placed c.front c'.front) :
    c'.rest ≠ c.rest := by
  intro hsame
  obtain ⟨-, hlast⟩ | ⟨before, l, hmore, -⟩ := hon.cases
  · have hfront : c'.front = c.front := by
      rw [front, lastSpan, hlast]
      rfl
    exact absurd (ht.lies.le_to.trans hfront.le) (ht.lies.from_le.trans_lt ht.lies.lt).not_ge
  · have hlength := congrArg List.length hmore
    rw [hsame, List.length_append, List.length_cons] at hlength
    omega

/-- Where something is passed, the node for what could not be read starts with it. Otherwise the
node stands at the error. -/
theorem start_recover {c₀ : Cursor} {e : SyntaxError} (hc : c₀.Ordered) (hon : Onward c₀ c)
    (hstuck : ((recover c₀.rest e).run c).2.rest = c₀.rest → e.span.start = c₀.ahead) :
    ((recover c₀.rest e).run c).1.note.start = c₀.ahead := by
  have hall : Onward c₀ ((recover c₀.rest e).run c).2 :=
    hon.trans (further_recover c₀.rest e c).onward
  generalize hr : (recover c₀.rest e).run c = r at hall hstuck
  have hnote : r.1.note = if r.2.rest.length < c₀.rest.length then
      ((c₀.rest.head?.map Lexeme.span).getD e.span).join r.2.lastSpan else e.span := by
    rw [← hr]
    rfl
  rw [hnote]
  obtain ⟨hrest, -⟩ | ⟨before, l, hrest, hlast⟩ := hall.cases
  · -- Nothing was passed.
    rw [hrest, if_neg (Nat.lt_irrefl _)]
    exact hstuck hrest
  · -- The node starts with the first lexeme that was passed, which was the next one.
    have horder := hc.rest
    rw [hrest] at horder
    obtain ⟨first, hfirst, -, -, hstart, -⟩ := horder.first
    rw [← hrest] at hfirst
    obtain ⟨ls, hls⟩ := List.head?_eq_some_iff.mp hfirst
    have hshorter : r.2.rest.length < c₀.rest.length := by
      rw [hrest, List.length_append, List.length_cons]
      omega
    rw [if_pos hshorter, hfirst, lastSpan_of_last hlast, ahead_of_rest hls]
    exact join_start hstart

/-- A statement that could not be read becomes one node in the row. -/
theorem ranks_recover {e : SyntaxError} (hc : c.Sound) (hon : Further c mid)
    (hrest : c.rest = l :: ls) (hl : l.token ≠ .newline) :
    Ranks c ([((recover (l :: ls) e).run mid).1], ((recover (l :: ls) e).run mid).2) := by
  obtain ⟨hall, hplaced⟩ := placed_recover_cons (e := e) hc.ordered hon.onward hrest hl
  have hfurther := hon.trans (further_recover (l :: ls) e mid)
  have hstart : ((recover (l :: ls) e).run mid).1.note.start = c.ahead := by
    rw [← hrest] at hall hplaced ⊢
    exact start_recover hc.ordered hon.onward fun hstuck =>
      absurd hstuck (rest_ne_of_placed hall hplaced)
  refine ⟨hfurther, ?_, List.forall_mem_singleton.mpr ?_⟩
  · exact row_leaf rfl nofun hstart.ge (hstart.le.trans (hfurther.ahead_le hc))
  · exact hplaced.lies.lt.le.trans hplaced.lies.le_to

theorem ranks_finishLine (hc : c.Sound) : Ranks c (finishLine.run c) := by
  obtain hrun | ⟨l, ls, hrest, -, hrun⟩ | ⟨l, ls, hrest, hl, hrun⟩ := finishLine_cases c
  · rw [hrun]
    exact .nil (further_depth c 0) hc
  · rw [hrun]
    exact .nil (.one hrest rfl rfl rfl) hc
  · rw [hrun]
    have hclosed := further_depth c 0
    exact (ranks_recover (hclosed.sound hc) (further_unexpected .endOfLine _) hrest hl).before
      hclosed hc

/-- After a line there is nothing, or a line end was passed last, or it comes next. -/
theorem finishLine_stops (c : Cursor) :
    let mid := (finishLine.run c).2
    mid.rest = [] ∨ (∃ l, mid.last = some l ∧ l.token = .newline) ∨
      ∃ l ls, mid.rest = l :: ls ∧ l.token = .newline := by
  intro mid
  cases hlast : c.last.any (·.token = .newline) with
  | true =>
    have hmid : finishLine.run c = ([], { c with depth := 0 }) := by
      simp [finishLine, closeBrackets, hlast]
      rfl
    obtain ⟨l, hl, hline⟩ := (Option.any_eq_true _ _).mp hlast
    refine .inr (.inl ⟨l, ?_, by simpa using hline⟩)
    rw [show mid = _ from congrArg Prod.snd hmid]
    exact hl
  | false =>
    cases hrest : c.rest with
    | nil =>
      have hmid : finishLine.run c = ([], { c with depth := 0 }) := by
        simp [finishLine, closeBrackets, hlast, hrest]
        rfl
      refine .inl ?_
      rw [show mid = _ from congrArg Prod.snd hmid]
      exact hrest
    | cons l ls =>
      by_cases hl : l.token = .newline
      · refine .inr (.inl ⟨l, ?_, hl⟩)
        rw [show mid = _ from congrArg Prod.snd (finishLine_run_newline hlast hrest hl)]
      · -- The rest of the line was skipped.
        let found := (unexpected .endOfLine).run { c with depth := 0 }
        have hmid : mid = ((recover (l :: ls) found.1).run found.2).2 :=
          congrArg Prod.snd (finishLine_run_junk hlast hrest hl)
        have hskip : mid.rest = (found.2.unstuck (l :: ls).length).skipLine.rest := by
          rw [hmid]
          rfl
        obtain ⟨-, -, -, -, hstop⟩ := skipLine_eq (found.2.unstuck (l :: ls).length)
        rw [← hskip] at hstop
        cases hend : mid.rest with
        | nil => exact .inl rfl
        | cons l' ls' => exact .inr (.inr ⟨l', ls', rfl, hstop l' (by rw [hend]; rfl)⟩)

/-- What is known of a block: its statements stand in a row, and a line end that comes first is
passed. -/
structure RanksBlock (block : Reading (List (Tree Span))) : Prop where
  ranks : ∀ c, c.Sound → Ranks c (block.run c)
  passes : ∀ c l ls, c.Sound → c.rest = l :: ls → l.token = .newline →
    Onward { c with last := some l, rest := ls } (block.run c).2

section Blocks

variable {block : Reading (List (Tree Span))}

/-- After a header and the block behind it the next token stands on a later line. -/
theorem line_lt_of_header (hblock : RanksBlock block) (hc : c.Sound) {p : Position}
    (hp : p ≤ c.lastSpan.start) :
    let body := block.run (finishHeader.run c).2
    body.2.rest = [] ∨ p.line < body.2.ahead.line := by
  intro body
  have hheader := further_finishHeader c
  have hmid := hheader.sound hc
  have hbody := (hblock.ranks _ hmid).further
  have hlines := Position.line_le_of_le (hbody.ahead_le hmid)
  have hpassed : p ≤ (finishHeader.run c).2.lastSpan.start :=
    hp.trans (hheader.onward.ordered hc.ordered).2.2
  obtain hrest | ⟨l, hlast, hl⟩ | ⟨l, ls, hrest, hl⟩ := finishLine_stops c
  · -- The text ends with the header.
    left
    obtain ⟨-, passed, hnone, -⟩ := hbody.onward
    have hempty : passed ++ body.2.rest = [] := hnone.symm.trans hrest
    exact (List.append_eq_nil_iff.mp hempty).2
  · -- The line end was passed last, so what comes next stands on another line.
    right
    have hlast : (finishHeader.run c).2.last = some l := hlast
    rw [lastSpan_of_last hlast] at hpassed
    exact (hmid.line_lt hlast hl hpassed).trans_le hlines
  · -- The line end comes next, and the block passes it first.
    right
    let next : Cursor := { (finishHeader.run c).2 with last := some l, rest := ls }
    have hnext : Further (finishHeader.run c).2 next := .one hrest rfl rfl rfl
    have hfront : p ≤ l.span.start := by
      have horder := hmid.ordered.rest
      rw [show (finishHeader.run c).2.rest = l :: ls from hrest] at horder
      exact (hpassed.trans hmid.ordered.last).trans horder.1
    have hahead := (hblock.passes _ l ls hmid hrest hl).ahead_le (hnext.sound hmid).ordered
    exact ((hnext.sound hmid).line_lt rfl hl hfront).trans_le (Position.line_le_of_le hahead)

/-! ### Headers -/

/-- A header stands in a row, also when it could not be read. -/
theorem row_headed {m : Parse α} {parts : α → List (Tree Span)} (hretains : Retains m)
    (hm : ∀ errors, Yields m c fun a c' => Row errors (parts a) c.ahead c'.ahead)
    (hstops : StopsAtLineEnd m) (hc : c.Sound) (hdepth : c.depth = 0) :
    let r := headed m parts c
    Further c r.2 ∧ Row r.2.errors r.1 c.ahead r.2.ahead := by
  intro r
  obtain ⟨hon, hresult⟩ := hm r.2.errors hc.ordered
  have hfurther : Further c (m.on c).2 := ⟨hon, hretains c⟩
  have hr : r = headed m parts c := rfl
  unfold headed at hr
  rcases hrun : m.on c with ⟨e | a, c'⟩
  · rw [hrun] at hr hfurther hon
    have hall := hfurther.trans (further_recover c.rest e c')
    have hstart : ((recover c.rest e).run c').1.note.start = c.ahead := by
      refine start_recover hc.ordered hon fun hstuck => ?_
      -- Nothing was passed, so the line is at its end, and the rule stopped there.
      obtain ⟨-, hplaced | ⟨hline, -⟩⟩ := placed_recover (e := e) hc.ordered hon
      · exact absurd hstuck (rest_ne_of_placed hall.onward hplaced)
      · obtain ⟨fault, hstop⟩ := hstops c ⟨hdepth, hline⟩
        rw [hstop] at hrun
        cases hrun
        rfl
    rw [hr]
    refine ⟨hall, row_leaf rfl nofun hstart.ge ?_⟩
    exact hstart.le.trans (hall.ahead_le hc)
  · rw [hrun] at hr hfurther hresult
    have hrow := hresult a rfl
    rw [hr] at hrow ⊢
    exact ⟨hfurther, hrow⟩

/-- A condition, the end of its line and the block after it, with what comes next. -/
theorem ranks_guarded (room : Nat) (hblock : RanksBlock block) (hc : c.Sound)
    (hdepth : c.depth = 0) :
    let condition := (orRecover (level room).expression).run c
    let mid := (finishHeader.run condition.2).2
    let body := block.run mid
    Further c mid ∧ Row mid.errors [condition.1] c.ahead mid.ahead ∧ Ranks mid body ∧
      (body.2.rest = [] ∨ c.lastSpan.start.line < body.2.ahead.line) := by
  intro condition mid body
  obtain ⟨hparts, hafter⟩ := orRecover_headed (level room).expression c
  obtain ⟨hhead, hrow⟩ := row_headed (.expression room) (fun errors =>
    (rows_level room).expression errors c) (stopsAtLineEnd_expression room) hc hdepth
  rw [← hparts, ← hafter] at hrow
  rw [← hafter] at hhead
  have hfinish := further_finishHeader condition.2
  have hmid := hfinish.sound (hhead.sound hc)
  refine ⟨hhead.trans hfinish, ?_, hblock.ranks mid hmid, ?_⟩
  · exact (hrow.errors_mono hfinish.errors).mono (le_refl _) (hfinish.ahead_le (hhead.sound hc))
  · exact line_lt_of_header hblock (hhead.sound hc) (hhead.onward.ordered hc.ordered).2.2

end Blocks

/-! ### Branches -/

/-- An `elif` after an `else` was found between two cursors. -/
def FindsLate (c c' : Cursor) : Prop := LateBranch c'.errors ⟨c.ahead, c'.front⟩

theorem FindsLate.mono (h : FindsLate mid c') (hmid : Further c mid) (hc : c.Sound) :
    FindsLate c c' := by
  obtain ⟨e, he, hfault, hstart, hstop⟩ := h
  exact ⟨e, he, hfault, (hmid.ahead_le hc).trans hstart, hstop⟩

theorem FindsLate.further (h : FindsLate c mid) (hmid : Further mid c') (hsound : mid.Sound) :
    FindsLate c c' := by
  obtain ⟨e, he, hfault, hstart, hstop⟩ := h
  exact ⟨e, hmid.errors he, hfault, hstart, hstop.trans (hmid.front_le hsound)⟩

/-- What is known of the branches from one on: the conditions stand in a row, the statements do,
and all of them do unless an `elif` comes after an `else`. -/
structure RanksBranches (seenElse : Bool) (c : Cursor)
    (r : (List (Tree Span) × List (List (Tree Span))) × Cursor) : Prop where
  further : Further c r.2
  stands : Tree.Stands r.2.errors (r.1.1 ++ r.1.2.flatten) c.ahead r.2.ahead
  conditions : r.1.1.Pairwise Precedes
  bodies : r.1.2.flatten.Pairwise Precedes
  le_front : ∀ t ∈ r.1.2.flatten, t.note.start ≤ r.2.front
  length_le : r.1.1.length ≤ r.1.2.length
  order : FindsLate c r.2 ∨ (Branches.ofLists r.1.1 r.1.2).children.Pairwise Precedes ∧
    (seenElse = true → r.1.1 = [])

namespace RanksBranches

variable {seenElse : Bool} {r : (List (Tree Span) × List (List (Tree Span))) × Cursor}
  {condition : Tree Span} {body : List (Tree Span)}

theorem nil (hc : c.Sound) (h : Further c c') : RanksBranches seenElse c (([], []), c') where
  further := h
  stands := .nil (h.ahead_le hc)
  conditions := .nil
  bodies := .nil
  le_front := nofun
  length_le := Nat.le_refl _
  order := .inr ⟨.nil, fun _ => rfl⟩

/-- The statements of one block before those of further blocks. -/
theorem body_before (hc : c.Sound) (hbody : Ranks c (body, mid))
    (h : RanksBranches seenElse mid r) : Ranks c ((body :: r.1.2).flatten, r.2) := by
  have hmore : Ranks mid (r.1.2.flatten, r.2) :=
    ⟨h.further, ⟨h.stands.subset (List.subset_append_right _ _), h.bodies⟩, h.le_front⟩
  exact hbody.append hmore hc

/-- A branch with a condition before further ones. One after an `else` was found to be late. -/
theorem arm {c₁ : Cursor} (hc : c.Sound) (hhead : Further c c₁)
    (hcondition : Row c₁.errors [condition] c.ahead c₁.ahead) (hbody : Ranks c₁ (body, mid))
    (h : RanksBranches seenElse mid r) (hlate : seenElse = true → FindsLate c c₁) :
    RanksBranches seenElse c ((condition :: r.1.1, body :: r.1.2), r.2) := by
  have hc₁ := hhead.sound hc
  have hbodies := body_before hc₁ hbody h
  have hguard := hcondition.errors_mono hbodies.further.errors
  have hrow := hguard.append (hbody.row.errors_mono h.further.errors) (le_refl _)
  have hstands := hrow.toStands.append h.stands (le_refl _)
  have hbefore := hrow.toStands.precedes h.stands (le_refl _)
  have hchildren : ∀ t ∈ (Branches.ofLists r.1.1 r.1.2).children, t ∈ r.1.1 ++ r.1.2.flatten :=
    fun t ht => (Branches.children_ofLists_perm _ _ h.length_le).mem_iff.mp ht
  refine ⟨hhead.trans hbodies.further, hstands.subset fun t ht => ?_, ?_, hbodies.row.order,
    hbodies.le_front, Nat.succ_le_succ h.length_le, ?_⟩
  · simp only [List.mem_append, List.mem_cons, List.flatten_cons] at ht ⊢
    tauto
  · refine List.pairwise_cons.mpr ⟨fun t ht => ?_, h.conditions⟩
    exact hbefore condition (by simp) t (List.mem_append_left _ ht)
  · -- A condition after `else` was noted as late. Any other one stands before all further branches.
    rcases h.order with hfound | ⟨horder, -⟩
    · exact .inl (hfound.mono (hhead.trans hbody.further) hc)
    cases seenElse with
    | true => exact .inl ((hlate rfl).further hbodies.further hc₁)
    | false =>
      refine .inr ⟨?_, nofun⟩
      show ([condition] ++ body ++ (Branches.ofLists r.1.1 r.1.2).children).Pairwise Precedes
      refine List.pairwise_append.mpr ⟨hrow.order, horder, fun a ha b hb => ?_⟩
      exact hbefore a ha b (hchildren b hb)

/-- A branch without a condition before further ones. -/
theorem otherwise {c₁ : Cursor} (hc : c.Sound) (hhead : Further c c₁)
    (hbody : Ranks c₁ (body, mid)) (h : RanksBranches true mid r) :
    RanksBranches seenElse c ((r.1.1, body :: r.1.2), r.2) := by
  have hc₁ := hhead.sound hc
  have hbodies := body_before hc₁ hbody h
  have hstands := (hbody.row.errors_mono h.further.errors).toStands.append h.stands (le_refl _)
  refine ⟨hhead.trans hbodies.further, (hstands.mono (hhead.ahead_le hc) (le_refl _)).subset
    fun t ht => ?_, h.conditions, hbodies.row.order, hbodies.le_front,
    Nat.le_succ_of_le h.length_le, ?_⟩
  · simp only [List.mem_append, List.flatten_cons] at ht ⊢
    tauto
  · rcases h.order with hfound | ⟨-, hnone⟩
    · exact .inl (hfound.mono (hhead.trans hbody.further) hc)
    · -- Without further conditions the blocks are one block, whose statements stand in a row.
      refine .inr ⟨?_, fun _ => hnone rfl⟩
      rw [hnone rfl]
      exact hbodies.row.order

end RanksBranches

section Blocks

variable {block : Reading (List (Tree Span))} (room : Nat)

theorem ranksBranches_moreBranches (hblock : RanksBlock block) (rounds : Nat) (seenElse : Bool)
    (c : Cursor) (hc : c.Sound) :
    RanksBranches seenElse c ((moreBranches (level room) block rounds seenElse).run c) := by
  induction rounds generalizing seenElse c with
  | zero => exact .nil hc (.refl c)
  | succ rounds ih =>
    obtain ⟨span, raw, hhead⟩ | ⟨span, raw, hhead⟩ | ⟨span, raw, hhead⟩ | hother := branch_cases c
    · obtain ⟨ls, hrest⟩ := List.head?_eq_some_iff.mp hhead
      rw [moreBranches_run_elif hhead]
      obtain ⟨hdepth, hsame, -⟩ := onward_atBranch seenElse .elifAfterElse span c
      have hbranch := further_atBranch seenElse .elifAfterElse span c
      have hbranched := hbranch.sound hc
      obtain ⟨-, hlast, hdepth', -⟩ := advance_word hdepth (hsame.trans hrest) rfl nofun
      have hadvance := further_advance (atBranch seenElse .elifAfterElse span c)
      have hadvanced := hadvance.sound hbranched
      have hword := hbranch.trans hadvance
      obtain ⟨hguard, hcondition, hbody, -⟩ := ranks_guarded room hblock hadvanced hdepth'
      refine .arm hc (hword.trans hguard) (hcondition.mono (hword.ahead_le hc) (le_refl _)) hbody
        (ih _ _ (hbody.further.sound (hguard.sound hadvanced))) fun hseen => ?_
      -- The error at the word is one of those that are noted from here on.
      subst hseen
      have hnoted : (⟨.elifAfterElse, span⟩ : SyntaxError) ∈
          (atBranch true .elifAfterElse span c).errors :=
        List.mem_append_right _ (List.mem_singleton_self _)
      have hfound : FindsLate c (advance.run (atBranch true .elifAfterElse span c)).2 :=
        ⟨_, hadvance.errors hnoted, rfl, (ahead_of_rest hrest).le,
          (congrArg Span.stop (lastSpan_of_last hlast)).ge⟩
      exact hfound.further hguard hadvanced
    · rw [moreBranches_run_else hhead]
      have hword := (further_atBranch seenElse .repeatedElse span c).trans (further_advance _)
      have hhead := hword.trans (further_finishHeader _)
      have hbody := hblock.ranks _ (hhead.sound hc)
      exact .otherwise hc hhead hbody (ih _ _ (hbody.further.sound (hhead.sound hc)))
    · rw [moreBranches_run_endif hhead]
      exact .nil hc ((further_depth c 0).trans (further_advance _))
    · have hunexpected := further_unexpected (.token .kwEndif) { c with depth := 0 }
      rw [moreBranches_run_other (level room) block rounds seenElse hother]
      exact .nil hc ((further_depth c 0).trans (hunexpected.trans (further_report ..)))

/-! ### Selections and loops -/

/-- A statement starts with its first word, and reaches to the last token that was passed. -/
theorem join_lastSpan (hc : c.Sound) (hdepth : c.depth = 0) (hrest : c.rest = l :: ls)
    (hon : Further (advance.run c).2 c') :
    c.next.join c'.lastSpan = ⟨l.span.start, c'.front⟩ ∧ c.ahead = l.span.start ∧
      l.span.start ≤ (advance.run c).2.ahead ∧ l.span.start ≤ c'.front := by
  have hsettle : c.settle.rest = l :: ls := by rw [settle_of_depth hdepth, hrest]
  have hword := further_advance c
  obtain ⟨hstart, hlies, hnext⟩ := ahead_after hc.ordered hsettle
  obtain ⟨-, hfront, hlast⟩ := hon.onward.ordered (hword.sound hc).ordered
  rw [advance_run_cons hsettle] at hfront hlast ⊢
  refine ⟨?_, ahead_of_rest hrest, hlies.trans hnext, hlies.trans hfront⟩
  rw [next_of_rest hrest]
  exact Span.join_eq hlast hfront

/-- A selection from its word on, with the branches after the first one on later lines. -/
theorem ranks_branches {condition : Tree Span} {body : List (Tree Span)}
    {r : (List (Tree Span) × List (List (Tree Span))) × Cursor} (hc : c.Sound)
    (hdepth : c.depth = 0) (hrest : c.rest = l :: ls)
    (h : RanksBranches false (advance.run c).2 ((condition :: r.1.1, body :: r.1.2), r.2))
    (hlater : ∀ u ∈ r.1.2.flatten, l.span.start.line < u.note.start.line) :
    Ranks c ([.selection (c.next.join r.2.lastSpan)
      (Branches.ofLists (condition :: r.1.1) (body :: r.1.2))], r.2) := by
  obtain ⟨hjoin, hahead, hnext, hfront⟩ := join_lastSpan hc hdepth hrest h.further
  have hlength : r.1.1.length ≤ r.1.2.length := Nat.le_of_succ_le_succ h.length_le
  have hchildren := Branches.children_ofLists_perm _ _ h.length_le
  refine ⟨(further_advance c).trans h.further, ?_, List.forall_mem_singleton.mpr ?_⟩
  · rw [hjoin]
    refine row_of_arranged hahead.le ?_ fun hle => ⟨hle, fun hlate => ?_, ?_⟩
    · exact (h.stands.subset hchildren.subset).mono hnext (le_refl _)
    · refine (h.order.resolve_left fun hfound => hlate rfl ?_).1
      obtain ⟨e, he, hfault, hstart, hstop⟩ := hfound
      exact ⟨e, he, hfault, hnext.trans hstart, hstop⟩
    · rintro s b hsame
      cases hsame
      refine ⟨?_, ?_, fun later hmem u hu => ?_⟩
      · rw [Branches.conditions_ofLists _ _ h.length_le]
        exact h.conditions
      · rw [Branches.flatten_blocks_ofLists _ _ h.length_le]
        exact h.bodies
      · have hu : u ∈ r.1.2.flatten := by
          rw [← Branches.flatten_blocks_ofLists _ _ hlength]
          exact List.mem_flatten.mpr ⟨later, hmem, hu⟩
        exact ⟨hlater u hu, h.le_front u (List.mem_append_right _ hu)⟩
  · rw [hjoin]
    exact hfront

theorem ranks_selection (hblock : RanksBlock block) (hc : c.Sound) (hdepth : c.depth = 0)
    (hrest : c.rest = l :: ls) (hl : l.token = .kwIf) :
    let r := (selection (level room) block).run c
    Ranks c ([r.1], r.2) := by
  obtain ⟨-, hlast, hdepth', -⟩ :=
    advance_word hdepth hrest (by rw [hl]; rfl) (by rw [hl]; exact nofun)
  have hc₁ := (further_advance c).sound hc
  obtain ⟨hguard, hcondition, hbody, hline⟩ := ranks_guarded room hblock hc₁ hdepth'
  have hmore := fun rounds => ranksBranches_moreBranches room hblock rounds false _
    (hbody.further.sound (hguard.sound hc₁))
  rw [selection_run_join (level room) block hdepth]
  refine ranks_branches hc hdepth hrest
    (.arm hc₁ hguard hcondition hbody (hmore _) nofun) fun u hu => ?_
  rcases hline with hnone | hline
  · -- At the end of the text there is no further branch.
    rw [moreBranches_run_other (level room) block _ false (by rw [hnone]; exact nofun)] at hu
    cases hu
  · rw [lastSpan_of_last hlast] at hline
    have hle := (hmore _).stands.from_le u (List.mem_append_right _ hu) u (mem_preorder_self u)
    exact hline.trans_le (Position.line_le_of_le hle)

theorem rows_loopVariables (rounds : Nat) (errors : List SyntaxError) (c : Cursor) :
    Yields (loopVariables rounds) c fun names c' => Row errors names c.ahead c'.ahead := by
  induction rounds generalizing c with
  | zero => exact yields_failWanting _ c
  | succ rounds ih =>
    refine yields_peek fun hc => ?_
    split
    · next name span raw hhead =>
      refine yields_next hhead fun ls hstart hlies hstop => ?_
      have hname : Row errors [Tree.identifier span name] c.ahead
          (after c.settle ⟨.name name, span, raw⟩ ls).ahead :=
        row_leaf rfl nofun (hc.le_settle.trans hstart) (hlies.trans hstop)
      refine yields_taken (fun hle => ?_) fun comma ls hcomma hwidth hnext => ?_
      · exact .pure (hname.mono (le_refl _) hle)
      · refine (ih _).bind fun names c₁ _ _ hnames => .pure ?_
        exact hname.append hnames ((hcomma.trans hwidth).trans hnext)
    · exact yields_failWanting _ _

theorem rows_loopHeader (errors : List SyntaxError) (c : Cursor) :
    Yields (loopHeader (level room)) c fun header c' =>
      Row errors (header.1 ++ [header.2]) c.ahead c'.ahead := by
  unfold loopHeader
  refine yields_get ((rows_loopVariables _ errors c).bind fun names c₁ _ _ hnames => ?_)
  split
  · exact yields_get (yields_throw _ _)
  · refine (yields_discard_required _ c₁).bind fun _ c₂ _ _ hle => ?_
    refine ((rows_level room).expression errors c₂).bind fun iterable c₃ _ _ hiterable => .pure ?_
    exact hnames.append hiterable hle

theorem ranks_iteration (hblock : RanksBlock block) (hc : c.Sound) (hdepth : c.depth = 0)
    (hrest : c.rest = l :: ls) (hl : l.token = .kwForeach) :
    let r := (iteration (level room) block).run c
    Ranks c ([r.1], r.2) := by
  obtain ⟨-, -, hdepth', -⟩ :=
    advance_word hdepth hrest (by rw [hl]; rfl) (by rw [hl]; exact nofun)
  have hword := further_advance c
  have hc₁ := hword.sound hc
  obtain ⟨hhead, hheader⟩ := row_headed (retains_loopHeader room) (fun errors =>
    rows_loopHeader room errors _) (stopsAtLineEnd_loopHeader (level room)) hc₁ hdepth'
  obtain ⟨hparts, hafter⟩ := headerOrRecover_headed (level room) (advance.run c).2
  rw [← hparts, ← hafter] at hheader
  rw [← hafter] at hhead
  rw [iteration_run_join (level room) block hdepth]
  -- From here on only the trees of the header and the cursor after it matter.
  generalize (headerOrRecover (level room)).run (advance.run c).2 = header at hhead hheader ⊢
  have hfinish := further_finishHeader header.2
  have hmid := hhead.trans hfinish
  have hbody := hblock.ranks _ (hmid.sound hc₁)
  dsimp only at hhead hheader ⊢
  generalize block.run (finishHeader.run header.2).2 = body at hbody ⊢
  have hclose := further_closeLoop body.2
  have hdone := hbody.further.trans hclose
  have hall := hmid.trans hdone
  obtain ⟨hjoin, hahead, hnext, hfront⟩ := join_lastSpan hc hdepth hrest hall
  refine ⟨hword.trans hall, ?_, List.forall_mem_singleton.mpr ?_⟩
  · rw [hjoin]
    refine row_node rfl nofun hahead.le ?_
    have hheader := hheader.errors_mono (hfinish.trans hdone).errors
    have hrow := hheader.append (hbody.row.errors_mono hclose.errors)
      (hfinish.ahead_le (hhead.sound hc₁))
    rw [List.append_assoc] at hrow
    exact hrow.mono hnext (hclose.ahead_le (hbody.further.sound (hmid.sound hc₁)))
  · rw [hjoin]
    exact hfront

end Blocks

/-! ### Statements -/

theorem rows_simpleStatement {inner : Level} (hinner : inner.Rows) :
    Rows (simpleStatement inner) := by
  intro errors c
  refine (hinner.expression errors c).bind fun target c₁ _ _ htarget => yields_peek fun hc₁ => ?_
  have htarget := htarget.mono (le_refl _) hc₁.le_settle
  split
  · exact .pure htarget
  · next op hop =>
    obtain ⟨l, hhead, -⟩ := Option.bind_eq_some_iff.mp hop
    refine yields_next hhead fun ls hstart hlies hstop => ?_
    -- A bad target is reported, and reading goes on after it as after a good one.
    have hvalue : ∀ mid : Cursor, c₁.settle.ahead ≤ mid.ahead →
        Yields (do let value ← inner.expression
                   pure (Tree.assignment (target.note.join value.note) target op value))
          mid fun t c' => Row errors [t] c.ahead c'.ahead := by
      intro mid hle
      refine (hinner.expression errors mid).bind fun value c₂ _ _ hvalue => .pure ?_
      exact row_pair rfl rfl nofun htarget hvalue hle
    have hread := (hstart.trans hlies).trans hstop
    split
    · exact yields_onward (onward_report ..) fun hle => hvalue _ (hread.trans hle)
    · exact hvalue _ hread

/-- The tree that a rule gives at the start of a line stands in the text that the rule passes. A
rule that fails takes no error back. -/
def RanksLine (m : Parse (Tree Span)) : Prop :=
  ∀ c, c.Sound → c.depth = 0 → match m.on c with
    | (.ok t, c') => Ranks c ([t], c')
    | (.error _, c') => Further c c'

/-- A statement of one word. -/
theorem ranks_word {node : Span → Tree Span} (hnote : ∀ s, (node s).note = s)
    (hparts : ∀ s, (node s).children = []) (hkind : ∀ s, (node s).kind ≠ .selection) (hc : c.Sound)
    (hdepth : c.depth = 0) (hrest : c.rest = l :: ls) :
    Ranks c ([node l.span], (advance.run c).2) := by
  have hword := further_advance c
  obtain ⟨-, hahead, hnext, hfront⟩ := join_lastSpan hc hdepth hrest (.refl _)
  refine ⟨hword, row_leaf (hparts _) (hkind _) ?_ ?_, List.forall_mem_singleton.mpr ?_⟩
  · exact (hnote l.span).symm ▸ hahead.le
  · exact (hnote l.span).symm ▸ hnext
  · exact (hnote l.span).symm ▸ hfront

theorem ranks_blockRounds {one : Parse (Tree Span)} (hone : RanksLine one) (top : Bool)
    (rounds : Nat) (c : Cursor) (hc : c.Sound) : Ranks c ((blockRounds one top rounds).run c) := by
  induction rounds generalizing c with
  | zero => exact .nil (.refl c) hc
  | succ rounds ih =>
    have hclosed := further_depth c 0
    have hc₀ := hclosed.sound hc
    cases hrest : c.rest with
    | nil =>
      rw [blockRounds_run_nil hrest]
      exact .nil hclosed hc
    | cons l ls =>
      -- A node that was recovered goes before what the further rounds give.
      have hrecover : l.token ≠ .newline → ∀ e c', Further { c with depth := 0 } c' →
          let node := (recover (l :: ls) e).run c'
          let rest := (blockRounds one top rounds).run node.2
          Ranks c (node.1 :: rest.1, rest.2) := by
        intro hline e c' hon node rest
        have hnode := ranks_recover (e := e) hc₀ hon hrest hline
        exact (hnode.append (ih _ (hnode.further.sound hc₀)) hc₀).before hclosed hc
      by_cases hline : l.token = .newline
      · rw [blockRounds_run_newline hrest hline]
        have hon : Further c { c with depth := 0, last := some l, rest := ls } :=
          .one hrest rfl rfl rfl
        exact (ih _ (hon.sound hc)).before hon hc
      cases hword : l.token.closesBlock with
      | true =>
        cases top with
        | false =>
          rw [blockRounds_run_closes hrest hword]
          exact .nil hclosed hc
        | true =>
          rw [blockRounds_run_stray hrest hword]
          exact hrecover hline _ _ (.refl _)
      | false =>
        rw [blockRounds_run_statement hrest hline hword]
        have hresult := hone _ hc₀ rfl
        rcases hrun : one.on { c with depth := 0 } with ⟨e | t, c'⟩
        · rw [hrun] at hresult
          exact hrecover hline e c' hresult
        · rw [hrun] at hresult
          have hc' := hresult.further.sound hc₀
          have hjunk := ranks_finishLine hc'
          have hmore := ih _ (hjunk.further.sound hc')
          exact (hresult.append (hjunk.append hmore hc') hc₀).before hclosed hc

theorem ranksBlock_block {one : Parse (Tree Span)} (hone : RanksLine one) :
    RanksBlock (block one false) where
  ranks c := ranks_blockRounds hone false (c.rest.length + 1) c
  passes c l ls hc hrest hl := by
    have hpass : Further c { c with last := some l, rest := ls } := .one hrest rfl rfl rfl
    have hclosed := further_depth { c with last := some l, rest := ls } 0
    have hmore := ranks_blockRounds hone false c.rest.length _ (hclosed.sound (hpass.sound hc))
    rw [← blockRounds_run_newline hrest hl] at hmore
    exact hclosed.onward.trans hmore.further.onward

theorem ranksLine_of_inner {room : Nat} (hinner : ∀ k < room, RanksLine (statement k)) :
    RanksLine (statement room) := by
  -- Blocks lie a level further in, so their statements are known.
  have hblock : ∀ k < room, RanksBlock (block (statement k) false) := fun k hk =>
    ranksBlock_block (hinner k hk)
  intro c hc hdepth
  have hsettle := settle_of_depth hdepth
  by_cases hsimple : ∀ l ∈ c.settle.rest.head?, startsStatement l.token = false
  · rw [statement_on_simple hsimple, hsettle]
    obtain ⟨hon, hplaced⟩ := places_simpleStatement (places_level room) c hc.ordered
    obtain ⟨-, hrow⟩ := rows_simpleStatement (rows_level room)
      ((simpleStatement (level room)).on c).2.errors c hc.ordered
    have hfurther : Further c _ := ⟨hon, Retains.simpleStatement room c⟩
    rcases hrun : (simpleStatement (level room)).on c with ⟨e | t, c'⟩
    · rw [hrun] at hfurther
      exact hfurther
    · rw [hrun] at hfurther hplaced hrow
      refine ⟨hfurther, hrow t rfl, List.forall_mem_singleton.mpr ?_⟩
      exact (hplaced t rfl).lies.lt.le.trans (hplaced t rfl).lies.le_to
  push Not at hsimple
  obtain ⟨l, hhead, hword⟩ := hsimple
  obtain ⟨ls, hrest⟩ := List.head?_eq_some_iff.mp hhead
  rw [hsettle] at hrest
  cases htoken : l.token with
  | kwIf =>
    cases room with
    | zero =>
      rw [statement_on_zero hhead (.inl htoken), hsettle]
      exact further_settle c
    | succ room =>
      rw [statement_on_selection hhead htoken, hsettle]
      exact ranks_selection room (hblock room (Nat.lt_succ_self _)) hc hdepth hrest htoken
  | kwForeach =>
    cases room with
    | zero =>
      rw [statement_on_zero hhead (.inr htoken), hsettle]
      exact further_settle c
    | succ room =>
      rw [statement_on_iteration hhead htoken, hsettle]
      exact ranks_iteration room (hblock room (Nat.lt_succ_self _)) hc hdepth hrest htoken
  | kwBreak =>
    rw [statement_on_break room hhead htoken, hsettle]
    exact ranks_word (fun _ => rfl) (fun _ => rfl) (fun _ => nofun) hc hdepth hrest
  | kwContinue =>
    rw [statement_on_continue room hhead htoken, hsettle]
    exact ranks_word (fun _ => rfl) (fun _ => rfl) (fun _ => nofun) hc hdepth hrest
  | _ =>
    rw [htoken] at hword
    exact absurd rfl hword

theorem ranksLine_statement (room : Nat) : RanksLine (statement room) := by
  induction room using Nat.strongRecOn with
  | ind room ih => exact ranksLine_of_inner ih

/-- The statements of a file stand in a row in its text. -/
theorem row_statements {lexemes : List Lexeme} {eof : Position}
    (h : Lexeme.InOrder {} lexemes eof)
    (hlines : ∀ l ∈ lexemes, l.token = .newline → l.span.start.line < l.span.stop.line) :
    Row (statements lexemes eof).2 (statements lexemes eof).1 {} eof := by
  have hc : ({ rest := lexemes, eof } : Cursor).Sound := by
    refine ⟨⟨le_refl _, h⟩, fun l hl => hlines l ?_⟩
    exact hl.resolve_right nofun
  have hall := ranks_blockRounds (ranksLine_statement maxNesting) true (lexemes.length + 1) _ hc
  have hstart : ({} : Position) ≤ ({ rest := lexemes, eof } : Cursor).ahead :=
    hc.ordered.front_le_ahead
  have hstop := (hall.further.sound hc).ordered.ahead_le_eof
  rw [hall.further.onward.1] at hstop
  exact hall.row.mono hstart hstop

end Parse

end MesonLens
