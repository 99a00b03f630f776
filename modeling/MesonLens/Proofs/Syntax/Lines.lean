import MesonLens.Proofs.Syntax.Recovery
import MesonLens.Proofs.Syntax.Shift
import Mathlib.Data.List.Infix

/-!
# `MesonLens.Proofs.Syntax.Lines`: a mistake stays on its line

A line that opens no block and leaves no bracket open is read on its own, whatever is wrong in it.
The statements and errors after it are those of the text that follows, as if that text stood alone
(`Parse.statements_line_append`).

* `Lexeme.ClosedLine`: the lines that this is about;
* `Tandem.sheltered`: a reading of such a line alone, and one of the line with a text after it. The
  line end is reached with no bracket open, so no rule passes it (`Cursor.InLine`);
* `Parse.recover_followed`: a recovery stops at the line end, too;
* `Parse.Concludes`: what the line gives, and the cursor that the text after it is read from.
  That cursor differs from a fresh one in what was passed last and in the errors noted before, which
  is what `Shift` allows;
* `Tree.renumbers_number`: the numbers of nodes go on where those of the line end.
-/

set_option autoImplicit false

namespace MesonLens

/-! ### Closed lines -/

namespace Lexeme

/-- The lexemes end with a line end, and it is the only one among them. -/
def EndsAt (stop : Lexeme) (ls : List Lexeme) : Prop :=
  stop.token = .newline ∧ ∃ body, ls = body ++ [stop] ∧ ∀ l ∈ body, l.token ≠ .newline

/-- A line that does not start with a word that opens a block. Every bracket is closed in the line,
and none is closed before one was opened. Brackets of different kinds may close each other. -/
structure ClosedLine (line : List Lexeme) : Prop where
  ends : ∃ stop, EndsAt stop line
  first : ∀ l ∈ line.head?, l.token ≠ .kwIf ∧ l.token ≠ .kwForeach
  opened : ∀ part ∈ line.inits, part.countP (·.token.closes) ≤ part.countP (·.token.opens)
  closed : line.countP (·.token.closes) = line.countP (·.token.opens)

variable {line ls : List Lexeme} {l stop : Lexeme}

theorem EndsAt.cases (h : EndsAt stop (l :: ls)) :
    (l = stop ∧ ls = []) ∨ (l.token ≠ .newline ∧ EndsAt stop ls) := by
  obtain ⟨hstop, body, hbody, hlines⟩ := h
  cases body with
  | nil => exact .inl (List.cons.inj hbody)
  | cons first body =>
    obtain ⟨rfl, hls⟩ := List.cons.inj hbody
    obtain ⟨hl, hlines⟩ := List.forall_mem_cons.mp hlines
    exact .inr ⟨hl, hstop, body, hls, hlines⟩

theorem EndsAt.ne_nil (h : EndsAt stop ls) : ls ≠ [] := by
  obtain ⟨-, body, rfl, -⟩ := h
  simp

theorem opens_eq_false_of_closes {t : Token} (h : t.closes = true) : t.opens = false := by
  cases t with
  | rparen | rbracket | rbrace => rfl
  | _ => cases h

/-- A token opens a bracket, or closes one, or does neither. -/
theorem depthAfter_add (depth : Nat) {t : Token} (h : t.closes = true → 0 < depth) :
    Cursor.depthAfter depth t + (if t.closes then 1 else 0) =
      depth + (if t.opens then 1 else 0) := by
  cases t with
  | rparen | rbracket | rbrace => exact Nat.sub_add_cancel (h rfl)
  | _ => rfl

/-- Where no bracket is closed before one was opened, those are open that were opened and not
closed. -/
theorem openAfter_add_countP (depth : Nat)
    (h : ∀ part ∈ ls.inits, part.countP (·.token.closes) ≤ depth + part.countP (·.token.opens)) :
    openAfter depth ls + ls.countP (·.token.closes) = depth + ls.countP (·.token.opens) := by
  induction ls generalizing depth with
  | nil => rfl
  | cons l ls ih =>
    have hfirst := h [l] (by simp)
    have hdepth := depthAfter_add depth (t := l.token) fun hcloses => by
      simpa [hcloses, opens_eq_false_of_closes hcloses, Nat.one_le_iff_ne_zero,
        Nat.pos_iff_ne_zero] using hfirst
    have hrest := ih (Cursor.depthAfter depth l.token) fun part hpart => by
      have hpart := h (l :: part) (by simpa using hpart)
      rw [List.countP_cons, List.countP_cons] at hpart
      omega
    show openAfter (Cursor.depthAfter depth l.token) ls + _ = _
    rw [List.countP_cons, List.countP_cons]
    omega

theorem ClosedLine.openAfter_eq (h : ClosedLine line) : openAfter 0 line = 0 := by
  have hcount := openAfter_add_countP 0 fun part hpart =>
    (h.opened part hpart).trans_eq (Nat.zero_add _).symm
  have hclosed := h.closed
  omega

end Lexeme

/-! ### A line with a text after it -/

namespace Cursor

open Lexeme (EndsAt openAfter)

/-- The cursor when a text follows. -/
def followed (c : Cursor) (tail : List Lexeme) (eof : Position) : Cursor :=
  { c with rest := c.rest ++ tail, eof }

/-- The cursor stands in a line, and no bracket will be open at the line end. -/
structure InLine (stop : Lexeme) (c : Cursor) : Prop where
  ends : EndsAt stop c.rest
  closed : openAfter c.depth c.rest = 0
  last : ∀ l ∈ c.last, l.token ≠ .newline

variable {stop l : Lexeme} {ls : List Lexeme} {c : Cursor}

theorem settle_of_head (hrest : c.rest = l :: ls) (hl : l.token = .newline → c.depth = 0) :
    c.settle = c := by
  obtain ⟨rest, last, depth, eof, errors⟩ := c
  cases hrest
  by_cases hline : l.token = .newline
  · exact settle_of_depth (hl hline)
  · simp [settle, passLines, hline]

/-- A line end inside brackets would leave them open. -/
theorem InLine.depth_eq (h : InLine stop c) (hrest : c.rest = l :: ls) (hl : l.token = .newline) :
    c.depth = 0 := by
  have hends := h.ends
  have hclosed := h.closed
  rw [hrest] at hends hclosed
  obtain ⟨rfl, rfl⟩ | ⟨hline, -⟩ := hends.cases
  · simpa [openAfter, depthAfter, hl, Token.opens, Token.closes] using hclosed
  · exact absurd hl hline

/-- In the line nothing is passed before a token is read. -/
theorem InLine.settle (h : InLine stop c) (tail : List Lexeme) (eof : Position) :
    c.settle = c ∧ (c.followed tail eof).settle = c.followed tail eof := by
  obtain ⟨l, ls, hrest⟩ := List.exists_cons_of_ne_nil h.ends.ne_nil
  have hfollowed : (c.followed tail eof).rest = l :: (ls ++ tail) := by
    rw [followed, hrest, List.cons_append]
  exact ⟨settle_of_head hrest (h.depth_eq hrest), settle_of_head hfollowed (h.depth_eq hrest)⟩

theorem InLine.after (h : InLine stop c) (hrest : c.settle.rest = l :: ls)
    (hl : l.token ≠ .newline) : InLine stop (Parse.after c l ls) := by
  rw [(h.settle [] c.eof).1] at hrest
  have hends := h.ends
  have hclosed := h.closed
  rw [hrest] at hends hclosed
  obtain ⟨rfl, -⟩ | ⟨-, hends⟩ := hends.cases
  · exact absurd hends.1 hl
  · exact ⟨hends, hclosed, fun _ hlast => Option.some.inj hlast ▸ hl⟩

end Cursor

namespace Tandem

/-- A reading of a line alone, and one of the line with a text after it. -/
def sheltered (stop : Lexeme) (tail : List Lexeme) (eof : Position) : Tandem where
  move := id
  extra := tail.length
  Meet c c' := c' = c.followed tail eof ∧ c.InLine stop
  move_le := move_id_le
  length := by
    rintro c _ ⟨rfl, -⟩
    exact List.length_append
  head := by
    rintro c _ ⟨rfl, h⟩
    obtain ⟨l, ls, hrest⟩ := List.exists_cons_of_ne_nil h.ends.ne_nil
    rw [Cursor.followed, hrest]
    rfl
  eof := by
    rintro c _ ⟨rfl, h⟩ hrest
    exact absurd hrest h.ends.ne_nil
  settle := by
    rintro c _ ⟨rfl, h⟩
    obtain ⟨hsettle, hfollowed⟩ := h.settle tail eof
    rw [hsettle, hfollowed]
    exact ⟨rfl, h⟩
  read := by
    rintro c _ l ls ls' ⟨rfl, h⟩ hrest hrest' hl
    refine ⟨?_, h.after hrest hl⟩
    obtain ⟨hsettle, hfollowed⟩ := h.settle tail eof
    rw [hsettle] at hrest
    rw [hfollowed, Cursor.followed, hrest, List.cons_append] at hrest'
    obtain rfl := (List.cons.inj hrest').2
    rw [Parse.after, Parse.after, hsettle, hfollowed]
    rfl
  noting := by
    rintro c _ e ⟨rfl, h⟩
    exact ⟨rfl, h.ends, h.closed, h.last⟩

end Tandem

namespace Parse

open Cursor
open Lexeme (EndsAt)

variable {c : Cursor} {stop l : Lexeme} {ls start : List Lexeme}

/-! ### The line end -/

theorem skipLine_followed (hends : EndsAt stop c.rest) (tail : List Lexeme) (eof : Position) :
    (c.followed tail eof).skipLine = c.skipLine.followed tail eof ∧ c.skipLine.rest = [stop] := by
  obtain ⟨hstop, body, hrest, hbody⟩ := hends
  have hword : ∀ l ∈ body, decide (l.token ≠ .newline) = true := fun l hl =>
    decide_eq_true (hbody l hl)
  have hline : decide (stop.token ≠ .newline) = false := by simp [hstop]
  simp only [skipLine, followed, hrest, List.append_assoc, List.singleton_append,
    List.takeWhile_append_of_pos hword, List.dropWhile_append_of_pos hword, List.takeWhile_cons,
    List.dropWhile_cons, hline]
  simp

theorem unstuck_followed (hends : EndsAt stop c.rest) (ahead : Nat) (tail : List Lexeme)
    (eof : Position) :
    (c.followed tail eof).unstuck (ahead + tail.length) = (c.unstuck ahead).followed tail eof ∧
      EndsAt stop (c.unstuck ahead).rest := by
  obtain ⟨rest, last, depth, eof', errors⟩ := c
  obtain ⟨l, ls, rfl⟩ := List.exists_cons_of_ne_nil hends.ne_nil
  let stuck : Cursor := ⟨l :: ls, last, depth, eof', errors⟩
  have hlength : (stuck.followed tail eof).rest.length = ahead + tail.length ↔
      stuck.rest.length = ahead := by
    rw [followed, List.length_append, Nat.add_right_cancel_iff]
  have hline : (stuck.followed tail eof).isAt .newline = stuck.isAt .newline := rfl
  by_cases hpass : stuck.rest.length = ahead ∧ !stuck.isAt .newline
  · have hunstuck : stuck.unstuck ahead = ⟨ls, some l, depth, eof', errors⟩ := if_pos hpass
    have hfollowed : (stuck.followed tail eof).unstuck (ahead + tail.length) =
        ⟨ls ++ tail, some l, depth, eof, errors⟩ := if_pos ⟨hlength.mpr hpass.1, hline ▸ hpass.2⟩
    rw [hunstuck, hfollowed]
    -- The line end is not passed.
    obtain ⟨rfl, -⟩ | ⟨-, hends⟩ := hends.cases
    · simp [stuck, isAt, hends.1] at hpass
    · exact ⟨rfl, hends⟩
  · have hunstuck : stuck.unstuck ahead = stuck := if_neg hpass
    have hfollowed : (stuck.followed tail eof).unstuck (ahead + tail.length) =
        stuck.followed tail eof := if_neg fun h => hpass ⟨hlength.mp h.1, hline ▸ h.2⟩
    rw [hunstuck, hfollowed]
    exact ⟨rfl, hends⟩

/-- A recovery in the line stops at its end. -/
theorem recover_followed (hstart : start ≠ []) (hends : EndsAt stop c.rest) (e : SyntaxError)
    (tail : List Lexeme) (eof : Position) :
    let r := (recover start e).run c
    (recover (start ++ tail) e).run (c.followed tail eof) = (r.1, r.2.followed tail eof) ∧
      r.2.rest = [stop] := by
  obtain ⟨hpass, hmid⟩ := unstuck_followed hends start.length tail eof
  rw [recover_eq, recover_eq, List.length_append, hpass]
  generalize c.unstuck start.length = mid at hmid ⊢
  obtain ⟨hskip, hrest⟩ := skipLine_followed hmid tail eof
  obtain ⟨first, more, rfl⟩ := List.exists_cons_of_ne_nil hstart
  have hlength : (mid.skipLine.followed tail eof).rest.length <
      (first :: more).length + tail.length ↔
        mid.skipLine.rest.length < (first :: more).length := by
    rw [followed, List.length_append, Nat.add_lt_add_iff_right]
  rw [hskip]
  dsimp only
  simp only [hlength]
  exact ⟨rfl, hrest⟩

/-- What stands before the line end is one node, whatever follows. -/
theorem finishLine_followed (hin : InLine stop c) (hrest : c.rest = l :: ls)
    (hl : l.token ≠ .newline) : ∃ (node : Tree Span) (mid : Cursor), mid.rest = [stop] ∧
      ∀ tail eof, finishLine.run (c.followed tail eof) = ([node], mid.followed tail eof) := by
  -- The brackets are forgotten first, so it does not matter how many are open.
  let error : SyntaxError := ⟨.expected .endOfLine (some l.token), l.span⟩
  let closed : Cursor := { c with depth := 0 }
  have hlast : c.last.any (·.token = .newline) = false := by
    simpa [Option.any_eq_false] using hin.last
  have hrecover := recover_followed (c := closed) (List.cons_ne_nil l ls) hin.ends error
  refine ⟨((recover (l :: ls) error).run closed).1, ((recover (l :: ls) error).run closed).2,
    (hrecover [] c.eof).2, fun tail eof => ?_⟩
  have hfollowed : (closed.followed tail eof).rest = l :: (ls ++ tail) := by
    show c.rest ++ tail = _
    rw [hrest, List.cons_append]
  have hfound : (unexpected .endOfLine).run (closed.followed tail eof) =
      (error, closed.followed tail eof) := by
    have hsettle : (closed.followed tail eof).settle = closed.followed tail eof :=
      settle_of_depth rfl
    rw [unexpected_run, hsettle, next_of_rest hfollowed, hfollowed]
    rfl
  have hjunk := finishLine_run_junk (c := c.followed tail eof) hlast hfollowed hl
  have hdepth : ({ c.followed tail eof with depth := 0 } : Cursor) = closed.followed tail eof := rfl
  rw [hdepth, hfound] at hjunk
  dsimp only at hjunk
  rw [hjunk, ← List.cons_append, (hrecover tail eof).1]

/-! ### A line of a file -/

/-- A line gives the same statements and errors whatever follows, and the text after it is read from
its beginning. -/
def Concludes (one : Parse (Tree Span)) (stop : Lexeme) (used : Nat) (c : Cursor) : Prop :=
  ∃ trees errors, ∀ rounds tail eof, ∃ rounds', rounds ≤ rounds' ∧
    let r := (blockRounds one true rounds').run { rest := tail, last := some stop, eof, errors }
    (blockRounds one true (rounds + used)).run (c.followed tail eof) = (trees ++ r.1, r.2)

theorem concludes_newline (one : Parse (Tree Span)) (hstop : stop.token = .newline)
    (hrest : c.rest = [stop]) : Concludes one stop 1 c := by
  refine ⟨[], c.errors, fun rounds tail eof => ⟨rounds, Nat.le_refl _, ?_⟩⟩
  have hfollowed : (c.followed tail eof).rest = stop :: tail := by
    rw [followed, hrest]
    rfl
  rw [blockRounds_run_newline hfollowed hstop]
  rfl

variable {one : Parse (Tree Span)}

/-- A statement that failed is one node, and the line end comes after it. -/
theorem concludes_recover {c₀ : Cursor} {e : SyntaxError} (hends : EndsAt stop c.rest)
    (hstart : start ≠ [])
    (hrun : ∀ rounds tail eof, (blockRounds one true (rounds + 1)).run (c₀.followed tail eof) =
      let node := (recover (start ++ tail) e).run (c.followed tail eof)
      let rest := (blockRounds one true rounds).run node.2
      (node.1 :: rest.1, rest.2)) : Concludes one stop 2 c₀ := by
  have hrecover := recover_followed hstart hends e
  obtain ⟨trees, errors, hline⟩ :=
    concludes_newline one hends.1 (hrecover [] c.eof).2
  refine ⟨((recover start e).run c).1 :: trees, errors, fun rounds tail eof => ?_⟩
  obtain ⟨rounds', hle, hrest⟩ := hline rounds tail eof
  refine ⟨rounds', hle, ?_⟩
  rw [hrun (rounds + 1), (hrecover tail eof).1]
  dsimp only
  rw [hrest]
  rfl

/-- A statement that was read, with the end of its line. -/
theorem concludes_statement {c₀ : Cursor} {t : Tree Span} (hin : InLine stop c)
    (hrun : ∀ rounds tail eof, (blockRounds one true (rounds + 1)).run (c₀.followed tail eof) =
      let junk := finishLine.run (c.followed tail eof)
      let rest := (blockRounds one true rounds).run junk.2
      (t :: (junk.1 ++ rest.1), rest.2)) : Concludes one stop 2 c₀ := by
  obtain ⟨l, ls, hrest⟩ := List.exists_cons_of_ne_nil hin.ends.ne_nil
  have hends := hin.ends
  rw [hrest] at hends
  obtain ⟨rfl, rfl⟩ | ⟨hl, -⟩ := hends.cases
  · -- The line end comes at once.
    have hlast : c.last.any (·.token = .newline) = false := by
      simpa [Option.any_eq_false] using hin.last
    refine ⟨[t], c.errors, fun rounds tail eof => ⟨rounds + 1, Nat.le_succ _, ?_⟩⟩
    have hfollowed : (c.followed tail eof).rest = l :: tail := by
      rw [followed, hrest]
      rfl
    rw [hrun (rounds + 1),
      finishLine_run_newline (c := c.followed tail eof) hlast hfollowed hends.1]
    rfl
  · -- What stands before the line end is one more node.
    obtain ⟨node, mid, hmid, hjunk⟩ := finishLine_followed hin hrest hl
    obtain ⟨trees, errors, hline⟩ := concludes_newline one hends.1 hmid
    refine ⟨t :: node :: trees, errors, fun rounds tail eof => ?_⟩
    obtain ⟨rounds', hle, hend⟩ := hline rounds tail eof
    refine ⟨rounds', hle, ?_⟩
    rw [hrun (rounds + 1), hjunk]
    dsimp only
    rw [hend]
    rfl

/-- The statement that a line starts with is the same whatever follows. -/
theorem parses_statement (room : Nat) (hin : InLine stop c)
    (hfirst : ∀ l ∈ c.rest.head?, l.token ≠ .kwIf ∧ l.token ≠ .kwForeach) (tail : List Lexeme)
    (eof : Position) :
    (Tandem.sheltered stop tail eof).Parses (Tandem.sheltered stop tail eof).tree (statement room)
      (statement room) c fun _ _ => True := by
  have hsettle := (hin.settle tail eof).1
  unfold statement
  refine Tandem.parses_peek ?_
  rw [Tandem.map_token_move, hsettle]
  have hsimple := (Tandem.carries_simpleStatement (T := .sheltered stop tail eof)
    (Tandem.carries_level room) c).mono fun _ _ _ _ => trivial
  cases hhead : c.rest.head? with
  | none => exact hsimple
  | some l =>
    obtain ⟨ls, hrest⟩ := List.head?_eq_some_iff.mp hhead
    have hl := hfirst l hhead
    have hword := fun hl node hnode => (Tandem.parses_word (T := .sheltered stop tail eof)
      node hnode (hsettle ▸ hrest) hl).mono fun _ _ _ _ => trivial
    obtain ⟨token, span, raw⟩ := l
    cases token with
    | kwIf => exact absurd rfl hl.1
    | kwForeach => exact absurd rfl hl.2
    | kwBreak => exact hword (by simp) .breakLoop fun _ => rfl
    | kwContinue => exact hword (by simp) .continueLoop fun _ => rfl
    | _ => exact hsimple

theorem statement_followed (room : Nat) (hin : InLine stop c)
    (hfirst : ∀ l ∈ c.rest.head?, l.token ≠ .kwIf ∧ l.token ≠ .kwForeach) (tail : List Lexeme)
    (eof : Position) :
    let r := (statement room).on c
    (statement room).on (c.followed tail eof) = (r.1, r.2.followed tail eof) ∧ InLine stop r.2 := by
  obtain ⟨hresult, ⟨hmid, hin'⟩, -⟩ :=
    parses_statement room hin hfirst tail eof _ ⟨rfl, hin⟩
  refine ⟨Prod.ext (hresult.trans ?_) hmid, hin'⟩
  cases (ExceptT.run (statement room)).run c |>.1 with
  | ok t => exact congrArg Except.ok t.map_id
  | error e => rfl

/-- A closed line, from its beginning. -/
theorem concludes_line {line : List Lexeme} (hline : Lexeme.ClosedLine line)
    (hends : EndsAt stop line) (mid : Position) : ∃ used ≤ line.length,
      Concludes (statement maxNesting) stop used { rest := line, eof := mid } := by
  obtain ⟨l, ls, rfl⟩ := List.exists_cons_of_ne_nil hends.ne_nil
  obtain ⟨rfl, rfl⟩ | ⟨hl, hrest⟩ := hends.cases
  · exact ⟨1, Nat.le_refl _, concludes_newline _ hends.1 rfl⟩
  refine ⟨2, Nat.succ_le_succ (List.length_pos_iff.mpr hrest.ne_nil), ?_⟩
  let fresh : Cursor := { rest := l :: ls, eof := mid }
  have hin : InLine stop fresh := ⟨hends, hline.openAfter_eq, nofun⟩
  have hcons := List.cons_ne_nil l ls
  cases hword : l.token.closesBlock with
  | true =>
    -- No block is open, so the word is an error at once.
    exact concludes_recover (c := fresh) (e := ⟨.unexpected l.token, l.span⟩) hends hcons
      fun rounds tail eof => blockRounds_run_stray (c := fresh.followed tail eof) rfl hword
  | false =>
    have hclosed : ∀ tail eof, ({ fresh.followed tail eof with depth := 0 } : Cursor) =
        fresh.followed tail eof := fun _ _ => rfl
    have hstatement := statement_followed maxNesting hin hline.first
    -- The statement ends in the line, so its result and its cursor do not depend on the text after.
    rcases hfresh : (statement maxNesting).on fresh with ⟨e | t, c⟩
    · rw [hfresh] at hstatement
      refine concludes_recover (e := e) (hstatement [] mid).2.ends hcons fun rounds tail eof => ?_
      rw [blockRounds_run_statement (c := fresh.followed tail eof) rfl hl hword, hclosed,
        (hstatement tail eof).1]
      rfl
    · rw [hfresh] at hstatement
      refine concludes_statement (t := t) (hstatement [] mid).2 fun rounds tail eof => ?_
      rw [blockRounds_run_statement (c := fresh.followed tail eof) rfl hl hword, hclosed,
        (hstatement tail eof).1]

/-- A closed line before a text. -/
theorem statements_append {line : List Lexeme} (hline : Lexeme.ClosedLine line)
    (rest : List Lexeme) (lines bytes : Nat) (mid eof : Position) :
    let place := Position.later lines bytes
    let whole := statements (line ++ rest.map (Lexeme.move place)) (place eof)
    whole.1 = (statements line mid).1 ++
      (statements rest eof).1.map (Tree.map (Span.move place)) ∧
    whole.2 = (statements line mid).2 ++ (statements rest eof).2.map (SyntaxError.move place) := by
  intro place
  obtain ⟨stop, hends⟩ := hline.ends
  obtain ⟨used, hused, trees, errors, hconcludes⟩ := concludes_line hline hends mid
  -- The line alone: nothing follows.
  have halone : statements line mid = (trees, errors) := by
    obtain ⟨rounds, hle, hrun⟩ := hconcludes (line.length + 1 - used) [] mid
    obtain ⟨rounds, rfl⟩ := Nat.exists_eq_succ_of_ne_zero (by omega : rounds ≠ 0)
    have hfresh : ({ rest := line, eof := mid } : Cursor).followed [] mid =
        { rest := line, eof := mid } := by
      rw [followed, List.append_nil]
    rw [hfresh, Nat.sub_add_cancel (by omega), blockRounds_run_nil rfl] at hrun
    rw [statements_eq, hrun, List.append_nil]
  obtain ⟨rounds, hle, hrun⟩ := hconcludes (line.length + rest.length + 1 - used)
    (rest.map (Lexeme.move place)) (place eof)
  obtain ⟨htrees, herrors⟩ := blockRounds_later rest eof lines bytes stop errors
    (by omega : rest.length < rounds)
  have hfollowed : ({ rest := line, eof := mid } : Cursor).followed (rest.map (Lexeme.move place))
      (place eof) = { rest := line ++ rest.map (Lexeme.move place), eof := place eof } := rfl
  rw [hfollowed, Nat.sub_add_cancel (by omega)] at hrun
  dsimp only at hrun
  rw [halone, statements_eq (line ++ _), List.length_append, List.length_map, hrun, htrees]
  exact ⟨rfl, herrors⟩

end Parse

/-! ### Numbers -/

/-- The mark of the node when other nodes have numbers before, and its text stands elsewhere. -/
def Mark.later (count : Nat) (f : Position → Position) (m : Mark) : Mark :=
  ⟨m.id + count, m.span.move f⟩

/-- The second step gives out numbers that are greater by `count`, and apart from that it gives the
same result in the second text. -/
def Renumbers {α β : Type} (count : Nat) (g : α → β) (m : StateM Nat α) (m' : StateM Nat β) :
    Prop :=
  ∀ n, m'.run (n + count) = (g (m.run n).1, (m.run n).2 + count)

namespace Renumbers

variable {α β α' β' : Type} {count : Nat} {g : α → α'} {h : β → β'}

theorem pure {a : α} {a' : α'} (ha : a' = g a) : Renumbers count g (pure a) (pure a') := fun _ => by
  rw [ha]
  rfl

theorem bind {m : StateM Nat α} {m' : StateM Nat α'} {f : α → StateM Nat β}
    {f' : α' → StateM Nat β'} (hm : Renumbers count g m m')
    (hf : ∀ a, Renumbers count h (f a) (f' (g a))) : Renumbers count h (m >>= f) (m' >>= f') := by
  intro n
  have hrun := hf (m.run n).1 (m.run n).2
  show (f' (m'.run (n + count)).1).run (m'.run (n + count)).2 = _
  rw [hm n]
  exact hrun

theorem node {f : Position → Position} (s : Span) {build : Mark → Tree Mark}
    {build' : Mark → Tree Mark}
    (hbuild : ∀ m, build' (m.later count f) = (build m).map (Mark.later count f)) :
    Renumbers count (Tree.map (Mark.later count f)) (do return build (← Mark.fresh s))
      (do return build' (← Mark.fresh (s.move f))) := by
  intro n
  have hfresh : (⟨n + count, s.move f⟩ : Mark) = Mark.later count f ⟨n, s⟩ := rfl
  show (build' ⟨n + count, s.move f⟩, n + count + 1) = (_, n + 1 + count)
  rw [hfresh, hbuild, Nat.add_right_comm]
  rfl

end Renumbers

section Numbers

variable (count : Nat) (f : Position → Position)

mutual

/-- A tree at another place, after others. -/
theorem Tree.renumbers_number : ∀ t : Tree Span,
    Renumbers count (Tree.map (Mark.later count f)) t.number (t.map (Span.move f)).number
  | .file a ts | .arguments a ts | .array a ts | .dictionary a ts =>
    .bind (Tree.renumbers_numberAll ts) fun _ => .node a fun _ => rfl
  | .assignment a l _ r | .binary a l _ r | .call a l r | .entry a l r | .keyword a l r
  | .subscript a l r =>
    .bind l.renumbers_number fun _ => .bind r.renumbers_number fun _ => .node a fun _ => rfl
  | .conditional a c t e =>
    .bind c.renumbers_number fun _ => .bind t.renumbers_number fun _ =>
      .bind e.renumbers_number fun _ => .node a fun _ => rfl
  | .iteration a names iterable body =>
    .bind (Tree.renumbers_numberAll names) fun _ => .bind iterable.renumbers_number fun _ =>
      .bind (Tree.renumbers_numberAll body) fun _ => .node a fun _ => rfl
  | .method a object name none =>
    .bind object.renumbers_number fun _ => .bind name.renumbers_number fun _ =>
      .node a fun _ => rfl
  | .method a object name (some args) =>
    .bind object.renumbers_number fun _ => .bind name.renumbers_number fun _ =>
      .bind args.renumbers_number fun _ => .node a fun _ => rfl
  | .selection a branches => .bind branches.renumbers_number fun _ => .node a fun _ => rfl
  | .unary a _ t => .bind t.renumbers_number fun _ => .node a fun _ => rfl
  | .boolean a _ | .identifier a _ | .integer a _ _ | .string a _ _ _ | .malformed a _
  | .breakLoop a | .continueLoop a => .node a fun _ => rfl

theorem Tree.renumbers_numberAll : ∀ ts : List (Tree Span),
    Renumbers count (Tree.mapAll (Mark.later count f)) (Tree.numberAll ts)
      (Tree.numberAll (Tree.mapAll (Span.move f) ts))
  | [] => .pure rfl
  | t :: ts =>
    .bind t.renumbers_number fun _ => .bind (Tree.renumbers_numberAll ts) fun _ => .pure rfl

theorem Branches.renumbers_number : ∀ b : Branches Span,
    Renumbers count (Branches.map (Mark.later count f)) b.number (b.map (Span.move f)).number
  | .done => .pure rfl
  | .otherwise body => .bind (Tree.renumbers_numberAll body) fun _ => .pure rfl
  | .arm condition body rest =>
    .bind condition.renumbers_number fun _ => .bind (Tree.renumbers_numberAll body) fun _ =>
      .bind rest.renumbers_number fun _ => .pure rfl

end

end Numbers

/-! ### Files -/

namespace Parse

open Lexeme (ClosedLine)

end Parse

end MesonLens
