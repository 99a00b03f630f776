import MesonLens.Proofs.Syntax.Tandem

/-!
# `MesonLens.Proofs.Syntax.Shift`: a text that is read after another one

Where lines come before a text, it stands further down, and when it is read something was passed
and errors were noted before. Nothing else changes: the statements, their blocks and the errors are
those of the text alone, at their new places.

* `Shift`, `Shift.cursor`: a cursor in the text alone and the one that stands after what comes
  before it. They make a tandem (`Shift.tandem`). What was passed last is another lexeme as long as
  nothing of the text was read, so a rule that looks at it has to come after a token;
* `Shift.runs_recover`, `Shift.runs_finishLine`: the ends of lines;
* `Shift.runs_selection`, `Shift.runs_iteration`, `Shift.runs_blockRounds`: blocks. More rounds
  than lexemes are ahead change nothing;
* `Shift.carriesLine_statement`: statements, as deep as they nest;
* `Parse.blockRounds_later`: the whole text.
-/

set_option autoImplicit false

namespace MesonLens

/-- The place when lines come before the text. -/
def Position.later (lines bytes : Nat) (p : Position) : Position :=
  ⟨p.line + lines, p.column, p.offset + bytes⟩

/-- What comes before a text. -/
structure Shift where
  lines : Nat
  bytes : Nat
  /-- The last lexeme before the text. -/
  before : Lexeme
  /-- The errors that were noted before. -/
  errors : List SyntaxError
  /-- The text itself. -/
  text : List Lexeme

namespace Shift

open Parse Cursor

variable (S : Shift)

/-- A place of the text, after what comes before. -/
abbrev move : Position → Position := Position.later S.lines S.bytes

/-- A tree, after what comes before. -/
abbrev tree : Tree Span → Tree Span := Tree.map (Span.move S.move)

/-- What was passed last, after what comes before. -/
def last (last : Option Lexeme) : Option Lexeme :=
  some ((last.map (Lexeme.move S.move)).getD S.before)

/-- The cursor after what comes before. -/
def cursor (c : Cursor) : Cursor where
  rest := c.rest.map (Lexeme.move S.move)
  last := S.last c.last
  depth := c.depth
  eof := S.move c.eof
  errors := S.errors ++ c.errors.map (SyntaxError.move S.move)

/-- The cursor stands in the text. As long as nothing was passed, the whole text is ahead. -/
structure Ahead (c : Cursor) : Prop where
  suffix : c.rest <:+ S.text
  whole : c.last = none → c.rest = S.text

variable {S} {c c' : Cursor} {l : Lexeme} {ls start : List Lexeme}

theorem Ahead.onward (h : S.Ahead c) (hon : Onward c c') : S.Ahead c' := by
  obtain ⟨hrest, hsame⟩ | ⟨passed, l, hrest, hsome⟩ := hon.cases
  · exact ⟨hrest ▸ h.suffix, fun hlast => hrest.trans (h.whole (hsame ▸ hlast))⟩
  · have hsuffix : c'.rest <:+ c.rest := ⟨passed ++ [l], by rw [hrest, List.append_assoc]; rfl⟩
    exact ⟨hsuffix.trans h.suffix, fun hlast => by cases hsome.symm.trans hlast⟩

/-- After a token something was passed. -/
theorem Ahead.exists_last (h : S.Ahead c) (hlt : c.rest.length < S.text.length) :
    ∃ l, c.last = some l := by
  cases hlast : c.last with
  | none => exact absurd (congrArg List.length (h.whole hlast)) hlt.ne
  | some l => exact ⟨l, rfl⟩

/-! ### Steps of a cursor -/

theorem passLines_cursor (last : Option Lexeme) (ls : List Lexeme) :
    passLines (S.last last) (ls.map (Lexeme.move S.move)) =
      (S.last (passLines last ls).1, (passLines last ls).2.map (Lexeme.move S.move)) := by
  induction ls generalizing last with
  | nil => rfl
  | cons l ls ih =>
    have htoken : (l.move S.move).token = l.token := rfl
    rw [List.map_cons, passLines, passLines, htoken]
    by_cases hl : l.token = .newline
    · rw [if_pos hl, if_pos hl]
      exact ih (some l)
    · rw [if_neg hl, if_neg hl]
      rfl

theorem settle_cursor (c : Cursor) : (S.cursor c).settle = S.cursor c.settle := by
  have hdepth : (S.cursor c).depth = c.depth := rfl
  unfold settle
  rw [hdepth]
  by_cases hzero : c.depth = 0
  · rw [if_pos hzero, if_pos hzero]
  · rw [if_neg hzero, if_neg hzero]
    show ({ S.cursor c with
      last := (passLines (S.last c.last) (c.rest.map (Lexeme.move S.move))).1
      rest := (passLines (S.last c.last) (c.rest.map (Lexeme.move S.move))).2 } : Cursor) = _
    rw [passLines_cursor]
    rfl

theorem pass_cursor (c : Cursor) : (S.cursor c).pass = S.cursor c.pass := by
  obtain ⟨rest, last, depth, eof, errors⟩ := c
  cases rest <;> rfl

theorem skipLine_cursor (c : Cursor) : (S.cursor c).skipLine = S.cursor c.skipLine := by
  have hlast : ∀ skipped : List Lexeme,
      (skipped.map (Lexeme.move S.move)).getLast?.or (S.last c.last) =
        S.last (skipped.getLast?.or c.last) := by
    intro skipped
    rw [List.getLast?_map]
    cases skipped.getLast? <;> rfl
  have hword : (fun l : Lexeme => decide (l.token ≠ .newline)) ∘ Lexeme.move S.move =
      fun l => decide (l.token ≠ .newline) := rfl
  simp only [skipLine, cursor, List.takeWhile_map, List.dropWhile_map, hword, hlast]

theorem isAt_cursor (c : Cursor) (t : Token) : (S.cursor c).isAt t = c.isAt t := by
  obtain ⟨rest, last, depth, eof, errors⟩ := c
  cases rest <;> rfl

variable (S) in
/-- A reading of the text alone, and one after what comes before. -/
def tandem : Tandem where
  move := S.move
  extra := 0
  Meet c c' := c' = S.cursor c ∧ S.Ahead c
  move_le _ _ := Nat.add_le_add_iff_right
  length := by
    rintro c _ ⟨rfl, -⟩
    exact List.length_map _
  head := by
    rintro c _ ⟨rfl, -⟩
    exact List.head?_map
  eof := by
    rintro c _ ⟨rfl, -⟩ -
    rfl
  settle := by
    rintro c _ ⟨rfl, h⟩
    exact ⟨settle_cursor c, h.onward (onward_settle c)⟩
  read := by
    rintro c _ l ls ls' ⟨rfl, h⟩ hrest hrest' -
    rw [settle_cursor] at hrest'
    have hls : ls' = ls.map (Lexeme.move S.move) := by
      have hmap := hrest'.symm.trans (congrArg (List.map (Lexeme.move S.move)) hrest)
      exact (List.cons.inj hmap).2
    refine ⟨?_, h.onward ((onward_settle c).trans (.one hrest rfl rfl))⟩
    rw [after, settle_cursor, hls]
    rfl
  noting := by
    rintro c _ e ⟨rfl, h⟩
    refine ⟨?_, h.suffix, h.whole⟩
    simp [cursor]

section Steps

variable {α β : Type} {g : α → α} {h : β → β} {R : β → Cursor → Prop}

/-- Cursors that meet stand in the text. -/
theorem runs_ahead {m m' : Reading α} {Q : α → Cursor → Prop}
    (hm : S.Ahead c → S.tandem.Runs g m m' c Q) : S.tandem.Runs g m m' c Q :=
  fun c' hmeet => hm hmeet.2 c' hmeet

/-- Looking at the cursor. -/
theorem runs_get {f f' : Cursor → Reading β}
    (hf : S.Ahead c → S.tandem.Runs h (f c) (f' (S.cursor c)) c R) :
    S.tandem.Runs h (get >>= f) (get >>= f') c R := by
  rintro _ ⟨rfl, hc⟩
  exact hf hc _ ⟨rfl, hc⟩

theorem parses_get {f f' : Cursor → Parse β}
    (hf : S.Ahead c → S.tandem.Parses h (f c) (f' (S.cursor c)) c R) :
    S.tandem.Parses h (get >>= f) (get >>= f') c R := by
  rintro _ ⟨rfl, hc⟩
  exact hf hc _ ⟨rfl, hc⟩

/-- A change of the cursor. -/
theorem runs_modify {f f' : Cursor → Cursor} (hsame : f' (S.cursor c) = S.cursor (f c))
    (hon : Onward c (f c)) :
    S.tandem.Runs id (modify f) (modify f') c fun _ mid => mid = f c := by
  rintro _ ⟨rfl, hc⟩
  exact ⟨rfl, ⟨hsame, hc.onward hon⟩, hon.length_le, rfl⟩

theorem runs_closeBrackets (c : Cursor) :
    S.tandem.Runs id closeBrackets closeBrackets c fun _ mid => mid = { c with depth := 0 } :=
  runs_modify rfl (onward_depth c 0)

/-- Passing the next token. -/
theorem runs_pass (c : Cursor) :
    S.tandem.Runs id (set c.pass) (set (S.cursor c).pass) c fun _ mid => mid = c.pass := by
  rintro _ ⟨rfl, hc⟩
  exact ⟨rfl, ⟨pass_cursor c, hc.onward (onward_pass c)⟩, (onward_pass c).length_le, rfl⟩

theorem runs_advance (c : Cursor) :
    S.tandem.Runs (Option.map (Lexeme.move S.move)) advance advance c fun _ mid =>
      c.settle.rest ≠ [] → mid.rest.length < c.rest.length := by
  rintro _ ⟨rfl, hc⟩
  cases hrest : c.settle.rest with
  | nil =>
    have hrest' : (S.cursor c).settle.rest = [] := by
      rw [settle_cursor]
      exact congrArg (List.map (Lexeme.move S.move)) hrest
    have hsettle := S.tandem.settle (c := c) ⟨rfl, hc⟩
    rw [advance_run_nil hrest, advance_run_nil hrest']
    exact ⟨rfl, hsettle, Tandem.length_settle_le c, fun h => absurd rfl h⟩
  | cons l ls =>
    have hrest' : (S.cursor c).settle.rest = l.move S.move :: ls.map (Lexeme.move S.move) := by
      rw [settle_cursor]
      exact congrArg (List.map (Lexeme.move S.move)) hrest
    have hlt := Tandem.length_after_lt hrest
    rw [advance_run_cons hrest, advance_run_cons hrest']
    have hon : Onward c (after c l ls) := (onward_settle c).trans (.one hrest rfl rfl)
    refine ⟨rfl, ⟨?_, hc.onward hon⟩, hlt.le, fun _ => hlt⟩
    rw [after, settle_cursor]
    rfl

/-- A note that is made in some cases only. -/
theorem runs_when {p : Prop} [Decidable p] (fault : Fault) (span : Span) {k k' : Reading β}
    (hk : ∀ mid, mid.rest.length ≤ c.rest.length → S.tandem.Runs h k k' mid R) :
    S.tandem.Runs h (if p then do report fault span; k else k)
      (if p then do report fault (span.move S.move); k' else k') c R :=
  .ite Iff.rfl (fun _ => (Tandem.runs_report fault rfl c).bind fun _ mid hle _ => hk mid hle)
    fun _ => hk c (Nat.le_refl _)

end Steps

/-! ### The ends of lines -/

theorem unstuck_cursor (c : Cursor) (ahead : Nat) :
    (S.cursor c).unstuck ahead = S.cursor (c.unstuck ahead) := by
  have hlength : (S.cursor c).rest.length = c.rest.length := List.length_map _
  rw [unstuck, unstuck, hlength, isAt_cursor, pass_cursor, apply_ite S.cursor]

/-- A stretch up to what was passed last. -/
theorem join_lastSpan (h : c.last = some l) (s : Span) :
    (s.move S.move).join (S.cursor c).lastSpan = (s.join c.lastSpan).move S.move := by
  have hlast : (S.cursor c).lastSpan = c.lastSpan.move S.move := by
    simp only [lastSpan, cursor, last, h]
    rfl
  rw [hlast]
  exact (S.tandem.move_join s c.lastSpan).symm

/-- A recovery passes the first token at least, unless the line is at its end. -/
theorem length_skipLine_lt (hsuffix : c.rest <:+ S.text) (hstart : start <:+ S.text)
    (hhead : start.head? = some l) (hl : l.token ≠ .newline)
    (hlength : c.rest.length ≤ start.length) :
    (c.unstuck start.length).skipLine.rest.length < start.length := by
  unfold unstuck
  obtain hlt | hsame := hlength.lt_or_eq
  · rw [if_neg (by omega)]
    exact (onward_skipLine c).length_le.trans_lt hlt
  · obtain ⟨ls, hls⟩ := List.head?_eq_some_iff.mp hhead
    have hrest : c.rest = l :: ls := by
      rw [← hls]
      exact (List.suffix_of_suffix_length_le hsuffix hstart hsame.le).eq_of_length hsame
    have hpass : c.pass.rest = ls := by rw [Cursor.pass, hrest]
    rw [if_pos ⟨hsame, by simp [isAt, hrest, hl]⟩]
    refine (onward_skipLine c.pass).length_le.trans_lt ?_
    rw [hpass, hls]
    exact Nat.lt_succ_self _

theorem runs_recover (hstart : start <:+ S.text) (e : SyntaxError) (c : Cursor) :
    S.tandem.Runs S.tree (recover start e)
      (recover (start.map (Lexeme.move S.move)) (e.move S.move)) c fun _ mid =>
        ∀ l ∈ start.head?, l.token ≠ .newline → c.rest.length ≤ start.length →
          mid.rest.length < start.length := by
  rintro _ ⟨rfl, hc⟩
  have hskip := fun l => length_skipLine_lt (l := l) hc.suffix hstart
  have hon : Onward c (c.unstuck start.length).skipLine :=
    (onward_unstuck c _).trans (onward_skipLine _)
  rw [recover_eq, recover_eq, List.length_map, unstuck_cursor]
  generalize c.unstuck start.length = mid at hskip hon
  have hstop := hc.onward hon
  rw [skipLine_cursor]
  refine ⟨?_, ⟨?_, hstop.suffix, hstop.whole⟩, hon.length_le, hskip⟩
  · have hlength : (S.cursor mid.skipLine).rest.length = mid.skipLine.rest.length :=
      List.length_map _
    dsimp only
    rw [hlength]
    by_cases hlt : mid.skipLine.rest.length < start.length
    · -- Something was passed, so the node ends with it.
      obtain ⟨l, hlast⟩ := hstop.exists_last (hlt.trans_le hstart.length_le)
      have hfirst : ((start.map (Lexeme.move S.move)).head?.map Lexeme.span).getD
          (e.move S.move).span =
            ((start.head?.map Lexeme.span).getD e.span).move S.move := by
        cases start <;> rfl
      rw [if_pos hlt, if_pos hlt, hfirst]
      exact congrArg (Tree.malformed · e.fault) (join_lastSpan hlast _)
    · rw [if_neg hlt, if_neg hlt]
      rfl
  · simp [cursor]

/-- The end of a line, when a token was read before. -/
theorem runs_finishLine (hlt : c.rest.length < S.text.length) :
    S.tandem.Runs (List.map S.tree) finishLine finishLine c fun _ _ => True := by
  refine (runs_closeBrackets c).bind fun _ mid hle hmid => runs_get fun hahead => ?_
  -- What was passed last is of the text, so it is a line end in both readings or in none.
  obtain ⟨last, hlast⟩ := hahead.exists_last (hle.trans_lt hlt)
  have hlast' : (S.cursor mid).last = some (last.move S.move) := by rw [cursor, hlast]; rfl
  rw [hlast, hlast']
  refine .ite Iff.rfl (fun _ => .pure rfl trivial) fun _ => ?_
  have hrest' : (S.cursor mid).rest = mid.rest.map (Lexeme.move S.move) := rfl
  rw [hrest']
  have hsuffix := hahead.suffix
  cases hrest : mid.rest with
  | nil => exact .pure rfl trivial
  | cons l ls =>
    rw [hrest] at hsuffix
    refine .ite Iff.rfl (fun _ => ?_) fun _ => ?_
    · exact (runs_pass mid).bind fun _ _ _ _ => .pure rfl trivial
    · refine (S.tandem.runs_unexpected _ mid).bind fun e mid' _ _ => ?_
      exact (runs_recover hsuffix e mid').bind fun node _ _ _ => .pure rfl trivial

theorem runs_finishHeader (hlt : c.rest.length < S.text.length) :
    S.tandem.Runs id finishHeader finishHeader c fun _ _ => True :=
  (runs_finishLine hlt).discarded

/-- What a rule fails on becomes one node. -/
theorem runs_orRecover {p : Parse (Tree Span)} {Q : Tree Span → Cursor → Prop}
    (hp : S.tandem.Parses S.tree p p c Q) :
    S.tandem.Runs S.tree (orRecover p) (orRecover p) c fun _ _ => True := by
  refine runs_get fun hahead => ?_
  refine Tandem.Runs.bind hp fun r mid _ _ => ?_
  cases r with
  | ok t => exact .pure rfl trivial
  | error e => exact (runs_recover hahead.suffix e mid).mono fun _ _ _ _ => trivial

/-! ### Selections -/

section Blocks

variable {inner : Level} {block : Reading (List (Tree Span))} {α β : Type} {g : α → α}
  {h : β → β} {R : β → Cursor → Prop}

/-- The block is the same after what comes before. -/
def Blocks (S : Shift) (block : Reading (List (Tree Span))) : Prop :=
  ∀ c, S.tandem.Runs (List.map S.tree) block block c fun _ _ => True

/-- Conditions and blocks, after what comes before. -/
def branches (S : Shift) (r : List (Tree Span) × List (List (Tree Span))) :
    List (Tree Span) × List (List (Tree Span)) :=
  (r.1.map S.tree, r.2.map (List.map S.tree))

/-- A condition and the block that it guards. -/
theorem runs_guarded (hinner : S.tandem.CarriesLevel inner) (hblock : S.Blocks block)
    {k k' : Tree Span → List (Tree Span) → Reading β} (hlt : c.rest.length < S.text.length)
    (hk : ∀ condition body mid, mid.rest.length ≤ c.rest.length →
      S.tandem.Runs h (k condition body) (k' (S.tree condition) (body.map S.tree)) mid R) :
    S.tandem.Runs h
      (do
        let condition ← orRecover inner.expression
        finishHeader
        let body ← block
        k condition body)
      (do
        let condition ← orRecover inner.expression
        finishHeader
        let body ← block
        k' condition body) c R := by
  refine (runs_orRecover (hinner.expression c)).bind fun condition mid hle _ => ?_
  refine (runs_finishHeader (hle.trans_lt hlt)).bind fun _ mid' hle' _ => ?_
  exact (hblock mid').bind fun body mid'' hle'' _ =>
    hk condition body mid'' (hle''.trans (hle'.trans hle))

theorem runs_moreBranches (hinner : S.tandem.CarriesLevel inner) (hblock : S.Blocks block)
    (rounds : Nat) (seenElse : Bool) (hlt : c.rest.length < S.text.length) :
    S.tandem.Runs S.branches (moreBranches inner block rounds seenElse)
      (moreBranches inner block rounds seenElse) c fun _ _ => True := by
  induction rounds generalizing seenElse c with
  | zero => exact .pure rfl trivial
  | succ rounds ih =>
    refine (runs_closeBrackets c).bind fun _ mid hle hmid => runs_get fun hahead => ?_
    replace hlt := hle.trans_lt hlt
    have hhead' : (S.cursor mid).rest.head? = mid.rest.head?.map (Lexeme.move S.move) :=
      List.head?_map
    rw [hhead']
    -- Without a word that goes on with the selection there is the same error in both texts.
    have hother : S.tandem.Runs S.branches
        (do
          let error ← unexpected (.token .kwEndif)
          report error.fault error.span
          return ([], []))
        (do
          let error ← unexpected (.token .kwEndif)
          report error.fault error.span
          return ([], [])) mid fun _ _ => True :=
      (S.tandem.runs_unexpected _ mid).bind fun e _ _ _ =>
        (Tandem.runs_report e.fault rfl _).bind fun _ _ _ _ => .pure rfl trivial
    cases hhead : mid.rest.head? with
    | none => exact hother
    | some l =>
      obtain ⟨token, span, raw⟩ := l
      cases token with
      | kwElif =>
        refine runs_when .elifAfterElse span fun mid₁ hle₁ => ?_
        refine (runs_advance mid₁).discard fun _ mid₂ hle₂ _ => ?_
        replace hlt := (hle₂.trans hle₁).trans_lt hlt
        refine runs_guarded hinner hblock hlt fun condition body mid₃ hle₃ => ?_
        exact (ih seenElse (hle₃.trans_lt hlt)).bind fun r _ _ _ => .pure rfl trivial
      | kwElse =>
        refine runs_when .repeatedElse span fun mid₁ hle₁ => ?_
        refine (runs_advance mid₁).discard fun _ mid₂ hle₂ _ => ?_
        replace hlt := (hle₂.trans hle₁).trans_lt hlt
        refine (runs_finishHeader hlt).bind fun _ mid₃ hle₃ _ => ?_
        refine (hblock mid₃).bind fun body mid₄ hle₄ _ => ?_
        exact (ih true ((hle₄.trans hle₃).trans_lt hlt)).bind fun r _ _ _ => .pure rfl trivial
      | kwEndif => exact (runs_advance mid).discard fun _ _ _ _ => .pure rfl trivial
      | _ => exact hother

theorem runs_selection (hinner : S.tandem.CarriesLevel inner) (hblock : S.Blocks block)
    (hrest : c.settle.rest ≠ []) :
    S.tandem.Runs S.tree (selection inner block) (selection inner block) c fun _ mid =>
      mid.rest.length < c.rest.length := by
  refine runs_ahead fun hc => (Tandem.runs_here c).bind fun start mid hle hmid => ?_
  subst hmid
  refine (runs_advance _).discard fun _ mid _ hread => ?_
  -- The word was read, so from here on something of the text was passed.
  replace hread := (hread (by rwa [c.settle_settle])).trans_le hle
  have hlt := hread.trans_le hc.suffix.length_le
  refine runs_guarded hinner hblock hlt fun condition body mid₁ hle₁ => runs_get fun _ => ?_
  have hrounds : (S.cursor mid₁).rest.length = mid₁.rest.length := List.length_map _
  rw [hrounds]
  replace hlt := hle₁.trans_lt hlt
  refine (runs_moreBranches hinner hblock _ false hlt).bind fun r mid₂ hle₂ _ =>
    runs_get fun hahead => .pure ?_ (by omega)
  obtain ⟨last, hlast⟩ := hahead.exists_last (hle₂.trans_lt hlt)
  obtain ⟨conditions, bodies⟩ := r
  show Tree.selection ((start.move S.move).join (S.cursor mid₂).lastSpan) _ =
    Tree.selection _ (Branches.map _ _)
  rw [join_lastSpan hlast, Branches.map_ofLists]
  rfl

/-! ### Loops -/

theorem parses_loopVariables (rounds : Nat) (c : Cursor) :
    S.tandem.Parses (List.map S.tree) (loopVariables rounds) (loopVariables rounds) c
      fun _ mid => mid.rest.length < c.rest.length := by
  induction rounds generalizing c with
  | zero => exact Tandem.parses_failWanting _
  | succ rounds ih =>
    refine Tandem.parses_peek ?_
    cases hhead : c.settle.rest.head? with
    | none => exact Tandem.parses_failWanting _
    | some l =>
      obtain ⟨token, span, raw⟩ := l
      cases token with
      | name name =>
        refine Tandem.parses_read hhead (by simp) fun ls hrest => ?_
        have hlt := Tandem.length_after_lt hrest
        refine Tandem.parses_eat (by decide) ?_ fun l ls hrest' => ?_
        · exact .pure rfl ((Tandem.length_settle_le _).trans_lt hlt)
        · refine (ih _).bind fun names mid hle _ => .pure rfl ?_
          exact hle.trans_lt ((Tandem.length_after_lt hrest').trans hlt)
      | _ => exact Tandem.parses_failWanting _

/-- The header of a loop, after what comes before. -/
def header (S : Shift) (r : List (Tree Span) × Tree Span) : List (Tree Span) × Tree Span :=
  (r.1.map S.tree, S.tree r.2)

theorem parses_loopHeader (hinner : S.tandem.CarriesLevel inner) (c : Cursor) :
    S.tandem.Parses S.header (loopHeader inner) (loopHeader inner) c fun _ _ => True := by
  refine parses_get fun hc => ?_
  have hrounds : (S.cursor c).rest.length = c.rest.length := List.length_map _
  rw [hrounds]
  refine (parses_loopVariables _ c).bind fun names mid hle hlt => ?_
  refine .ite (by rw [List.length_map]) (fun hmany => ?_) fun _ => ?_
  · refine parses_get fun hahead => ?_
    obtain ⟨last, hlast⟩ := hahead.exists_last (hlt.trans_le hc.suffix.length_le)
    cases names with
    | nil => cases hmany
    | cons first names =>
      refine .throw (congrArg (SyntaxError.mk .tooManyVariables) ?_)
      show (S.tree first).note.join (S.cursor mid).lastSpan = _
      rw [Tree.note_map, join_lastSpan hlast]
      rfl
  · refine (Tandem.parses_discard_expect (by decide)).bind fun _ mid₁ _ _ => ?_
    exact (hinner.expression mid₁).bind fun iterable _ _ _ => .pure rfl trivial

theorem runs_headerOrRecover (hinner : S.tandem.CarriesLevel inner) (c : Cursor) :
    S.tandem.Runs S.header (headerOrRecover inner) (headerOrRecover inner) c fun _ _ => True := by
  refine runs_get fun hahead => ?_
  refine Tandem.Runs.bind (parses_loopHeader hinner c) fun r mid _ _ => ?_
  cases r with
  | ok header => exact .pure rfl trivial
  | error e => exact (runs_recover hahead.suffix e mid).bind fun _ _ _ _ => .pure rfl trivial

theorem runs_closeLoop (c : Cursor) :
    S.tandem.Runs id closeLoop closeLoop c fun _ _ => True := by
  refine (runs_closeBrackets c).bind fun _ mid _ _ => runs_get fun _ => ?_
  refine .ite (by rw [isAt_cursor]) (fun _ => ?_) fun _ => ?_
  · exact (runs_advance mid).discarded
  · refine (S.tandem.runs_unexpected _ mid).bind fun e mid' _ _ => ?_
    exact (Tandem.runs_report e.fault rfl mid').mono fun _ _ _ _ => trivial

theorem runs_iteration (hinner : S.tandem.CarriesLevel inner) (hblock : S.Blocks block)
    (hrest : c.settle.rest ≠ []) :
    S.tandem.Runs S.tree (iteration inner block) (iteration inner block) c fun _ mid =>
      mid.rest.length < c.rest.length := by
  refine runs_ahead fun hc => (Tandem.runs_here c).bind fun start mid hle hmid => ?_
  subst hmid
  refine (runs_advance _).discard fun _ mid _ hread => ?_
  replace hread := (hread (by rwa [c.settle_settle])).trans_le hle
  have hlt := hread.trans_le hc.suffix.length_le
  refine (runs_headerOrRecover hinner mid).bind fun header mid₁ hle₁ _ => ?_
  refine (runs_finishHeader (hle₁.trans_lt hlt)).bind fun _ mid₂ hle₂ _ => ?_
  refine (hblock mid₂).bind fun body mid₃ hle₃ _ => ?_
  refine (runs_closeLoop mid₃).bind fun _ mid₄ hle₄ _ => runs_get fun hahead =>
    .pure ?_ (by omega)
  obtain ⟨last, hlast⟩ := hahead.exists_last (by omega)
  show Tree.iteration ((start.move S.move).join (S.cursor mid₄).lastSpan) _ _ _ = Tree.map _ _
  rw [join_lastSpan hlast, Tree.map, Tree.mapAll_eq_map, Tree.mapAll_eq_map]

end Blocks

/-! ### Blocks and statements -/

/-- The statement is the same after what comes before. One that succeeds has read a token. -/
def CarriesLine (S : Shift) (one : Parse (Tree Span)) : Prop :=
  ∀ c, S.tandem.Parses S.tree one one c fun _ mid => mid.rest.length < c.rest.length

/-- Every round reads a token, so more rounds than lexemes are ahead change nothing. -/
theorem runs_blockRounds {one : Parse (Tree Span)} (hone : S.CarriesLine one) (top : Bool)
    {rounds rounds' : Nat} (hrounds : c.rest.length < rounds) (hrounds' : c.rest.length < rounds') :
    S.tandem.Runs (List.map S.tree) (blockRounds one top rounds) (blockRounds one top rounds') c
      fun _ _ => True := by
  induction rounds generalizing c rounds' with
  | zero => exact absurd hrounds (Nat.not_lt_zero _)
  | succ rounds ih =>
    -- The two numbers of rounds may differ, but neither is used up.
    obtain ⟨rounds', rfl⟩ := Nat.exists_eq_succ_of_ne_zero (Nat.ne_zero_of_lt hrounds')
    refine (runs_closeBrackets c).bind fun _ mid hle _ => runs_get fun hahead => ?_
    have hrest' : (S.cursor mid).rest = mid.rest.map (Lexeme.move S.move) := rfl
    rw [hrest']
    have hsuffix := hahead.suffix
    cases hrest : mid.rest with
    | nil => exact .pure rfl trivial
    | cons l ls =>
      rw [hrest] at hle hsuffix
      -- A node for what failed reaches behind the first token.
      have hrecover : l.token ≠ .newline → ∀ e mid', mid'.rest.length ≤ (l :: ls).length →
          S.tandem.Runs (List.map S.tree)
            (do let node ← recover (l :: ls) e; return node :: (← blockRounds one top rounds))
            (do
              let node ← recover ((l :: ls).map (Lexeme.move S.move)) (e.move S.move)
              return node :: (← blockRounds one top rounds')) mid' fun _ _ => True := by
        intro hline e mid' hle'
        refine (runs_recover hsuffix e mid').bind fun node mid'' _ hlt => ?_
        replace hlt := (hlt l rfl hline hle').trans_le hle
        exact (ih (by omega) (by omega)).bind fun _ _ _ _ => .pure rfl trivial
      refine .ite Iff.rfl (fun _ => ?_) fun hline => ?_
      · refine (runs_pass mid).bind fun _ mid' _ hmid' => ?_
        have hlt : mid'.rest.length < c.rest.length := by
          rw [hmid', Cursor.pass, hrest]
          exact hle
        exact ih (by omega) (by omega)
      refine .ite Iff.rfl (fun _ => ?_) fun _ => ?_
      · refine .ite Iff.rfl (fun _ => ?_) fun _ => .pure rfl trivial
        exact hrecover hline ⟨.unexpected l.token, l.span⟩ mid (by rw [hrest])
      · refine Tandem.Runs.bind (hone mid) fun r mid' hle' hresult => ?_
        rw [hrest] at hle' hresult
        cases r with
        | error e => exact hrecover hline e mid' hle'
        | ok t =>
          replace hresult := hresult t rfl
          have hlt := hresult.trans_le hle
          refine (runs_finishLine (hresult.trans_le hsuffix.length_le)).bind
            fun junk mid'' hle'' _ => ?_
          refine (ih (by omega) (by omega)).bind fun more _ _ _ => .pure ?_ trivial
          rw [List.map_cons, List.map_append]

theorem blocks_block {one : Parse (Tree Span)} (hone : S.CarriesLine one) (top : Bool) :
    S.Blocks (block one top) := by
  refine fun c => runs_get fun _ => ?_
  have hrounds : (S.cursor c).rest.length = c.rest.length := List.length_map _
  rw [hrounds]
  exact runs_blockRounds hone top (Nat.lt_succ_self _) (Nat.lt_succ_self _)

theorem carriesLine_of_inner {room : Nat} (hinner : ∀ k < room, S.CarriesLine (statement k)) :
    S.CarriesLine (statement room) := by
  intro c
  unfold statement
  refine Tandem.parses_peek ?_
  rw [Tandem.map_token_move]
  have hle := Tandem.length_settle_le c
  have hsimple : S.tandem.Parses S.tree (simpleStatement (level room))
      (simpleStatement (level room)) c.settle fun _ mid => mid.rest.length < c.rest.length :=
    (Tandem.carries_simpleStatement (Tandem.carries_level room) c.settle).mono
      fun _ _ _ h => h.shorter.trans_le hle
  cases hhead : c.settle.rest.head? with
  | none => exact hsimple
  | some l =>
    have hahead : c.settle.settle.rest ≠ [] := by
      rw [c.settle_settle]
      rintro hnil
      rw [hnil] at hhead
      cases hhead
    -- A statement of one word is as long as its word.
    have hword : l.token ≠ .newline → ∀ node : Span → Tree Span,
        (∀ span, S.tree (node span) = node (span.move S.move)) → S.tandem.Parses S.tree
          (do let span ← here; discard advance; return node span)
          (do let span ← here; discard advance; return node span) c.settle
          fun _ mid => mid.rest.length < c.rest.length := by
      intro hl node hnode
      obtain ⟨ls, hrest⟩ := List.head?_eq_some_iff.mp hhead
      exact (Tandem.parses_word node hnode (settle_rest_settle hrest) hl).mono
        fun _ _ _ h => h.trans_le hle
    obtain ⟨token, span, raw⟩ := l
    cases token with
    | kwIf =>
      cases room with
      | zero => exact Tandem.parses_tooDeep
      | succ room =>
        have hblock := blocks_block (hinner room (Nat.lt_succ_self _)) false
        exact .lifted ((runs_selection (Tandem.carries_level room) hblock hahead).mono
          fun _ _ _ h => h.trans_le hle)
    | kwForeach =>
      cases room with
      | zero => exact Tandem.parses_tooDeep
      | succ room =>
        have hblock := blocks_block (hinner room (Nat.lt_succ_self _)) false
        exact .lifted ((runs_iteration (Tandem.carries_level room) hblock hahead).mono
          fun _ _ _ h => h.trans_le hle)
    | kwBreak => exact hword (by simp) .breakLoop fun _ => rfl
    | kwContinue => exact hword (by simp) .continueLoop fun _ => rfl
    | _ => exact hsimple

/-- Statements are the same after what comes before, as deep as they nest. -/
theorem carriesLine_statement (room : Nat) : S.CarriesLine (statement room) := by
  induction room using Nat.strongRecOn with
  | ind room ih => exact carriesLine_of_inner ih

end Shift

namespace Parse

theorem statements_eq (lexemes : List Lexeme) (eof : Position) :
    statements lexemes eof =
      let r := (blockRounds (statement maxNesting) true (lexemes.length + 1)).run
        { rest := lexemes, eof }
      (r.1, r.2.errors) :=
  rfl

/-- A whole text after what comes before. -/
theorem blockRounds_later (text : List Lexeme) (eof : Position) (lines bytes : Nat)
    (before : Lexeme) (errors : List SyntaxError) {rounds : Nat} (hrounds : text.length < rounds) :
    let place := Position.later lines bytes
    let r := (blockRounds (statement maxNesting) true rounds).run
      { rest := text.map (Lexeme.move place), last := some before, eof := place eof, errors }
    r.1 = (statements text eof).1.map (Tree.map (Span.move place)) ∧
      r.2.errors = errors ++ (statements text eof).2.map (SyntaxError.move place) := by
  intro place
  let S : Shift := ⟨lines, bytes, before, errors, text⟩
  let fresh : Cursor := { rest := text, eof }
  have hcursor : S.cursor fresh =
      { rest := text.map (Lexeme.move place), last := some before, eof := place eof, errors } := by
    simp [S, fresh, Shift.cursor, Shift.last, place]
  obtain ⟨htrees, ⟨hend, -⟩, -⟩ := Shift.runs_blockRounds (S := S) (c := fresh)
    (Shift.carriesLine_statement maxNesting) true (Nat.lt_succ_self text.length) hrounds _
    ⟨rfl, List.suffix_refl _, fun _ => rfl⟩
  rw [hcursor] at htrees hend
  exact ⟨htrees, congrArg Cursor.errors hend⟩

end Parse

end MesonLens
