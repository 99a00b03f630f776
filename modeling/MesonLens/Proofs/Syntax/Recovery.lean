import MesonLens.Proofs.Syntax.Grammar
import MesonLens.Proofs.Syntax.Height
import MesonLens.Proofs.Syntax.Tandem
import Mathlib.Data.List.TakeWhile

/-!
# `MesonLens.Proofs.Syntax.Recovery`: where reading goes on after a mistake

A statement that cannot be read becomes one node. The node ends where a line ends, or with the
text. While the statement was read, line ends were passed only inside brackets, and the rest of the
line that was skipped has none. So every line end that the node covers stands inside brackets that
were opened in the node (`SourceFile.endsLine_malformed`).

The line end after the node may stand inside brackets too, because the brackets are forgotten
before the rest of the line is skipped. Then the lines that follow are read as statements, although
they belong to the one that failed (`SourceFile.malformed_ends_inside_brackets`).

* `Lexeme.Enclosed`, `Lexeme.EndsLine`: lexemes whose line ends stand inside brackets, and nodes
  over such lexemes;
* `Cursor.ReadsOn`: what is passed where no statement ends. The rules for lines keep it, which is
  seen by a tandem of a reading with itself (`Parse.readsOn_simpleStatement`);
* `Parse.endsLine_recover`: the node for a statement that failed;
* `Tree.HasStatement`: the statements of a tree, those in blocks included;
* `Parse.settles_statement`: statements and blocks, as deep as they nest.
-/

set_option autoImplicit false

namespace MesonLens

/-! ### Line ends inside brackets -/

namespace Lexeme

/-- How many brackets are open after lexemes. A bracket that closes none does not count. -/
def openAfter (depth : Nat) (ls : List Lexeme) : Nat :=
  ls.foldl (fun depth l => Cursor.depthAfter depth l.token) depth

/-- Every line end among the lexemes stands inside brackets. -/
def Enclosed : Nat → List Lexeme → Prop
  | _, [] => True
  | depth, l :: ls =>
    (l.token = .newline → 0 < depth) ∧ Enclosed (Cursor.depthAfter depth l.token) ls

/-- The stretch runs from the first lexeme to the last one. -/
def Stretch (ls : List Lexeme) (s : Span) : Prop :=
  ∃ first last, ls.head? = some first ∧ ls.getLast? = some last ∧ s = first.span.join last.span

/-- The stretch covers lexemes up to a line end or to the end of the text, and every line end that
it covers stands inside brackets. -/
def EndsLine (lexemes : List Lexeme) (s : Span) : Prop :=
  ∃ before covered after, lexemes = before ++ covered ++ after ∧ Stretch covered s ∧
    Enclosed 0 covered ∧ ∀ l ∈ after.head?, l.token = .newline

variable {ls ms : List Lexeme} {l : Lexeme} {depth : Nat}

theorem openAfter_append : openAfter depth (ls ++ ms) = openAfter (openAfter depth ls) ms :=
  List.foldl_append

theorem enclosed_append :
    Enclosed depth (ls ++ ms) ↔ Enclosed depth ls ∧ Enclosed (openAfter depth ls) ms := by
  induction ls generalizing depth with
  | nil => simp [Enclosed, openAfter]
  | cons l ls ih =>
    rw [List.cons_append, Enclosed, Enclosed, ih, and_assoc]
    rfl

/-- Where no line ends. -/
theorem enclosed_of_ne_newline (h : ∀ l ∈ ls, l.token ≠ .newline) : Enclosed depth ls := by
  induction ls generalizing depth with
  | nil => trivial
  | cons l ls ih =>
    obtain ⟨hl, hls⟩ := List.forall_mem_cons.mp h
    exact ⟨fun hline => absurd hline hl, ih hls⟩

/-- Line ends inside brackets leave the brackets open. -/
theorem enclosed_of_newline (hdepth : 0 < depth) (h : ∀ l ∈ ls, l.token = .newline) :
    openAfter depth ls = depth ∧ Enclosed depth ls := by
  induction ls with
  | nil => exact ⟨rfl, trivial⟩
  | cons l ls ih =>
    obtain ⟨hl, hls⟩ := List.forall_mem_cons.mp h
    have hsame : Cursor.depthAfter depth l.token = depth := by rw [hl]; rfl
    obtain ⟨hopen, henclosed⟩ := ih hls
    refine ⟨?_, fun _ => hdepth, ?_⟩
    · rw [openAfter, List.foldl_cons, hsame]
      exact hopen
    · rw [hsame]
      exact henclosed

end Lexeme

namespace Cursor

open Lexeme (openAfter Enclosed)

/-- From the first cursor to the second lexemes are passed and brackets are counted, and line ends
are passed only inside brackets. -/
def ReadsOn (c c' : Cursor) : Prop :=
  ∃ passed, c.rest = passed ++ c'.rest ∧ c'.last = passed.getLast?.or c.last ∧ c'.eof = c.eof ∧
    c'.depth = openAfter c.depth passed ∧ Enclosed c.depth passed

variable {a b c c' : Cursor} {l : Lexeme} {ls : List Lexeme}

theorem ReadsOn.refl (c : Cursor) : ReadsOn c c := ⟨[], rfl, rfl, rfl, rfl, trivial⟩

theorem ReadsOn.trans (h : ReadsOn a b) (h' : ReadsOn b c) : ReadsOn a c := by
  obtain ⟨passed, hrest, hlast, heof, hdepth, henclosed⟩ := h
  obtain ⟨passed', hrest', hlast', heof', hdepth', henclosed'⟩ := h'
  refine ⟨passed ++ passed', ?_, ?_, heof'.trans heof, ?_, ?_⟩
  · rw [hrest, hrest', List.append_assoc]
  · rw [hlast', hlast, List.getLast?_append, Option.or_assoc]
  · rw [hdepth', hdepth, Lexeme.openAfter_append]
  · rw [Lexeme.enclosed_append, ← hdepth]
    exact ⟨henclosed, henclosed'⟩

theorem ReadsOn.onward (h : ReadsOn c c') : Onward c c' := by
  obtain ⟨passed, hrest, hlast, heof, -⟩ := h
  exact ⟨heof, passed, hrest, hlast⟩

theorem readsOn_settle (c : Cursor) : ReadsOn c c.settle := by
  unfold settle
  split
  · exact .refl c
  · next hdepth =>
    obtain ⟨passed, hrest, hlast, hlines⟩ := passLines_eq c.last c.rest
    obtain ⟨hopen, henclosed⟩ := Lexeme.enclosed_of_newline (Nat.pos_of_ne_zero hdepth) hlines
    exact ⟨passed, hrest, hlast, rfl, hopen.symm, henclosed⟩

theorem readsOn_after (hrest : c.settle.rest = l :: ls) (hl : l.token ≠ .newline) :
    ReadsOn c (Parse.after c l ls) := by
  refine (readsOn_settle c).trans ⟨[l], hrest, rfl, rfl, ?_, fun hline => absurd hline hl, trivial⟩
  rw [c.settle_depth]
  rfl

end Cursor

namespace Tandem

/-- Places that stay keep their order. -/
theorem move_id_le (p q : Position) : (id p).offset ≤ (id q).offset ↔ p.offset ≤ q.offset := Iff.rfl

/-- A reading side by side with itself, from a cursor on. -/
def alone (c₀ : Cursor) : Tandem where
  move := id
  extra := 0
  Meet c c' := c' = c ∧ Cursor.ReadsOn c₀ c
  move_le := move_id_le
  length := by
    rintro _ c ⟨rfl, -⟩
    rfl
  head := by
    rintro _ c ⟨rfl, -⟩
    cases c.rest.head? <;> rfl
  eof := by
    rintro _ c ⟨rfl, -⟩ -
    rfl
  settle := by
    rintro _ c ⟨rfl, h⟩
    exact ⟨rfl, h.trans c.readsOn_settle⟩
  read := by
    rintro _ c l ls ls' ⟨rfl, h⟩ hrest hrest' hl
    rw [hrest] at hrest'
    cases hrest'
    exact ⟨rfl, h.trans (Cursor.readsOn_after hrest hl)⟩
  noting := by
    rintro _ c e ⟨rfl, h⟩
    exact ⟨rfl, h⟩

end Tandem

/-! ### The statements of a tree -/

namespace Tree

variable {α : Type}

/-- The lists of statements that a node has. -/
def bodies : Tree α → List (List (Tree α))
  | file _ ts => [ts]
  | selection _ branches => branches.blocks
  | iteration _ _ _ body => [body]
  | _ => []

/-- The second tree is the first one, or a statement in one of its blocks, or in a block of such a
statement, and so on. -/
inductive HasStatement : Tree α → Tree α → Prop
  | refl (t : Tree α) : HasStatement t t
  | step {t u s : Tree α} {body : List (Tree α)} (hbody : body ∈ t.bodies) (hu : u ∈ body)
    (h : HasStatement u s) : HasStatement t s

/-- Every statement that could not be read ends its line. -/
def EndsLines (lexemes : List Lexeme) (t : Tree Span) : Prop :=
  ∀ s, t.HasStatement s → s.kind = .malformed → Lexeme.EndsLine lexemes s.note

variable {lexemes : List Lexeme} {t : Tree Span}

theorem endsLines_of_bodies (hkind : t.kind ≠ .malformed)
    (h : ∀ body ∈ t.bodies, ∀ u ∈ body, u.EndsLines lexemes) : t.EndsLines lexemes := by
  rintro s (_ | ⟨hbody, hu, hs⟩) hmalformed
  · exact absurd hmalformed hkind
  · exact h _ hbody _ hu s hs hmalformed

theorem endsLines_simple (h : t.kind.isSimple = true) : t.EndsLines lexemes := by
  cases t with
  | file | selection | iteration | malformed => cases h
  | _ => exact endsLines_of_bodies nofun nofun

theorem endsLines_malformed {s : Span} (fault : Fault) (h : Lexeme.EndsLine lexemes s) :
    (malformed s fault).EndsLines lexemes := by
  rintro _ (_ | ⟨hbody, -, -⟩) -
  · exact h
  · cases hbody

end Tree

namespace Parse

open Cursor MesonLens.Tree

variable {lexemes : List Lexeme} {c c' c₀ : Cursor} {l : Lexeme} {ls : List Lexeme}

/-! ### Recovery -/

theorem readsOn_simpleStatement (room : Nat) (c : Cursor) :
    ReadsOn c ((simpleStatement (level room)).on c).2 ∧
      ∀ t, ((simpleStatement (level room)).on c).1 = .ok t → t.kind.isSimple = true := by
  obtain ⟨-, hmeet, -, hresult⟩ := Tandem.carries_simpleStatement
    (T := .alone c) (Tandem.carries_level room) c c ⟨rfl, .refl c⟩
  exact ⟨hmeet.2, fun t ht => (hresult t ht).kind⟩

/-- The rest of a line has no line end, and a line end comes after it. -/
theorem skipLine_eq (c : Cursor) : ∃ skipped, c.rest = skipped ++ c.skipLine.rest ∧
    c.skipLine.last = skipped.getLast?.or c.last ∧ (∀ l ∈ skipped, l.token ≠ .newline) ∧
      ∀ l ∈ c.skipLine.rest.head?, l.token = .newline := by
  refine ⟨c.rest.takeWhile (·.token ≠ .newline), List.takeWhile_append_dropWhile.symm, rfl,
    fun l hl => by simpa using List.mem_takeWhile_imp hl, fun l hl => ?_⟩
  have hstop := List.head?_dropWhile_not (·.token ≠ .newline) c.rest
  have hdrop : (c.rest.dropWhile (·.token ≠ .newline)).head? = some l := hl
  rw [hdrop] at hstop
  simpa using hstop

/-- Where a rule failed at its first token, the token is passed. -/
theorem passes_first (hon : ReadsOn c₀ c) (hdepth : c₀.depth = 0) (hrest : c₀.rest = l :: ls)
    (hl : l.token ≠ .newline) :
    let mid := c.unstuck (l :: ls).length
    ∃ more, c₀.rest = l :: more ++ mid.rest ∧ mid.last = (l :: more).getLast?.or c₀.last ∧
      Lexeme.Enclosed 0 (l :: more) := by
  intro mid
  obtain ⟨passed, hpassed, hlast, -, -, henclosed⟩ := hon
  rw [hdepth] at henclosed
  cases passed with
  | nil =>
    -- Nothing was passed, so the recovery passes the first token.
    have hahead : c.rest = l :: ls := hpassed.symm.trans hrest
    have hpass : mid = c.pass := if_pos ⟨by rw [hahead], by simp [isAt, hahead, hl]⟩
    rw [hpass, Cursor.pass, hahead, hrest]
    exact ⟨[], rfl, rfl, fun hline => absurd hline hl, trivial⟩
  | cons first more =>
    have hfirst : first = l := (List.cons.inj (hpassed.symm.trans hrest)).1
    -- The rule failed further on, so the recovery starts where it failed.
    have hsame : mid = c := by
      refine if_neg fun h => ?_
      have hlength := congrArg List.length (hrest.symm.trans hpassed)
      rw [List.length_append, ← h.1, List.length_cons] at hlength
      omega
    rw [hsame, ← hfirst]
    exact ⟨more, hpassed, hlast, henclosed⟩

/-- A statement that failed ends with its line. -/
theorem endsLine_recover (hon : ReadsOn c₀ c) (hdepth : c₀.depth = 0) (hrest : c₀.rest = l :: ls)
    (hl : l.token ≠ .newline) (hlexemes : c₀.rest <:+ lexemes) (e : SyntaxError) :
    ((recover (l :: ls) e).run c).1.EndsLines lexemes := by
  obtain ⟨more, hread, hlast, henclosed⟩ := passes_first hon hdepth hrest hl
  generalize hmid : c.unstuck (l :: ls).length = mid at hread hlast
  obtain ⟨skipped, hskip, hlast', hskipped, hstop⟩ := skipLine_eq mid
  have hsplit : c₀.rest = l :: (more ++ skipped) ++ mid.skipLine.rest := by
    rw [hread, hskip]
    simp
  -- The node reaches from the first lexeme to the last one that was passed.
  obtain ⟨last, hlastOf⟩ : ∃ last, (l :: (more ++ skipped)).getLast? = some last :=
    ⟨_, List.getLast?_cons⟩
  have hspan : mid.skipLine.lastSpan = last.span := by
    refine lastSpan_of_last ?_
    rw [hlast', hlast, ← Option.or_assoc, ← List.getLast?_append, List.cons_append, hlastOf]
    rfl
  have hnode : (recover (l :: ls) e).run c =
      (.malformed (l.span.join last.span) e.fault,
        { mid.skipLine with errors := mid.skipLine.errors ++ [e] }) := by
    have hshorter : mid.skipLine.rest.length < (l :: ls).length := by
      rw [← hrest, hsplit, List.length_append, List.length_cons]
      omega
    rw [recover_eq, hmid]
    show (Tree.malformed (if mid.skipLine.rest.length < (l :: ls).length then
      l.span.join mid.skipLine.lastSpan else e.span) e.fault, _) = _
    rw [if_pos hshorter, hspan]
  obtain ⟨before, hbefore⟩ := hlexemes
  rw [hnode]
  refine endsLines_malformed e.fault ⟨before, l :: (more ++ skipped), mid.skipLine.rest, ?_, ?_,
    ?_, hstop⟩
  · rw [← hbefore, hsplit, List.append_assoc]
  · exact ⟨l, last, rfl, hlastOf, rfl⟩
  · rw [← List.cons_append, Lexeme.enclosed_append]
    exact ⟨henclosed, Lexeme.enclosed_of_ne_newline hskipped⟩

/-! ### Blocks -/

/-- The cursor stands in the text of the lexemes. -/
structure Within (lexemes : List Lexeme) (c : Cursor) : Prop where
  ordered : c.Ordered
  rest : c.rest <:+ lexemes

theorem Within.onward (h : Within lexemes c) (hon : Onward c c') : Within lexemes c' := by
  refine ⟨(hon.ordered h.ordered).1, ?_⟩
  obtain ⟨-, passed, hrest, -⟩ := hon
  exact (hrest ▸ List.suffix_append passed c'.rest).trans h.rest

theorem Within.closed (h : Within lexemes c) : Within lexemes { c with depth := 0 } :=
  h.onward (onward_depth c 0)

/-- Every statement of a block that could not be read ends its line. -/
def Settles (lexemes : List Lexeme) (m : Reading (List (Tree Span))) : Prop :=
  ∀ c, Within lexemes c → ∀ t ∈ (m.run c).1, t.EndsLines lexemes

/-- The same for the blocks of one statement. A statement that fails has passed line ends inside
brackets only. -/
def SettlesLine (lexemes : List Lexeme) (m : Parse (Tree Span)) : Prop :=
  ∀ c, Within lexemes c → c.depth = 0 → match m.on c with
    | (.ok t, _) => t.EndsLines lexemes
    | (.error _, c') => ReadsOn c c'

theorem settles_finishLine : Settles lexemes finishLine := by
  intro c hc
  obtain hrun | ⟨l, ls, hrest, hl, hrun⟩ | ⟨l, ls, hrest, hl, hrun⟩ := finishLine_cases c
  · rw [hrun]
    exact nofun
  · rw [hrun]
    exact nofun
  · rw [hrun]
    have hon : ReadsOn { c with depth := 0 }
        ((unexpected .endOfLine).run { c with depth := 0 }).2 := by
      rw [unexpected_run]
      exact readsOn_settle _
    exact List.forall_mem_singleton.mpr (endsLine_recover hon rfl hrest hl hc.closed.rest _)

theorem settles_blockRounds {one : Parse (Tree Span)} (hplaces : PlacesLine one)
    (hone : SettlesLine lexemes one) (top : Bool) (rounds : Nat) :
    Settles lexemes (blockRounds one top rounds) := by
  induction rounds with
  | zero => exact fun c _ => nofun
  | succ rounds ih =>
    intro c hc
    cases hrest : c.rest with
    | nil =>
      rw [blockRounds_run_nil hrest]
      exact nofun
    | cons l ls =>
      -- A statement that failed goes before what the further rounds give.
      have hrecover : l.token ≠ .newline → ∀ e c', ReadsOn { c with depth := 0 } c' →
          let node := (recover (l :: ls) e).run c'
          let rest := (blockRounds one top rounds).run node.2
          ∀ t ∈ node.1 :: rest.1, t.EndsLines lexemes := by
        intro hline e c' hon node rest
        have hnode := placed_recover_cons (e := e) hc.closed.ordered hon.onward hrest hline
        exact List.forall_mem_cons.mpr ⟨endsLine_recover hon rfl hrest hline hc.closed.rest e,
          ih _ (hc.closed.onward hnode.1)⟩
      by_cases hline : l.token = .newline
      · rw [blockRounds_run_newline hrest hline]
        exact ih _ (hc.onward (.one hrest rfl rfl))
      cases hword : l.token.closesBlock with
      | true =>
        cases top with
        | false =>
          rw [blockRounds_run_closes hrest hword]
          exact nofun
        | true =>
          rw [blockRounds_run_stray hrest hword]
          exact hrecover hline _ _ (.refl _)
      | false =>
        rw [blockRounds_run_statement hrest hline hword]
        have hresult := hone _ hc.closed rfl
        have hon := (hplaces _ rfl hc.closed.ordered).1
        rcases hrun : one.on { c with depth := 0 } with ⟨e | t, c'⟩
        · rw [hrun] at hresult
          exact hrecover hline e c' hresult
        · rw [hrun] at hresult hon
          have hc' := hc.closed.onward hon
          have hfinish := (spread_finishLine hc'.ordered).1
          refine List.forall_mem_cons.mpr ⟨hresult, ?_⟩
          exact List.forall_mem_append.mpr ⟨settles_finishLine _ hc', ih _ (hc'.onward hfinish)⟩

theorem settles_block {one : Parse (Tree Span)} (hplaces : PlacesLine one)
    (hone : SettlesLine lexemes one) (top : Bool) : Settles lexemes (block one top) := fun c hc =>
  settles_blockRounds hplaces hone top (c.rest.length + 1) c hc

/-! ### Selections and loops -/

section Blocks

variable {block : Reading (List (Tree Span))} (room : Nat)

theorem settles_moreBranches (hlays : Lays block) (hblock : Settles lexemes block) (rounds : Nat)
    (seenElse : Bool) (hc : Within lexemes c) :
    ∀ body ∈ ((moreBranches (level room) block rounds seenElse).run c).1.2,
      ∀ t ∈ body, t.EndsLines lexemes := by
  induction rounds generalizing seenElse c with
  | zero => exact nofun
  | succ rounds ih =>
    obtain ⟨span, raw, hhead⟩ | ⟨span, raw, hhead⟩ | ⟨span, raw, hhead⟩ | hother := branch_cases c
    · obtain ⟨ls, hrest⟩ := List.head?_eq_some_iff.mp hhead
      rw [moreBranches_run_elif hhead]
      obtain ⟨hdepth, hsame, hbranch⟩ := onward_atBranch seenElse .elifAfterElse span c
      obtain ⟨hon, -, hdepth', hlast⟩ := advance_word hdepth (hsame.trans hrest) rfl nofun
      have hword := hc.onward (hbranch.trans hon)
      have hbody := hword.onward (spread_condition (places_level room).expression
        (stopsAtLineEnd_expression room) hword.ordered hlast hdepth').1
      exact List.forall_mem_cons.mpr
        ⟨hblock _ hbody, ih seenElse (hbody.onward (hlays _ hbody.ordered).1)⟩
    · rw [moreBranches_run_else hhead]
      obtain ⟨-, -, hbranch⟩ := onward_atBranch seenElse .repeatedElse span c
      have hword := hc.onward (hbranch.trans (onward_advance _))
      have hbody := hword.onward (onward_finishHeader hword.ordered)
      exact List.forall_mem_cons.mpr
        ⟨hblock _ hbody, ih true (hbody.onward (hlays _ hbody.ordered).1)⟩
    · rw [moreBranches_run_endif hhead]
      exact nofun
    · rw [moreBranches_run_other (level room) block rounds seenElse hother]
      exact nofun

theorem settles_selection (hlays : Lays block) (hblock : Settles lexemes block)
    (hc : Within lexemes c) (hdepth : c.depth = 0) (hrest : c.rest = l :: ls)
    (hl : l.token = .kwIf) : ((selection (level room) block).run c).1.EndsLines lexemes := by
  obtain ⟨hword, -, hdepth', hlast⟩ :=
    advance_word hdepth hrest (by rw [hl]; rfl) (by rw [hl]; exact nofun)
  have hword := hc.onward hword
  have hbody := hword.onward (spread_condition (places_level room).expression
    (stopsAtLineEnd_expression room) hword.ordered hlast hdepth').1
  obtain ⟨span, hrun⟩ := selection_run (level room) block c
  rw [settle_of_depth hdepth] at hrun
  rw [hrun]
  refine endsLines_of_bodies nofun ((Branches.formed_ofLists _ _).2 ?_)
  refine List.forall_mem_cons.mpr ⟨hblock _ hbody, ?_⟩
  exact settles_moreBranches room hlays hblock _ _ (hbody.onward (hlays _ hbody.ordered).1)

theorem settles_iteration (hblock : Settles lexemes block) (hc : Within lexemes c)
    (hdepth : c.depth = 0) (hrest : c.rest = l :: ls) (hl : l.token = .kwForeach) :
    ((iteration (level room) block).run c).1.EndsLines lexemes := by
  obtain ⟨hword, -, hdepth', hlast⟩ :=
    advance_word hdepth hrest (by rw [hl]; rfl) (by rw [hl]; exact nofun)
  have hword := hc.onward hword
  have hbody := hword.onward
    (spread_loopHeader (places_level room) hword.ordered hlast hdepth').1
  obtain ⟨span, hrun⟩ := iteration_run (level room) block c
  rw [settle_of_depth hdepth] at hrun
  rw [hrun]
  exact endsLines_of_bodies nofun (List.forall_mem_singleton.mpr (hblock _ hbody))

end Blocks

/-! ### Statements -/

theorem settlesLine_of_inner {room : Nat} (hinner : ∀ k < room, SettlesLine lexemes (statement k)) :
    SettlesLine lexemes (statement room) := by
  -- Blocks lie a level further in, so their statements are known.
  have hblock : ∀ k < room, Settles lexemes (block (statement k) false) := fun k hk =>
    settles_block (placesLine_statement k) (hinner k hk) false
  have hlays : ∀ k, Lays (block (statement k) false) := fun k =>
    lays_block (placesLine_statement k) false
  intro c hc hdepth
  have hsettle := settle_of_depth hdepth
  by_cases hsimple : ∀ l ∈ c.settle.rest.head?, startsStatement l.token = false
  · rw [statement_on_simple hsimple, hsettle]
    obtain ⟨hon, hresult⟩ := readsOn_simpleStatement room c
    rcases hrun : (simpleStatement (level room)).on c with ⟨e | t, c'⟩
    · rw [hrun] at hon
      exact hon
    · rw [hrun] at hresult
      exact endsLines_simple (hresult t rfl)
  push Not at hsimple
  obtain ⟨l, hhead, hword⟩ := hsimple
  obtain ⟨ls, hrest⟩ := List.head?_eq_some_iff.mp hhead
  rw [hsettle] at hrest
  cases htoken : l.token with
  | kwIf =>
    cases room with
    | zero =>
      rw [statement_on_zero hhead (.inl htoken), hsettle]
      exact readsOn_settle c
    | succ room =>
      rw [statement_on_selection hhead htoken, hsettle]
      exact settles_selection room (hlays room) (hblock room (Nat.lt_succ_self _)) hc hdepth hrest
        htoken
  | kwForeach =>
    cases room with
    | zero =>
      rw [statement_on_zero hhead (.inr htoken), hsettle]
      exact readsOn_settle c
    | succ room =>
      rw [statement_on_iteration hhead htoken, hsettle]
      exact settles_iteration room (hblock room (Nat.lt_succ_self _)) hc hdepth hrest htoken
  | kwBreak =>
    rw [statement_on_break room hhead htoken]
    exact endsLines_simple rfl
  | kwContinue =>
    rw [statement_on_continue room hhead htoken]
    exact endsLines_simple rfl
  | _ =>
    rw [htoken] at hword
    exact absurd rfl hword

theorem settlesLine_statement (room : Nat) : SettlesLine lexemes (statement room) := by
  induction room using Nat.strongRecOn with
  | ind room ih => exact settlesLine_of_inner ih

/-- The statements of a file, as deep as they nest. -/
theorem endsLines_statements {eof : Position} (h : Lexeme.InOrder {} lexemes eof) (span : Span) :
    (Tree.file span (statements lexemes eof).1).EndsLines lexemes := by
  refine endsLines_of_bodies nofun (List.forall_mem_singleton.mpr ?_)
  exact settles_block (placesLine_statement maxNesting) (settlesLine_statement maxNesting) true
    { rest := lexemes, eof } ⟨⟨le_refl _, h⟩, List.suffix_refl _⟩

end Parse

/-! ### Whole texts -/

/-- Blocks with numbers. -/
theorem Branches.blocks_number : ∀ (b : Branches Span) (n : Nat),
    ∀ body' ∈ (b.number.run n).1.blocks, ∃ body ∈ b.blocks, ∃ k,
      body' = ((Tree.numberAll body).run k).1
  | .done, _ => nofun
  | .otherwise body, n =>
    List.forall_mem_singleton.mpr ⟨body, List.mem_singleton_self _, n, rfl⟩
  | .arm condition body rest, n => by
    refine List.forall_mem_cons.mpr ⟨⟨body, List.mem_cons_self, _, rfl⟩, fun body' hbody' => ?_⟩
    obtain ⟨body, hbody, hnumber⟩ := blocks_number rest _ body' hbody'
    exact ⟨body, List.mem_cons_of_mem _ hbody, hnumber⟩

namespace Tree

theorem bodies_number (t : Tree Span) (n : Nat) :
    ∀ body' ∈ (t.number.run n).1.bodies, ∃ body ∈ t.bodies, ∃ k,
      body' = ((numberAll body).run k).1 := by
  cases t with
  | file a ts => exact List.forall_mem_singleton.mpr ⟨ts, List.mem_singleton_self _, n, rfl⟩
  | selection a branches => exact branches.blocks_number n
  | iteration a names iterable body =>
    exact List.forall_mem_singleton.mpr ⟨body, List.mem_singleton_self _, _, rfl⟩
  | method a object name args => cases args <;> exact nofun
  | _ => exact nofun

/-- The statements of a numbered tree are those of the tree, with numbers. -/
theorem HasStatement.of_number {t : Tree Span} {n : Nat} {s' : Tree Mark}
    (h : (t.number.run n).1.HasStatement s') :
    ∃ s, t.HasStatement s ∧ ∃ k, s' = (s.number.run k).1 := by
  generalize ht : (t.number.run n).1 = t' at h
  induction h generalizing t n with
  | refl => exact ⟨t, .refl t, n, ht.symm⟩
  | step hbody hu _ ih =>
    rw [← ht] at hbody
    obtain ⟨body, hmem, k, rfl⟩ := bodies_number t n _ hbody
    obtain ⟨u, humem, k, rfl⟩ := mem_numberAll hu
    obtain ⟨s, hs, hnumber⟩ := ih rfl
    exact ⟨s, .step hmem humem hs, hnumber⟩

end Tree

namespace SourceFile

variable {text : String} {s : Tree Mark}

theorem hasStatement_of_mem_children (hs : s ∈ (parse text).root.children) :
    (parse text).root.HasStatement s := by
  have hbodies : (parse text).root.bodies = [(parse text).root.children] := rfl
  exact .step (by rw [hbodies]; exact List.mem_singleton_self _) hs (.refl s)

/-- **A statement that could not be read ends its line.** Its node covers lexemes up to a line end
or to the end of the text, and every line end that it covers stands inside brackets that were opened
in the node. -/
theorem endsLine_malformed (hs : (parse text).root.HasStatement s) (hkind : s.kind = .malformed) :
    Lexeme.EndsLine (Lexed.ofText text).lexemes s.span := by
  obtain ⟨t, ht, k, rfl⟩ := hs.of_number
  obtain ⟨-, hnote, hsame, -⟩ := Tree.number_run t k
  rw [Tree.span, hnote]
  exact Parse.endsLines_statements (Lexer.inOrder_scan {} text.toList) _ t ht (hsame ▸ hkind)

/-- A call in a block, over three lines. The mistake stands on its second line. -/
theorem endsLine_malformed_in_block :
    let text := "if a\n  f(1,\n    2 3\n  )\nendif\n"
    ∃ s : Tree Mark, (parse text).root.HasStatement s ∧ s.kind = .malformed ∧
      s.span = ⟨⟨1, 2, 7⟩, ⟨2, 7, 19⟩⟩ ∧ Lexeme.EndsLine (Lexed.ofText text).lexemes s.span := by
  intro text
  have hread : ∃ t ∈ (parse text).root.children, ∃ body ∈ t.bodies, ∃ s ∈ body,
      s.kind = .malformed ∧ s.span = ⟨⟨1, 2, 7⟩, ⟨2, 7, 19⟩⟩ := by
    decide +kernel
  obtain ⟨t, ht, body, hbody, s, hs, hkind, hspan⟩ := hread
  have hroot : (parse text).root.bodies = [(parse text).root.children] := rfl
  have hstatement : (parse text).root.HasStatement s :=
    .step (by rw [hroot]; exact List.mem_singleton_self _) ht (.step hbody hs (.refl s))
  exact ⟨s, hstatement, hkind, hspan, endsLine_malformed hstatement hkind⟩

/-- The line end that a node stops at may stand inside brackets that were opened in the node. The
bracket that closes them is read as a statement of its own. -/
theorem malformed_ends_inside_brackets :
    let text := "x = f(1 2\n)\n"
    ∃ (s : Tree Mark) (covered after : List Lexeme), (parse text).root.HasStatement s ∧
      s.kind = .malformed ∧ (Lexed.ofText text).lexemes = covered ++ after ∧
      Lexeme.Stretch covered s.span ∧ after.head?.map Lexeme.token = some .newline ∧
      Lexeme.openAfter 0 covered = 1 := by
  intro text
  have hread : ∃ s ∈ (parse text).root.children, s.kind = .malformed ∧
      s.span = ⟨⟨0, 0, 0⟩, ⟨0, 9, 9⟩⟩ := by
    decide +kernel
  obtain ⟨s, hs, hkind, hspan⟩ := hread
  let lexemes := (Lexed.ofText text).lexemes
  refine ⟨s, lexemes.take 6, lexemes.drop 6, hasStatement_of_mem_children hs, hkind,
    (List.take_append_drop 6 lexemes).symm, ?_, by decide +kernel, by decide +kernel⟩
  rw [hspan]
  exact ⟨⟨.name "x", ⟨⟨0, 0, 0⟩, ⟨0, 1, 1⟩⟩, "x"⟩, ⟨.integer 2, ⟨⟨0, 8, 8⟩, ⟨0, 9, 9⟩⟩, "2"⟩,
    by decide +kernel, by decide +kernel, by decide⟩

end SourceFile

end MesonLens
