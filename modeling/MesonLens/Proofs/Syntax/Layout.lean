import MesonLens.Proofs.Syntax.Spans

/-!
# `MesonLens.Proofs.Syntax.Layout`: the nodes of a file are laid out in its text

Statements, blocks and what could not be read, up to the whole file (`SourceFile.nested_root`).

* `Parse.placed_recover`: what could not be read is one node from the first lexeme that was passed
  to the last one. Where the line was at its end nothing is passed, and the node is put at the
  error;
* `Parse.StopsAtLineEnd`: a header that is missing fails at once, and the error is the line end. So
  the node for such a header covers the line end, which is passed next: `Parse.spread_headed`;
* `Parse.Lays`: the statements of a block lie apart from each other in the text that the block
  passes, `Parse.lays_blockRounds`;
* `Parse.SpreadsBranches`: a selection gathers its conditions in one list and its blocks in another
  one, while in the text they take turns. The order of the parts does not matter
  (`Tree.Spread.perm`);
* `Parse.placesLine_statement`: statements, by induction on the number of blocks that may be open.
-/

set_option autoImplicit false

namespace MesonLens

namespace Lexeme.InOrder

variable {p q : Position} {l : Lexeme} {ls rest : List Lexeme}

theorem le (h : InOrder p ls q) : p ≤ q := by
  induction ls generalizing p with
  | nil => exact h
  | cons l ls ih => exact (h.1.trans h.2.1.le).trans (ih h.2.2)

/-- The first lexeme comes before a later one, or is the same. -/
theorem first (h : InOrder p (ls ++ l :: rest) q) :
    ∃ f, (ls ++ l :: rest).head? = some f ∧ p ≤ f.span.start ∧ f.span.start < f.span.stop ∧
      f.span.start ≤ l.span.start ∧ f.span.stop ≤ l.span.stop := by
  cases ls with
  | nil => exact ⟨l, rfl, h.1, h.2.1, le_refl _, le_refl _⟩
  | cons f ls =>
    obtain ⟨hle, hlt, hrest⟩ := h
    obtain ⟨hle', hlt', -⟩ := hrest.split
    exact ⟨f, rfl, hle, hlt, hlt.le.trans hle', hle'.trans hlt'.le⟩

end Lexeme.InOrder

namespace Cursor

/-- Outside of brackets, where the line or the text ends. -/
def AtLineEnd (c : Cursor) : Prop := c.depth = 0 ∧ ∀ l ∈ c.rest.head?, l.token = .newline

variable {c c' : Cursor} {l : Lexeme} {ls : List Lexeme}

theorem settle_of_depth (h : c.depth = 0) : c.settle = c := by simp [settle, h]

theorem next_of_rest (h : c.rest = l :: ls) : c.next = l.span := by simp [next, h]

theorem Onward.length_le (h : Onward c c') : c'.rest.length ≤ c.rest.length := by
  obtain ⟨-, passed, hrest, -⟩ := h
  simp [hrest]

/-- Brackets do not move the cursor. -/
theorem onward_depth (c : Cursor) (depth : Nat) : Onward c { c with depth } := ⟨rfl, [], rfl, rfl⟩

end Cursor

/-- The parts of the branches are their conditions and the statements of their blocks. -/
theorem Branches.children_ofLists_perm {α : Type} : ∀ (conditions : List (Tree α))
    (bodies : List (List (Tree α))), conditions.length ≤ bodies.length →
    (ofLists conditions bodies).children.Perm (conditions ++ bodies.flatten)
  | [], [], _ => .refl _
  | [], _ :: _, _ => .refl _
  | condition :: conditions, body :: bodies, h => by
    have ih := children_ofLists_perm conditions bodies (Nat.le_of_succ_le_succ h)
    exact .cons condition ((ih.append_left body).trans (List.perm_append_comm_assoc ..))

namespace Parse

open Cursor MesonLens.Tree

variable {α β : Type} {c c' : Cursor} {l : Lexeme} {ls : List Lexeme} {inner : Level}

/-! ### Steps at the end of a line -/

/-- Where a line ends, the step fails at once and puts the error there. -/
def StopsAtLineEnd (m : Parse α) : Prop :=
  ∀ c, c.AtLineEnd → ∃ fault, m.on c = (.error ⟨fault, c.next⟩, c)

theorem StopsAtLineEnd.bind {m : Parse α} (h : StopsAtLineEnd m) (f : α → Parse β) :
    StopsAtLineEnd (m >>= f) := by
  intro c hc
  obtain ⟨fault, hrun⟩ := h c hc
  exact ⟨fault, by rw [on_bind, hrun]⟩

/-- A step may look at the next token first. -/
theorem StopsAtLineEnd.peek {f : Option Lexeme → Parse β} (hnone : StopsAtLineEnd (f none))
    (hsome : ∀ l, l.token = .newline → StopsAtLineEnd (f (some l))) :
    StopsAtLineEnd (liftM peek >>= f) := by
  intro c hc
  rw [on_lift_bind, peek_run, settle_of_depth hc.1]
  cases hhead : c.rest.head? with
  | none => exact hnone c hc
  | some l => exact hsome l (hc.2 l hhead) c hc

theorem stopsAtLineEnd_failWanting (wanted : Wanted) :
    StopsAtLineEnd (failWanting wanted : Parse α) := by
  intro c hc
  rw [failWanting_on, settle_of_depth hc.1]
  exact ⟨_, rfl⟩

theorem stopsAtLineEnd_tooDeep : StopsAtLineEnd (tooDeep : Parse α) := by
  intro c hc
  refine ⟨.nestedTooDeep, ?_⟩
  show (Except.error (SyntaxError.mk .nestedTooDeep c.settle.next), c.settle) = _
  rw [settle_of_depth hc.1]

theorem stopsAtLineEnd_primary (inner : Level) : StopsAtLineEnd (primary inner) := by
  refine .peek (stopsAtLineEnd_failWanting _) fun l hl => ?_
  simp only [hl, if_true]
  exact (stopsAtLineEnd_failWanting _).bind _

theorem stopsAtLineEnd_unary (inner : Level) : StopsAtLineEnd (unary inner) := by
  have hoperand : StopsAtLineEnd (operand inner) := (stopsAtLineEnd_primary inner).bind _
  refine .peek hoperand fun l hl => ?_
  simp only [hl, unaryOp?]
  exact hoperand

/-- The first operand is read first. -/
theorem StopsAtLineEnd.leftGrouped {next : Parse (Tree Span)} (h : StopsAtLineEnd next)
    (op : Reading (Option BinaryOp)) : StopsAtLineEnd (leftGrouped op next) :=
  h.bind _

theorem stopsAtLineEnd_conditional (inner : Level) : StopsAtLineEnd (conditional inner) := by
  have hdisjunction : StopsAtLineEnd (disjunction inner) :=
    (((((stopsAtLineEnd_unary inner).leftGrouped _).leftGrouped _).leftGrouped _).leftGrouped
      _).leftGrouped _
  exact hdisjunction.bind _

theorem stopsAtLineEnd_expression (room : Nat) : StopsAtLineEnd (level room).expression := by
  cases room with
  | zero => exact stopsAtLineEnd_tooDeep.bind _
  | succ room => exact (stopsAtLineEnd_conditional (level room)).bind _

theorem stopsAtLineEnd_loopHeader (inner : Level) : StopsAtLineEnd (loopHeader inner) := by
  have hnames : ∀ rounds, StopsAtLineEnd (loopVariables (rounds + 1)) := by
    intro rounds
    refine .peek (stopsAtLineEnd_failWanting _) fun l hl => ?_
    obtain ⟨token, span, raw⟩ := l
    cases hl
    exact stopsAtLineEnd_failWanting _
  intro c hc
  unfold loopHeader
  rw [on_get_bind]
  exact (hnames _).bind _ c hc

/-! ### Recovery -/

/-- What could not be read is one node, which covers what was passed. Where nothing was passed the
line was at its end, and the node is put at the error. -/
theorem placed_recover {c₀ : Cursor} {e : SyntaxError} (hc : c₀.Ordered) (hon : Onward c₀ c) :
    let r := (recover c₀.rest e).run c
    Onward c₀ r.2 ∧ (r.1.Placed c₀.front r.2.front ∨
      (∀ l ∈ c₀.rest.head?, l.token = .newline) ∧ r.2.rest = c₀.rest ∧ r.2.last = c₀.last ∧
        r.1 = .malformed e.span e.fault) := by
  intro r
  let mid := c.unstuck c₀.rest.length
  have hmid : Onward c mid := onward_unstuck c _
  have hskip : Onward mid r.2 := onward_skipLine mid
  have hall : Onward c₀ r.2 := (hon.trans hmid).trans hskip
  refine ⟨hall, ?_⟩
  obtain ⟨hrest, hlast⟩ | ⟨before, l, hrest, hlast⟩ := hall.cases
  · -- Nothing was passed on the whole way, so nothing was passed by the recovery.
    refine .inr ⟨fun l hl => ?_, hrest, hlast, ?_⟩
    · by_contra hne
      obtain ⟨ls, hls⟩ := List.head?_eq_some_iff.mp hl
      have hlength : c.rest.length = c₀.rest.length := by
        have hle := hon.length_le
        have hle' := (hmid.trans hskip).length_le
        rw [hrest] at hle'
        omega
      have hsame : c.rest = c₀.rest := by
        obtain ⟨-, passed, hpassed, -⟩ := hon
        rw [hpassed, List.length_append] at hlength
        rw [hpassed, List.eq_nil_of_length_eq_zero (by omega : passed.length = 0)]
        rfl
      have hpass : mid = c.pass := by
        refine if_pos ⟨hlength, ?_⟩
        simp [isAt, hsame, hls, hne]
      have hle := hskip.length_le
      rw [hpass, hrest, Cursor.pass, hsame, hls] at hle
      exact absurd hle (Nat.not_succ_le_self _)
    · show Tree.malformed (if r.2.rest.length < c₀.rest.length then _ else e.span) e.fault = _
      rw [hrest, if_neg (Nat.lt_irrefl _)]
  · -- The node reaches from the first lexeme that was passed to the last one.
    have horder := hc.rest
    rw [hrest] at horder
    obtain ⟨first, hfirst, hle, hlt, hstart, hstop⟩ := horder.first
    have hspan : r.2.lastSpan = l.span := lastSpan_of_last hlast
    have hnote : r.1.note = first.span.join l.span := by
      show (if r.2.rest.length < c₀.rest.length then
        ((c₀.rest.head?.map Lexeme.span).getD e.span).join r.2.lastSpan else e.span) = _
      rw [if_pos (by rw [hrest, List.length_append, List.length_cons]; omega), hrest, hfirst, hspan]
      rfl
    have hfront : r.2.front = l.span.stop := congrArg Span.stop hspan
    refine .inl (placed_join hnote ?_ hstart hstop hfront.ge ?_ fun hcall => ?_)
    · exact ⟨hle, hlt, hstop.trans hfront.ge⟩
    · exact spread_nil (hlt.le.trans hstop)
    · cases hcall

/-- Where the line is not at its end, the recovery passes something. -/
theorem placed_recover_cons {c₀ : Cursor} {e : SyntaxError} (hc : c₀.Ordered) (hon : Onward c₀ c)
    (hrest : c₀.rest = l :: ls) (hl : l.token ≠ .newline) :
    Onward c₀ ((recover (l :: ls) e).run c).2 ∧
      ((recover (l :: ls) e).run c).1.Placed c₀.front ((recover (l :: ls) e).run c).2.front := by
  rw [← hrest]
  obtain ⟨hall, hplaced | ⟨hend, -⟩⟩ := placed_recover (e := e) hc hon
  · exact ⟨hall, hplaced⟩
  · exact absurd (hend l (by rw [hrest]; rfl)) hl

/-- The end of a line, with one node for what stands before it. -/
theorem spread_finishLine (hc : c.Ordered) :
    Onward c (finishLine.run c).2 ∧
      Spread (finishLine.run c).1 c.front (finishLine.run c).2.front := by
  obtain hrun | ⟨l, ls, hrest, -, hrun⟩ | ⟨l, ls, hrest, hl, hrun⟩ := finishLine_cases c
  · rw [hrun]
    exact ⟨onward_depth c 0, spread_nil (le_refl _)⟩
  · have hon : Onward c { c with depth := 0, last := some l, rest := ls } := .one hrest rfl rfl
    rw [hrun]
    exact ⟨hon, spread_nil (hon.front_le hc)⟩
  · have hclosed : ({ c with depth := 0 } : Cursor).Ordered := ⟨hc.last, hc.rest⟩
    obtain ⟨hon, hplaced⟩ :=
      placed_recover_cons hclosed (onward_unexpected .endOfLine { c with depth := 0 }) hrest hl
    rw [hrun]
    exact ⟨(onward_depth c 0).trans hon, hplaced.spread⟩

theorem onward_finishHeader (hc : c.Ordered) : Onward c (finishHeader.run c).2 :=
  (spread_finishLine hc).1

/-! ### Headers -/

/-- A header that could not be read, with the end of its line. A node that was put at the line end
is covered once the line end is passed. -/
theorem spread_recover_header {e : SyntaxError} (hc : c.Ordered) (hon : Onward c c')
    (hlast : c.last.any (·.token = .newline) = false) (hdepth : c.depth = 0)
    (hend : c.AtLineEnd → e.span = c.next) :
    let r := (recover c.rest e).run c'
    Onward c (finishHeader.run r.2).2 ∧
      Spread [r.1] c.front (finishHeader.run r.2).2.front := by
  intro r
  obtain ⟨hrecover, hplace⟩ := placed_recover (e := e) hc hon
  have hfinish := onward_finishHeader (hrecover.ordered hc).1
  have hall : Onward c (finishHeader.run r.2).2 := hrecover.trans hfinish
  refine ⟨hall, ?_⟩
  obtain hplaced | ⟨hline, hrest, hsame, hnode⟩ := hplace
  · exact hplaced.spread.mono (le_refl _) (hfinish.front_le (hrecover.ordered hc).1)
  have hnode' : r.1 = .malformed c.next e.fault := by
    rw [← hend ⟨hdepth, hline⟩]
    exact hnode
  rw [hnode']
  refine spread_singleton (hall.front_le hc) (laid_malformed _ _) ?_
  show c.next.Inside _ _
  cases hls : c.rest with
  | nil =>
    -- At the end of the text there is nothing to cover.
    left
    simp [next, hls, Span.IsVoid, Span.empty]
  | cons l ls =>
    -- The node covers the line end, which the header passes next.
    right
    have hl : l.token = .newline := hline l (by rw [hls]; rfl)
    have hfront : (finishHeader.run r.2).2.front = l.span.stop := by
      show (finishLine.run r.2).2.front = _
      rw [finishLine_run_newline (by rw [hsame]; exact hlast) (hrest.trans hls) hl]
      rfl
    have horder := hc.rest
    rw [hls] at horder
    rw [next_of_rest hls, hfront]
    exact ⟨horder.1, horder.2.1, le_refl _⟩

/-- The parts of a header, or one node when it could not be read, with the cursor after them. -/
def headed (m : Parse α) (parts : α → List (Tree Span)) (c : Cursor) :
    List (Tree Span) × Cursor :=
  match m.on c with
  | (.ok a, c') => (parts a, c')
  | (.error e, c') => ([((recover c.rest e).run c').1], ((recover c.rest e).run c').2)

/-- A header with the end of its line. -/
theorem spread_headed {m : Parse α} {parts : α → List (Tree Span)}
    (hm : Yields m c fun a c' => Spread (parts a) c.front c'.front) (hstops : StopsAtLineEnd m)
    (hc : c.Ordered) (hlast : c.last.any (·.token = .newline) = false) (hdepth : c.depth = 0) :
    Onward c (finishHeader.run (headed m parts c).2).2 ∧
      Spread (headed m parts c).1 c.front (finishHeader.run (headed m parts c).2).2.front := by
  obtain ⟨hon, hresult⟩ := hm hc
  unfold headed
  rcases hrun : m.on c with ⟨e | a, c'⟩
  · rw [hrun] at hon
    refine spread_recover_header hc hon hlast hdepth fun hend => ?_
    obtain ⟨fault, hstop⟩ := hstops c hend
    rw [hstop] at hrun
    cases hrun
    rfl
  · rw [hrun] at hon hresult
    have hfinish := onward_finishHeader (hon.ordered hc).1
    refine ⟨hon.trans hfinish, ?_⟩
    exact (hresult a rfl).mono (le_refl _) (hfinish.front_le (hon.ordered hc).1)

theorem orRecover_headed (p : Parse (Tree Span)) (c : Cursor) :
    [((orRecover p).run c).1] = (headed p (fun t => [t]) c).1 ∧
      ((orRecover p).run c).2 = (headed p (fun t => [t]) c).2 := by
  rw [orRecover_run, headed]
  rcases p.on c with ⟨e | t, c'⟩
  · exact ⟨rfl, rfl⟩
  · exact ⟨rfl, rfl⟩

/-- A condition with the end of its line. -/
theorem spread_condition {p : Parse (Tree Span)} (hp : Places p) (hstops : StopsAtLineEnd p)
    (hc : c.Ordered) (hlast : c.last.any (·.token = .newline) = false) (hdepth : c.depth = 0) :
    let r := (orRecover p).run c
    Onward c (finishHeader.run r.2).2 ∧ Spread [r.1] c.front (finishHeader.run r.2).2.front := by
  obtain ⟨hparts, hafter⟩ := orRecover_headed p c
  intro r
  rw [show [r.1] = _ from hparts, show r.2 = _ from hafter]
  exact spread_headed ((hp c).mono fun t c' _ _ ht => ht.spread) hstops hc hlast hdepth

theorem yields_get {f : Cursor → Parse β} {R : β → Cursor → Prop} (h : Yields (f c) c R) :
    Yields (get >>= f) c R := h

theorem yields_loopVariables (rounds : Nat) (c : Cursor) :
    Yields (loopVariables rounds) c fun names c' => Spread names c.front c'.front := by
  induction rounds generalizing c with
  | zero => exact yields_failWanting _ c
  | succ rounds ih =>
    refine yields_peek fun hc => ?_
    have hle := (onward_settle c).front_le hc
    split
    · next name span raw hhead =>
      refine yields_read hhead fun ls hspan => ?_
      have hname : (Tree.identifier span name).Placed c.front _ :=
        placed_leaf (hspan.mono hle (le_refl _)) rfl nofun
      refine yields_eat (fun hc₁ => ?_) fun comma more hcomma => ?_
      · exact .pure (hname.spread.mono (le_refl _) ((onward_settle _).front_le hc₁))
      · refine (ih _).bind fun names c₂ _ _ hnames => .pure ?_
        exact hname.spread.append (hnames.mono hcomma.le (le_refl _))
    · exact yields_failWanting _ _

theorem yields_loopHeader (hinner : inner.Places) (c : Cursor) :
    Yields (loopHeader inner) c fun header c' =>
      Spread (header.1 ++ [header.2]) c.front c'.front := by
  unfold loopHeader
  refine yields_get ((yields_loopVariables _ c).bind fun names c₁ _ _ hnames => ?_)
  split
  · exact yields_get (yields_throw _ _)
  · refine (yields_discard_expect _ c₁).bind fun _ c₂ _ _ hle => ?_
    refine (hinner.expression c₂).bind fun iterable c₃ _ _ hiterable => .pure ?_
    exact hnames.append (hiterable.spread.mono hle (le_refl _))

theorem headerOrRecover_headed (inner : Level) (c : Cursor) :
    ((headerOrRecover inner).run c).1.1 ++ [((headerOrRecover inner).run c).1.2] =
        (headed (loopHeader inner) (fun header => header.1 ++ [header.2]) c).1 ∧
      ((headerOrRecover inner).run c).2 =
        (headed (loopHeader inner) (fun header => header.1 ++ [header.2]) c).2 := by
  rw [headerOrRecover_run, headed]
  rcases (loopHeader inner).on c with ⟨e | header, c'⟩
  · exact ⟨rfl, rfl⟩
  · exact ⟨rfl, rfl⟩

/-- The header of a loop with the end of its line. -/
theorem spread_loopHeader (hinner : inner.Places) (hc : c.Ordered)
    (hlast : c.last.any (·.token = .newline) = false) (hdepth : c.depth = 0) :
    let r := (headerOrRecover inner).run c
    Onward c (finishHeader.run r.2).2 ∧
      Spread (r.1.1 ++ [r.1.2]) c.front (finishHeader.run r.2).2.front := by
  obtain ⟨hparts, hafter⟩ := headerOrRecover_headed inner c
  intro r
  rw [show r.1.1 ++ [r.1.2] = _ from hparts, show r.2 = _ from hafter]
  exact spread_headed (yields_loopHeader hinner c) (stopsAtLineEnd_loopHeader inner) hc hlast hdepth

/-! ### Statements -/

/-- The tree that a rule gives at the start of a line lies in the text that the rule passes. -/
def PlacesLine (m : Parse (Tree Span)) : Prop :=
  ∀ c, c.depth = 0 → Yields m c fun t c' => t.Placed c.front c'.front

/-- The trees of a block lie apart from each other in the text that is passed. -/
def Lays (m : Reading (List (Tree Span))) : Prop :=
  ∀ c, c.Ordered → Onward c (m.run c).2 ∧ Spread (m.run c).1 c.front (m.run c).2.front

theorem places_simpleStatement (hinner : inner.Places) : Places (simpleStatement inner) := by
  intro c
  refine (hinner.expression c).bind fun target c₁ _ _ htarget => yields_peek fun hc₁ => ?_
  have htarget := htarget.mono (le_refl _) ((onward_settle c₁).front_le hc₁)
  split
  · exact .pure htarget
  · next op hop =>
    obtain ⟨l, hhead, -⟩ := Option.bind_eq_some_iff.mp hop
    refine yields_read hhead fun ls hspan => ?_
    -- A bad target is reported, and reading goes on after it as after a good one.
    have hvalue : ∀ mid, target.Placed c.front mid.front →
        Yields (do let value ← inner.expression
                   pure (Tree.assignment (target.note.join value.note) target op value))
          mid fun t c' => t.Placed c.front c'.front := by
      intro mid htarget
      refine (hinner.expression mid).bind fun value c₂ _ _ hvalue => .pure ?_
      exact placed_pair rfl rfl nofun htarget hvalue
    have htarget := htarget.mono (le_refl _) hspan.le
    split
    · exact yields_lift (onward_report ..) fun hle => hvalue _ (htarget.mono (le_refl _) hle)
    · exact hvalue _ htarget

section Blocks

variable {block : Reading (List (Tree Span))}

/-- After a word that opens or closes no bracket and is no line end. -/
theorem advance_word (hdepth : c.depth = 0) (hrest : c.rest = l :: ls)
    (hword : (l.token.opens || l.token.closes) = false) (hline : l.token ≠ .newline) :
    let c' := (advance.run c).2
    Onward c c' ∧ c'.last = some l ∧ c'.depth = 0 ∧
      c'.last.any (·.token = .newline) = false := by
  have hsettle : c.settle.rest = l :: ls := by rw [settle_of_depth hdepth, hrest]
  rw [Bool.or_eq_false_iff] at hword
  intro c'
  have hc' : c' = after c l ls := congrArg Prod.snd (advance_run_cons hsettle)
  refine ⟨onward_advance c, ?_, ?_, ?_⟩
  · rw [hc', after]
  · simp [hc', after, depthAfter, hword, hdepth]
  · simp [hc', after, hline]

/-- A condition, the end of its line and the block after it. -/
theorem spread_guarded (hexpression : Places inner.expression)
    (hstops : StopsAtLineEnd inner.expression) (hblock : Lays block) (hc : c.Ordered)
    (hdepth : c.depth = 0) (hlast : c.last.any (·.token = .newline) = false) :
    let condition := (orRecover inner.expression).run c
    let body := block.run (finishHeader.run condition.2).2
    Onward c body.2 ∧ Spread (condition.1 :: body.1) c.front body.2.front := by
  intro condition body
  obtain ⟨hhead, hcondition⟩ := spread_condition hexpression hstops hc hlast hdepth
  obtain ⟨hon, hbody⟩ := hblock _ (hhead.ordered hc).1
  exact ⟨hhead.trans hon, hcondition.append hbody⟩

/-- What is known of the branches after the first one: their conditions and statements lie apart,
and every condition has its block. -/
structure SpreadsBranches (c : Cursor)
    (r : (List (Tree Span) × List (List (Tree Span))) × Cursor) : Prop where
  onward : Onward c r.2
  spread : Spread (r.1.1 ++ r.1.2.flatten) c.front r.2.front
  length_le : r.1.1.length ≤ r.1.2.length

namespace SpreadsBranches

variable {mid : Cursor} {r : (List (Tree Span) × List (List (Tree Span))) × Cursor}
  {condition : Tree Span} {body : List (Tree Span)}

theorem nil (hc : c.Ordered) (hon : Onward c c') : SpreadsBranches c (([], []), c') :=
  ⟨hon, spread_nil (hon.front_le hc), Nat.le_refl _⟩

/-- A branch with a condition before further ones. -/
theorem arm (hon : Onward c mid) (hparts : Spread (condition :: body) c.front mid.front)
    (h : SpreadsBranches mid r) :
    SpreadsBranches c ((condition :: r.1.1, body :: r.1.2), r.2) where
  onward := hon.trans h.onward
  spread := (hparts.append h.spread).perm (.cons condition (List.perm_append_comm_assoc ..))
  length_le := Nat.succ_le_succ h.length_le

/-- A branch without a condition before further ones. -/
theorem otherwise (hon : Onward c mid) (hparts : Spread body c.front mid.front)
    (h : SpreadsBranches mid r) : SpreadsBranches c ((r.1.1, body :: r.1.2), r.2) where
  onward := hon.trans h.onward
  spread := (hparts.append h.spread).perm (List.perm_append_comm_assoc ..)
  length_le := Nat.le_succ_of_le h.length_le

end SpreadsBranches

/-- The cursor at a keyword that starts a branch, which is outside of brackets. -/
theorem onward_atBranch (seenElse : Bool) (fault : Fault) (span : Span) (c : Cursor) :
    (atBranch seenElse fault span c).depth = 0 ∧ (atBranch seenElse fault span c).rest = c.rest ∧
      Onward c (atBranch seenElse fault span c) := by
  cases seenElse with
  | true => exact ⟨rfl, rfl, onward_report fault span _⟩
  | false => exact ⟨rfl, rfl, onward_depth c 0⟩

theorem spreadsBranches_moreBranches (hexpression : Places inner.expression)
    (hstops : StopsAtLineEnd inner.expression) (hblock : Lays block) (rounds : Nat)
    (seenElse : Bool) (c : Cursor) (hc : c.Ordered) :
    SpreadsBranches c ((moreBranches inner block rounds seenElse).run c) := by
  induction rounds generalizing seenElse c with
  | zero => exact .nil hc (.refl c)
  | succ rounds ih =>
    obtain ⟨span, raw, hhead⟩ | ⟨span, raw, hhead⟩ | ⟨span, raw, hhead⟩ | hother := branch_cases c
    · obtain ⟨ls, hrest⟩ := List.head?_eq_some_iff.mp hhead
      rw [moreBranches_run_elif hhead]
      obtain ⟨hdepth, hsame, hbranch⟩ := onward_atBranch seenElse .elifAfterElse span c
      obtain ⟨hon, -, hdepth', hlast⟩ := advance_word hdepth (hsame.trans hrest) rfl nofun
      -- The word is passed first, and then the condition and the block stand apart behind it.
      have hword := hbranch.trans hon
      obtain ⟨hbody, hparts⟩ :=
        spread_guarded hexpression hstops hblock (hword.ordered hc).1 hdepth' hlast
      have hall := hword.trans hbody
      exact .arm hall (hparts.mono (hword.front_le hc) (le_refl _)) (ih _ _ (hall.ordered hc).1)
    · rw [moreBranches_run_else hhead]
      obtain ⟨-, -, hbranch⟩ := onward_atBranch seenElse .repeatedElse span c
      have hword := hbranch.trans (onward_advance _)
      have hhead := hword.trans (onward_finishHeader (hword.ordered hc).1)
      obtain ⟨hbody, hparts⟩ := hblock _ (hhead.ordered hc).1
      have hall := hhead.trans hbody
      exact .otherwise hall (hparts.mono (hhead.front_le hc) (le_refl _))
        (ih _ _ (hall.ordered hc).1)
    · rw [moreBranches_run_endif hhead]
      exact .nil hc ((onward_depth c 0).trans (onward_advance _))
    · have hunexpected := onward_unexpected (.token .kwEndif) { c with depth := 0 }
      rw [moreBranches_run_other inner block rounds seenElse hother]
      exact .nil hc ((onward_depth c 0).trans (hunexpected.trans (onward_report ..)))

/-- A statement that reaches from its first word to the last token that was passed. -/
theorem placed_statement {t : Tree Span} (hc : c.Ordered) (hdepth : c.depth = 0)
    (hrest : c.rest = l :: ls) (hon : Onward (advance.run c).2 c')
    (hnote : t.note = c.next.join c'.lastSpan) (hcall : t.kind ≠ .call)
    (hparts : Spread t.children (advance.run c).2.front c'.front) : t.Placed c.front c'.front := by
  have hsettle : c.settle.rest = l :: ls := by rw [settle_of_depth hdepth, hrest]
  obtain ⟨hlies, hword⟩ := lies_of_rest hc hsettle
  rw [advance_run_cons hsettle] at hon hparts
  obtain ⟨-, hstop, hstart⟩ := hon.ordered (hword.ordered hc).1
  rw [next_of_rest hrest] at hnote
  refine placed_join hnote (hlies.mono (le_refl _) hstop) hstart hstop (le_refl _) ?_
    fun h => absurd h hcall
  exact hparts.mono hlies.lt.le (le_refl _)

/-- A selection reaches from its first word to the last token that was passed. -/
theorem selection_run_join (inner : Level) (block : Reading (List (Tree Span)))
    (hdepth : c.depth = 0) :
    (selection inner block).run c =
      let condition := (orRecover inner.expression).run (advance.run c).2
      let body := block.run (finishHeader.run condition.2).2
      let rest := (moreBranches inner block (body.2.rest.length + 1) false).run body.2
      (.selection (c.next.join rest.2.lastSpan)
        (Branches.ofLists (condition.1 :: rest.1.1) (body.1 :: rest.1.2)), rest.2) := by
  have hsettle := settle_of_depth hdepth
  have hrun : (selection inner block).run c =
      let condition := (orRecover inner.expression).run (advance.run c.settle).2
      let body := block.run (finishHeader.run condition.2).2
      let rest := (moreBranches inner block (body.2.rest.length + 1) false).run body.2
      (.selection (c.settle.next.join rest.2.lastSpan)
        (Branches.ofLists (condition.1 :: rest.1.1) (body.1 :: rest.1.2)), rest.2) := rfl
  rwa [hsettle] at hrun

theorem placed_selection (hexpression : Places inner.expression)
    (hstops : StopsAtLineEnd inner.expression) (hblock : Lays block) (hc : c.Ordered)
    (hdepth : c.depth = 0) (hrest : c.rest = l :: ls) (hl : l.token = .kwIf) :
    let r := (selection inner block).run c
    Onward c r.2 ∧ r.1.Placed c.front r.2.front := by
  obtain ⟨hword, -, hdepth', hlast⟩ :=
    advance_word hdepth hrest (by rw [hl]; rfl) (by rw [hl]; exact nofun)
  have hc₁ := (hword.ordered hc).1
  obtain ⟨hbody, hparts⟩ := spread_guarded hexpression hstops hblock hc₁ hdepth' hlast
  have hbranches := fun rounds => SpreadsBranches.arm hbody hparts
    (spreadsBranches_moreBranches hexpression hstops hblock rounds false _ (hbody.ordered hc₁).1)
  rw [selection_run_join inner block hdepth]
  refine ⟨hword.trans (hbranches _).onward, ?_⟩
  refine placed_statement hc hdepth hrest (hbranches _).onward rfl nofun ?_
  exact (hbranches _).spread.perm (Branches.children_ofLists_perm _ _ (hbranches _).length_le).symm

theorem onward_closeLoop (c : Cursor) : Onward c (closeLoop.run c).2 := by
  unfold closeLoop
  rw [run_bind, run_bind]
  split
  · exact (onward_depth c 0).trans (onward_advance _)
  · have hunexpected := onward_unexpected (.token .kwEndforeach) { c with depth := 0 }
    exact (onward_depth c 0).trans (hunexpected.trans (onward_report ..))

/-- A loop reaches from its first word to the last token that was passed. -/
theorem iteration_run_join (inner : Level) (block : Reading (List (Tree Span)))
    (hdepth : c.depth = 0) :
    (iteration inner block).run c =
      let header := (headerOrRecover inner).run (advance.run c).2
      let body := block.run (finishHeader.run header.2).2
      let last := (closeLoop.run body.2).2
      (.iteration (c.next.join last.lastSpan) header.1.1 header.1.2 body.1, last) := by
  have hsettle := settle_of_depth hdepth
  have hrun : (iteration inner block).run c =
      let header := (headerOrRecover inner).run (advance.run c.settle).2
      let body := block.run (finishHeader.run header.2).2
      let last := (closeLoop.run body.2).2
      (.iteration (c.settle.next.join last.lastSpan) header.1.1 header.1.2 body.1, last) := rfl
  rwa [hsettle] at hrun

theorem placed_iteration (hinner : inner.Places) (hblock : Lays block) (hc : c.Ordered)
    (hdepth : c.depth = 0) (hrest : c.rest = l :: ls) (hl : l.token = .kwForeach) :
    let r := (iteration inner block).run c
    Onward c r.2 ∧ r.1.Placed c.front r.2.front := by
  obtain ⟨hword, -, hdepth', hlast⟩ :=
    advance_word hdepth hrest (by rw [hl]; rfl) (by rw [hl]; exact nofun)
  have hc₁ := (hword.ordered hc).1
  obtain ⟨hhead, hheader⟩ := spread_loopHeader hinner hc₁ hlast hdepth'
  obtain ⟨hon, hbody⟩ := hblock _ (hhead.ordered hc₁).1
  have hclose := onward_closeLoop (block.run (finishHeader.run
    ((headerOrRecover inner).run (advance.run c).2).2).2).2
  have hall := (hhead.trans hon).trans hclose
  rw [iteration_run_join inner block hdepth]
  refine ⟨hword.trans hall, placed_statement hc hdepth hrest hall rfl nofun ?_⟩
  have hparts := (hheader.append hbody).mono (le_refl _)
    (hclose.front_le ((hhead.trans hon).ordered hc₁).1)
  rw [List.append_assoc] at hparts
  exact hparts

end Blocks

/-- The statements of a block lie one after the other. -/
theorem lays_blockRounds {one : Parse (Tree Span)} (hone : PlacesLine one) (top : Bool)
    (rounds : Nat) : Lays (blockRounds one top rounds) := by
  induction rounds with
  | zero => exact fun c _ => ⟨.refl c, spread_nil (le_refl _)⟩
  | succ rounds ih =>
    intro c hc
    have hclosed : ({ c with depth := 0 } : Cursor).Ordered := ⟨hc.last, hc.rest⟩
    cases hrest : c.rest with
    | nil =>
      rw [blockRounds_run_nil hrest]
      exact ⟨onward_depth c 0, spread_nil (le_refl _)⟩
    | cons l ls =>
      -- A node that was recovered goes before what the further rounds give.
      have hrecover : l.token ≠ .newline → ∀ e c', Onward { c with depth := 0 } c' →
          let node := (recover (l :: ls) e).run c'
          let rest := (blockRounds one top rounds).run node.2
          Onward c rest.2 ∧ Spread (node.1 :: rest.1) c.front rest.2.front := by
        intro hline e c' hon node rest
        obtain ⟨hnode, hplaced⟩ := placed_recover_cons (e := e) hclosed hon hrest hline
        obtain ⟨hmore, hspread⟩ := ih node.2 (hnode.ordered hclosed).1
        exact ⟨((onward_depth c 0).trans hnode).trans hmore, hplaced.spread.append hspread⟩
      by_cases hline : l.token = .newline
      · rw [blockRounds_run_newline hrest hline]
        have hon : Onward c { c with depth := 0, last := some l, rest := ls } := .one hrest rfl rfl
        obtain ⟨hmore, hspread⟩ := ih _ (hon.ordered hc).1
        exact ⟨hon.trans hmore, hspread.mono (hon.front_le hc) (le_refl _)⟩
      cases hword : l.token.closesBlock with
      | true =>
        cases top with
        | false =>
          rw [blockRounds_run_closes hrest hword]
          exact ⟨onward_depth c 0, spread_nil (le_refl _)⟩
        | true =>
          rw [blockRounds_run_stray hrest hword]
          exact hrecover hline _ _ (.refl _)
      | false =>
        rw [blockRounds_run_statement hrest hline hword]
        obtain ⟨hon, hresult⟩ := hone _ rfl hclosed
        rcases hrun : one.on { c with depth := 0 } with ⟨e | t, c'⟩
        · rw [hrun] at hon
          exact hrecover hline e c' hon
        · rw [hrun] at hon hresult
          have hc' := (hon.ordered hclosed).1
          obtain ⟨hfinish, hjunk⟩ := spread_finishLine hc'
          obtain ⟨hmore, hspread⟩ := ih _ (hfinish.ordered hc').1
          refine ⟨(((onward_depth c 0).trans hon).trans hfinish).trans hmore, ?_⟩
          exact (hresult t rfl).spread.append (hjunk.append hspread)

theorem lays_block {one : Parse (Tree Span)} (hone : PlacesLine one) (top : Bool) :
    Lays (block one top) := fun c hc =>
  lays_blockRounds hone top (c.rest.length + 1) c hc

/-- A step that cannot fail, as one that can. -/
theorem yields_liftM {m : Reading α} {Q : α → Cursor → Prop}
    (h : Onward c (m.run c).2 ∧ Q (m.run c).1 (m.run c).2) : Yields (liftM m) c Q :=
  fun _ => ⟨h.1, fun _ ha => Except.ok.inj ha ▸ h.2⟩

/-- A statement of one word. -/
theorem yields_word {node : Span → Tree Span} (hnote : ∀ s, (node s).note = s)
    (hparts : ∀ s, (node s).children = []) (hcall : ∀ s, (node s).kind ≠ .call)
    (hhead : c.settle.rest.head? = some l) :
    Yields (do let span ← here; discard (liftM advance : Parse (Option Lexeme)); return node span) c
      fun t c' => t.Placed c.front c'.front := by
  refine yields_lift (onward_settle c) fun hle => yields_read hhead fun ls hlies => .pure ?_
  refine placed_leaf ?_ (hparts _) (hcall _)
  have hspan : (here.run c).1 = l.span := by
    show (c.settle.rest.head?.map Lexeme.span).getD (Span.empty c.settle.eof) = _
    rw [hhead]
    rfl
  rw [hnote, hspan]
  exact hlies.mono hle (le_refl _)

/-- A statement, when the statements of its blocks are placed. -/
theorem placesLine_of_inner {room : Nat} (hinner : ∀ k < room, PlacesLine (statement k)) :
    PlacesLine (statement room) := by
  intro c hdepth
  have hsettle := settle_of_depth hdepth
  -- A selection or a loop takes a level for the statements of its blocks.
  unfold statement
  refine yields_peek fun hc => ?_
  rw [hsettle]
  split
  · next htoken =>
    obtain ⟨l, hhead, hl⟩ := Option.map_eq_some_iff.mp htoken
    obtain ⟨ls, hrest⟩ := List.head?_eq_some_iff.mp hhead
    cases room with
    | zero => exact yields_tooDeep c
    | succ room =>
      refine yields_liftM (placed_selection (places_level room).expression
        (stopsAtLineEnd_expression room) ?_ hc hdepth hrest hl)
      exact lays_block (hinner room (Nat.lt_succ_self _)) false
  · next htoken =>
    obtain ⟨l, hhead, hl⟩ := Option.map_eq_some_iff.mp htoken
    obtain ⟨ls, hrest⟩ := List.head?_eq_some_iff.mp hhead
    cases room with
    | zero => exact yields_tooDeep c
    | succ room =>
      refine yields_liftM (placed_iteration (places_level room) ?_ hc hdepth hrest hl)
      exact lays_block (hinner room (Nat.lt_succ_self _)) false
  · next htoken =>
    obtain ⟨l, hhead, -⟩ := Option.map_eq_some_iff.mp htoken
    exact yields_word (fun _ => rfl) (fun _ => rfl) (fun _ => nofun) (hsettle.symm ▸ hhead)
  · next htoken =>
    obtain ⟨l, hhead, -⟩ := Option.map_eq_some_iff.mp htoken
    exact yields_word (fun _ => rfl) (fun _ => rfl) (fun _ => nofun) (hsettle.symm ▸ hhead)
  · exact places_simpleStatement (places_level room) c

theorem placesLine_statement (room : Nat) : PlacesLine (statement room) := by
  induction room using Nat.strongRecOn with
  | ind room ih => exact placesLine_of_inner ih

/-- The statements of a file lie one after the other in its text. -/
theorem spread_statements {lexemes : List Lexeme} {eof : Position}
    (h : Lexeme.InOrder {} lexemes eof) : Spread (statements lexemes eof).1 {} eof := by
  have hc : ({ rest := lexemes, eof } : Cursor).Ordered := ⟨le_refl _, h⟩
  obtain ⟨hon, hspread⟩ := lays_block (placesLine_statement maxNesting) true _ hc
  -- The block may stop before the end of the text, but not behind it.
  have hend := (hon.ordered hc).1.rest.le
  rw [hon.1] at hend
  exact hspread.mono (le_refl _) hend

end Parse

namespace Tree

theorem map_span_numberAll (ts : List (Tree Span)) (n : Nat) :
    ((numberAll ts).run n).1.map span = ts.map note := by
  induction ts generalizing n with
  | nil => rfl
  | cons t ts ih =>
    rw [numberAll_run_cons, List.map_cons, List.map_cons, ih, span, (number_run t n).2.1]

theorem mem_numberAll {ts : List (Tree Span)} {n : Nat} {t' : Tree Mark}
    (h : t' ∈ ((numberAll ts).run n).1) : ∃ t ∈ ts, ∃ k, t' = (t.number.run k).1 := by
  induction ts generalizing n with
  | nil => cases h
  | cons t ts ih =>
    rw [numberAll_run_cons, List.mem_cons] at h
    rcases h with rfl | h
    · exact ⟨t, List.mem_cons_self, n, rfl⟩
    · obtain ⟨u, hu, hnumber⟩ := ih h
      exact ⟨u, List.mem_cons_of_mem _ hu, hnumber⟩

/-- Numbers are given to the nodes one by one. -/
theorem mem_preorder_number {t : Tree Span} {n : Nat} {u : Tree Mark}
    (h : u ∈ (t.number.run n).1.preorder) : ∃ v ∈ t.preorder, ∃ k, u = (v.number.run k).1 := by
  induction t using inductionOnParts generalizing n with
  | node t ih =>
    rw [preorder_eq, (number_run t n).1, List.mem_cons, List.mem_flatMap] at h
    rcases h with rfl | ⟨c', hc', hu⟩
    · exact ⟨t, mem_preorder_self t, n, rfl⟩
    · obtain ⟨c, hc, k, rfl⟩ := mem_numberAll hc'
      obtain ⟨v, hv, hnumber⟩ := ih c hc hu
      exact ⟨v, mem_preorder_of_mem_children hc hv, hnumber⟩

/-- Numbers do not move the nodes. -/
theorem Laid.number {t : Tree Span} (h : t.Laid) (n : Nat) :
    (t.number.run n).1.Nested Mark.span := by
  induction h generalizing n with
  | @intro t _ inside apart call ih =>
    obtain ⟨hchildren, hnote, hkind, -⟩ := number_run t n
    refine .intro ?_ ?_ ?_ ?_
    · intro c' hc'
      rw [hchildren] at hc'
      obtain ⟨c, hc, k, rfl⟩ := mem_numberAll hc'
      exact ih c hc k
    · intro c' hc'
      rw [hchildren] at hc'
      obtain ⟨c, hc, k, rfl⟩ := mem_numberAll hc'
      rw [hnote, (number_run c k).2.1]
      exact inside c hc
    · -- The stretches of the parts are the same list before and after.
      have hspans := List.pairwise_map.mpr apart
      rw [← map_span_numberAll t.children n] at hspans
      rw [hchildren]
      exact List.pairwise_map.mp hspans
    · intro hcall
      obtain ⟨name, args, hparts, hname, hstart, hvoid⟩ := call (hkind.symm.trans hcall)
      rw [hchildren, hparts, hnote, numberAll_run_cons, numberAll_run_cons]
      refine ⟨_, _, rfl, ?_, ?_⟩
      · rw [(number_run name n).1, hname]
        rfl
      · rw [(number_run args _).2.1]
        exact ⟨hstart, hvoid⟩

end Tree

/-- The nodes of a file are laid out in its text, however malformed the text is. -/
theorem SourceFile.nested_root (text : String) : (parse text).root.Nested Mark.span := by
  have hparts := Parse.spread_statements (Lexer.inOrder_scan {} text.toList)
  have hroot : (Tree.file ⟨{}, Position.after {} text.toList⟩ (Parse.statements
      (Lexed.ofText text).lexemes (Position.after {} text.toList)).1).Laid :=
    .intro hparts.laid hparts.inside hparts.apart nofun
  exact hroot.number 0

end MesonLens
