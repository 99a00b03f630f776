import MesonLens.Proofs.Syntax.Expression

/-!
# `MesonLens.Proofs.Syntax.RoundTrip`: reading a program that was written

A program that is written as tokens and read again is the same program, and nothing is found
wrong with it. Every expression is read as it is written (`Parse.readsBack`), and this module goes
on with lines, blocks and whole programs.

* `ReadsLine`: a statement is read up to the end of its last line;
* `ReadsBlock`: statements are read up to the word that closes their block, or up to the end of
  the text;
* `ReadsArms`: the branches of a selection are read up to the end of its last line.

A statement is in a block and has blocks, so the three are proved together (`readsLine`,
`readsArms`).
-/

set_option autoImplicit false

namespace MesonLens

namespace Parse

open Cursor

variable {d room : Nat} {t : Token} {ts follow : List Token} {tree : Tree Unit} {c : Cursor}
  {e : Expr}

/-! ### Lines -/

/-- Outside of brackets there are none to forget. -/
theorem close_at (hc : c.At 0 ts) : ({ c with depth := 0 } : Cursor) = c := by
  rw [← hc.depth]

/-- A line starts with a word, which is read next. -/
theorem advance_run_word (hc : c.At 0 (t :: ts)) (ht : t ≠ .newline) :
    ∃ span raw c', c.settle = c ∧ c.rest.head? = some ⟨t, span, raw⟩ ∧
      advance.run c = (some ⟨t, span, raw⟩, c') ∧ c'.Past (depthAfter 0 t) ts := by
  have hsettle := hc.settle_eq (.inl rfl)
  obtain ⟨⟨token, span, raw⟩, c', hpeek, hl, hadvance, hpast⟩ := advance_run_at hc ht
  cases hl
  rw [peek_run, hsettle] at hpeek
  exact ⟨span, raw, c', hsettle, congrArg Prod.fst hpeek, hadvance, hpast⟩

theorem finishLine_run_at (hc : c.Past d (.newline :: follow)) :
    ∃ c', finishLine.run c = ([], c') ∧ c'.At 0 follow := by
  obtain ⟨l, ls, hrest, hl, hls⟩ := hc.toAt.cons
  exact ⟨_, finishLine_run_newline hc.last hrest hl, hls, rfl, hc.errors⟩

theorem orRecover_run_at {m : Parse (Tree Span)} (h : Gives m d ts tree follow)
    (hc : c.At d (ts ++ follow)) :
    ∃ t c', (orRecover m).run c = (t, c') ∧ t.bare = tree ∧ c'.Past d follow := by
  obtain ⟨t, c', hrun, ht, hpast⟩ := h c hc
  exact ⟨t, c', by rw [orRecover_run, hrun], ht, hpast⟩

/-- Nothing goes on with an expression at the end of its line. -/
theorem ends_newline : Ends 0 0 (.newline :: follow) where
  stops := by
    rintro _ ⟨⟩ k ⟨⟩
  calm := .inl rfl

/-! ### Statements of one line -/

/-- The expressions are not too tall. -/
def Short (es : List Expr) : Prop := ∀ e ∈ es, e.toTree.height ≤ maxHeight

/-- A statement is read as it is written, up to the end of its last line. -/
def ReadsLine (s : Stmt) : Prop :=
  ∀ room, s.nesting ≤ room → Short s.expressions → ∀ c follow, c.At 0 (s.tokens ++ follow) →
    ∃ t c', (statement room).on c = (.ok t, c') ∧ t.bare = s.toTree ∧
      c'.Past 0 (.newline :: follow)

theorem startsStatement_of_startsExpression (h : startsExpression t = true) :
    startsStatement t = false := by
  cases t <;> first | rfl | cases h

/-- A line that starts with an expression. -/
theorem statement_on_expression (hstarts : startsExpression t = true) (hc : c.At 0 (t :: ts)) :
    (statement room).on c = (simpleStatement (level room)).on c := by
  have hsettle := hc.settle_eq (.inl rfl)
  obtain ⟨l, ls, hrest, hl, -⟩ := hc.cons
  have hhead : ∀ l ∈ c.settle.rest.head?, startsStatement l.token = false := by
    rw [hsettle, hrest]
    rintro _ ⟨⟩
    rw [hl]
    exact startsStatement_of_startsExpression hstarts
  rw [statement_on_simple hhead, hsettle]

theorem readsLine_expression (e : Expr) : ReadsLine (.expression e) := by
  intro room hnesting hshort c follow hc
  rw [Stmt.nesting] at hnesting
  rw [Stmt.expressions] at hshort
  rw [Stmt.tokens, List.append_assoc] at hc
  obtain ⟨t, c', hrun, ht, hpast⟩ :=
    (readsBack e).expression hnesting (hshort e List.mem_cons_self) ends_newline c hc
  obtain ⟨first, hhead, hstarts, -⟩ := (starts_tokens e).append ([.newline] ++ follow)
  obtain ⟨more, hmore⟩ := List.head?_eq_some_iff.mp hhead
  refine ⟨t, c', ?_, by rw [ht, Stmt.toTree], hpast⟩
  rw [hmore] at hc
  rw [statement_on_expression hstarts hc, simpleStatement, on_bind_of_ok hrun, on_lift_bind,
    peek_run_at hpast.toAt (.inl rfl)]
  obtain ⟨l, ls, hrest, hl, -⟩ := hpast.toAt.cons
  rw [hrest, List.head?_cons, Option.bind_some, hl]
  rfl

theorem readsLine_assignment (target : String) (op : AssignOp) (value : Expr) :
    ReadsLine (.assignment target op value) := by
  intro room hnesting hshort c follow hc
  rw [Stmt.nesting] at hnesting
  rw [Stmt.expressions] at hshort
  rw [Stmt.tokens] at hc
  have hop : AssignOp.ofToken? op.token = some op := by cases op <;> rfl
  have hline : op.token ≠ .newline := by cases op <;> nofun
  have hdepth : depthAfter 0 op.token = 0 := by cases op <;> rfl
  have hends : Ends 0 0 (op.token :: (value.tokens ++ .newline :: follow)) :=
    ends_cons (by cases op <;> rfl) hline
  have hassign : c.At 0 ([.name target] ++ op.token :: (value.tokens ++ .newline :: follow)) := by
    simpa using hc
  obtain ⟨target', c₁, hrun₁, htarget, hpast₁⟩ :=
    gives_name target (Nat.le_trans (Nat.le_add_left 1 _) hnesting) hends c hassign
  obtain ⟨l, c₂, hpeek, hl, hadvance, hpast₂⟩ := advance_run_at hpast₁.toAt hline
  rw [hdepth] at hpast₂
  obtain ⟨value', c₃, hrun₂, hvalue, hpast₃⟩ :=
    (readsBack value).expression hnesting (hshort value List.mem_cons_self) ends_newline c₂
      hpast₂.toAt
  -- Only a name may be assigned to.
  have hkind : ¬ target'.kind ≠ .identifier := by
    rw [← target'.kind_bare, htarget]
    exact fun hne => hne rfl
  refine ⟨.assignment (target'.note.join value'.note) target' op value', c₃, ?_,
    by rw [Tree.bare, htarget, hvalue, Stmt.toTree], hpast₃⟩
  rw [statement_on_expression rfl hassign, simpleStatement, on_bind_of_ok hrun₁, on_lift_bind,
    hpeek]
  dsimp only
  rw [Option.bind_some, hl, hop]
  dsimp only
  rw [on_discard_bind, hadvance, if_neg hkind, on_bind_of_ok hrun₂]
  rfl

theorem readsLine_breakLoop : ReadsLine .breakLoop := by
  intro room _ _ c follow hc
  rw [Stmt.tokens] at hc
  obtain ⟨_, _, c', hsettle, hhead, hadvance, hpast⟩ := advance_run_word hc nofun
  rw [← hsettle] at hhead
  have hrun := statement_on_break room hhead rfl
  rw [hsettle, hadvance] at hrun
  exact ⟨.breakLoop _, c', hrun, by rw [Tree.bare, Stmt.toTree], hpast⟩

theorem readsLine_continueLoop : ReadsLine .continueLoop := by
  intro room _ _ c follow hc
  rw [Stmt.tokens] at hc
  obtain ⟨_, _, c', hsettle, hhead, hadvance, hpast⟩ := advance_run_word hc nofun
  rw [← hsettle] at hhead
  have hrun := statement_on_continue room hhead rfl
  rw [hsettle, hadvance] at hrun
  exact ⟨.continueLoop _, c', hrun, by rw [Tree.bare, Stmt.toTree], hpast⟩

/-! ### Blocks -/

/-- What may follow a block: the word that closes it, or the end of the text. -/
def Closes (top : Bool) (ts : List Token) : Prop :=
  ts = [] ∨ top = false ∧ ∃ t ∈ ts.head?, t.closesBlock = true

/-- Statements are read as they are written, up to what closes their block. -/
def ReadsBlock (ss : List Stmt) : Prop :=
  ∀ room, Stmt.nestingAll ss ≤ room → Short (Stmt.expressionsAll ss) → ∀ top c follow,
    Closes top follow → c.At 0 (Stmt.tokensAll ss ++ follow) →
      ∃ ts c', (block (statement room) top).run c = (ts, c') ∧
        Tree.bareAll ts = Stmt.toTrees ss ∧ c'.At 0 follow

theorem closesBlock_of_startsExpression (h : startsExpression t = true) :
    t.closesBlock = false := by
  cases t <;> first | rfl | cases h

/-- A statement does not start with a line end or a word that closes a block. -/
theorem head_tokens (s : Stmt) : ∃ t more, s.tokens = t :: more ∧ t ≠ .newline ∧
    t.closesBlock = false := by
  cases s with
  | expression e =>
    obtain ⟨t, hhead, hstarts, -⟩ := (starts_tokens e).append [.newline]
    obtain ⟨more, hmore⟩ := List.head?_eq_some_iff.mp hhead
    exact ⟨t, more, by rw [Stmt.tokens, hmore], ne_newline_of_startsExpression hstarts,
      closesBlock_of_startsExpression hstarts⟩
  | _ =>
    rw [Stmt.tokens]
    exact ⟨_, _, rfl, nofun, rfl⟩

/-- What closes a block ends it. -/
theorem blockRounds_run_at_closes {one : Parse (Tree Span)} {top : Bool} {rounds : Nat}
    (hfollow : Closes top follow) (hc : c.At 0 follow) :
    (blockRounds one top (rounds + 1)).run c = ([], c) := by
  rcases hfollow with rfl | ⟨rfl, t, hhead, hcloses⟩
  · have hrest : c.rest = [] := List.map_eq_nil_iff.mp hc.tokens
    rw [blockRounds_run_nil hrest, close_at hc]
  · obtain ⟨more, rfl⟩ := List.head?_eq_some_iff.mp hhead
    obtain ⟨l, ls, hrest, hl, -⟩ := hc.cons
    rw [blockRounds_run_closes hrest (hl ▸ hcloses), close_at hc]

/-- Each round of a block reads a statement with the end of its line. -/
theorem blockRounds_run_at {ss : List Stmt} (h : ∀ s ∈ ss, ReadsLine s)
    (hnesting : Stmt.nestingAll ss ≤ room) (hshort : Short (Stmt.expressionsAll ss))
    {top : Bool} {rounds : Nat} (hrounds : ss.length < rounds) (hfollow : Closes top follow)
    (hc : c.At 0 (Stmt.tokensAll ss ++ follow)) :
    ∃ ts c', (blockRounds (statement room) top rounds).run c = (ts, c') ∧
      Tree.bareAll ts = Stmt.toTrees ss ∧ c'.At 0 follow := by
  obtain ⟨n, rfl⟩ : ∃ n, rounds = n + 1 := ⟨rounds - 1, by omega⟩
  induction ss generalizing n c with
  | nil =>
    rw [Stmt.tokensAll] at hc
    refine ⟨[], c, blockRounds_run_at_closes hfollow hc, by rw [Stmt.toTrees, Tree.bareAll], hc⟩
  | cons s ss ih =>
    rw [Stmt.nestingAll, Nat.max_le] at hnesting
    rw [Stmt.expressionsAll] at hshort
    obtain ⟨hsshort, hssshort⟩ := List.forall_mem_append.mp hshort
    obtain ⟨hs, hss⟩ := List.forall_mem_cons.mp h
    rw [Stmt.tokensAll, List.append_assoc] at hc
    obtain ⟨t, c₁, hrun, ht, hpast⟩ := hs room hnesting.1 hsshort c _ hc
    obtain ⟨c₂, hline, hat₂⟩ := finishLine_run_at hpast
    rw [List.length_cons] at hrounds
    -- One round is for this statement and its line end; the others are for the statements after it.
    obtain ⟨m, rfl⟩ : ∃ m, n = m + 1 := ⟨n - 1, by omega⟩
    obtain ⟨ts, c₃, hrest, hts, hat₃⟩ :=
      ih hss hnesting.2 hssshort hat₂ m (Nat.lt_of_succ_lt_succ hrounds)
    refine ⟨t :: ts, c₃, ?_, by rw [Tree.bareAll, ht, hts, Stmt.toTrees], hat₃⟩
    obtain ⟨first, more, hmore, hfirst, hopen⟩ := head_tokens s
    have hhead : c.At 0 (first :: (more ++ (Stmt.tokensAll ss ++ follow))) := by
      rwa [hmore] at hc
    obtain ⟨l, ls, hls, hl, -⟩ := hhead.cons
    rw [blockRounds_run_statement hls (hl ▸ hfirst) (hl ▸ hopen), close_at hc, hrun]
    dsimp only
    rw [hline]
    dsimp only
    rw [hrest, List.nil_append]

theorem length_le_length_tokensAll (ss : List Stmt) :
    ss.length ≤ (Stmt.tokensAll ss).length := by
  induction ss with
  | nil => exact Nat.zero_le _
  | cons s ss ih =>
    obtain ⟨t, more, hmore, -, -⟩ := head_tokens s
    rw [Stmt.tokensAll, hmore, List.length_cons, List.length_append, List.length_cons]
    omega

theorem readsBlock {ss : List Stmt} (h : ∀ s ∈ ss, ReadsLine s) : ReadsBlock ss := by
  intro room hnesting hshort top c follow hfollow hc
  have hlength := length_le_length_tokensAll ss
  have hrounds : ss.length < c.rest.length + 1 := by
    rw [hc.length_eq, List.length_append]
    omega
  exact blockRounds_run_at h hnesting hshort hrounds hfollow hc

/-! ### Selections -/

/-- The line of a branch ends, and its block follows. -/
theorem body_run_at {body : List Stmt} (hbody : ReadsBlock body)
    (hnesting : Stmt.nestingAll body ≤ room) (hshort : Short (Stmt.expressionsAll body))
    (hfollow : Closes false follow)
    (hc : c.Past 0 (.newline :: (Stmt.tokensAll body ++ follow))) :
    ∃ ts c', (block (statement room) false).run (finishHeader.run c).2 = (ts, c') ∧
      Tree.bareAll ts = Stmt.toTrees body ∧ c'.At 0 follow := by
  obtain ⟨c₁, hline, hat⟩ := finishLine_run_at hc
  have hheader : (finishHeader.run c).2 = c₁ := congrArg Prod.snd hline
  rw [hheader]
  exact hbody room hnesting hshort false c₁ follow hfollow hat

/-- A keyword, a condition and the block that it guards. -/
theorem guarded_run_at {keyword : Token} {condition : Expr} {body : List Stmt}
    (hkeyword : keyword = .kwIf ∨ keyword = .kwElif) (hbody : ReadsBlock body)
    (hcnesting : condition.nesting + 1 ≤ room) (hbnesting : Stmt.nestingAll body ≤ room)
    (hcshort : condition.toTree.height ≤ maxHeight) (hbshort : Short (Stmt.expressionsAll body))
    (hfollow : Closes false follow)
    (hc : c.At 0 (keyword :: condition.tokens ++ .newline :: Stmt.tokensAll body ++ follow)) :
    ∃ e c₁ ts c₂, (orRecover (level room).expression).run (advance.run c).2 = (e, c₁) ∧
      (block (statement room) false).run (finishHeader.run c₁).2 = (ts, c₂) ∧
      e.bare = condition.toTree ∧ Tree.bareAll ts = Stmt.toTrees body ∧ c₂.At 0 follow := by
  have hline : keyword ≠ .newline := by rcases hkeyword with rfl | rfl <;> nofun
  have hdepth : depthAfter 0 keyword = 0 := by rcases hkeyword with rfl | rfl <;> rfl
  have hc' : c.At 0 (keyword :: (condition.tokens ++ .newline ::
      (Stmt.tokensAll body ++ follow))) := by simpa using hc
  obtain ⟨l, c₀, -, -, hadvance, hpast₀⟩ := advance_run_at hc' hline
  rw [hdepth] at hpast₀
  obtain ⟨e, c₁, hrun, he, hpast₁⟩ :=
    orRecover_run_at ((readsBack condition).expression hcnesting hcshort ends_newline) hpast₀.toAt
  obtain ⟨ts, c₂, hblock, hts, hat⟩ := body_run_at hbody hbnesting hbshort hfollow hpast₁
  exact ⟨e, c₁, ts, c₂, by rw [hadvance, hrun], hblock, he, hts, hat⟩

/-- The branches of a selection are read as they are written, up to the end of its last
line. Every branch takes a round. -/
def ReadsArms (arms : Arms) : Prop :=
  ∀ room, arms.nesting ≤ room → Short arms.expressions → ∀ c follow rounds,
    arms.tokens.length ≤ rounds → c.At 0 (arms.tokens ++ follow) →
      ∃ conditions bodies c', (moreBranches (level room) (block (statement room) false) rounds
          false).run c = ((conditions, bodies), c') ∧
        (Branches.ofLists conditions bodies).bare = arms.toBranches ∧
        c'.Past 0 (.newline :: follow)

/-- Each branch closes the block before it. -/
theorem closes_arms (arms : Arms) (follow : List Token) : Closes false (arms.tokens ++ follow) := by
  cases arms with
  | done | otherwise | arm =>
    rw [Arms.tokens]
    exact .inr ⟨rfl, _, rfl, rfl⟩

theorem moreBranches_run_at_endif {inner : Level} {block : Reading (List (Tree Span))}
    {rounds : Nat} {seenElse : Bool} (hc : c.At 0 (.kwEndif :: ts)) :
    ∃ c', (moreBranches inner block (rounds + 1) seenElse).run c = (([], []), c') ∧
      c'.Past 0 ts := by
  obtain ⟨span, raw, c', -, hhead, hadvance, hpast⟩ := advance_run_word hc nofun
  refine ⟨c', ?_, hpast⟩
  rw [moreBranches_run_endif hhead, close_at hc, hadvance]

theorem readsArms_done : ReadsArms .done := by
  intro room _ _ c follow rounds hrounds hc
  rw [Arms.tokens] at hc hrounds
  obtain ⟨n, rfl⟩ : ∃ n, rounds = n + 1 := ⟨rounds - 1, by simp at hrounds; omega⟩
  obtain ⟨c', hrun, hpast⟩ := moreBranches_run_at_endif hc
  exact ⟨[], [], c', hrun, by rw [Branches.ofLists, Branches.bare, Arms.toBranches], hpast⟩

theorem readsArms_otherwise {body : List Stmt} (hbody : ReadsBlock body) :
    ReadsArms (.otherwise body) := by
  intro room hnesting hshort c follow rounds hrounds hc
  rw [Arms.nesting] at hnesting
  rw [Arms.expressions] at hshort
  rw [Arms.tokens] at hc hrounds
  obtain ⟨n, rfl⟩ : ∃ n, rounds = n + 1 + 1 := ⟨rounds - 2, by simp at hrounds; omega⟩
  have hc' : c.At 0 (.kwElse :: .newline :: (Stmt.tokensAll body ++
      .kwEndif :: .newline :: follow)) := by simpa using hc
  obtain ⟨span, raw, c₁, -, hhead, hadvance, hpast₁⟩ := advance_run_word hc' nofun
  obtain ⟨ts, c₂, hblock, hts, hat₂⟩ :=
    body_run_at hbody hnesting hshort (.inr ⟨rfl, _, rfl, rfl⟩) hpast₁
  -- After `else` there is only the end of the selection, though another branch would be looked for.
  obtain ⟨c₃, hrest, hpast₃⟩ := moreBranches_run_at_endif hat₂
  refine ⟨[], [ts], c₃, ?_, ?_, hpast₃⟩
  · have hmid : atBranch false .repeatedElse span c = c := close_at hc
    rw [moreBranches_run_else hhead]
    dsimp only
    rw [hmid, hadvance, hblock]
    dsimp only
    rw [hrest]
  · rw [Branches.ofLists, Branches.bare, Arms.toBranches, List.flatten_singleton, hts]

theorem readsArms_arm {condition : Expr} {body : List Stmt} {rest : Arms}
    (hbody : ReadsBlock body) (hrest : ReadsArms rest) :
    ReadsArms (.arm condition body rest) := by
  intro room hnesting hshort c follow rounds hrounds hc
  rw [Arms.nesting, Nat.max_le, Nat.max_le] at hnesting
  rw [Arms.expressions] at hshort
  rw [Arms.tokens] at hc hrounds
  obtain ⟨hguarded, hrshort⟩ := List.forall_mem_append.mp hshort
  obtain ⟨hcshort, hbshort⟩ := List.forall_mem_cons.mp hguarded
  simp only [List.cons_append, List.length_cons, List.length_append] at hrounds
  obtain ⟨n, rfl⟩ : ∃ n, rounds = n + 1 := ⟨rounds - 1, by omega⟩
  rw [List.append_assoc] at hc
  obtain ⟨span, raw, _, -, hhead, -, -⟩ := advance_run_word hc nofun
  obtain ⟨e, c₁, ts, c₂, hcondition, hblock, he, hts, hat₂⟩ :=
    guarded_run_at (.inr rfl) hbody hnesting.1 hnesting.2.1 hcshort hbshort
      (closes_arms rest follow) hc
  -- One round is for this branch, and the others are for the branches after it.
  obtain ⟨conditions, bodies, c₃, hmore, hbranches, hpast₃⟩ :=
    hrest room hnesting.2.2 hrshort c₂ follow n (by omega) hat₂
  refine ⟨e :: conditions, ts :: bodies, c₃, ?_, ?_, hpast₃⟩
  · have hmid : atBranch false .elifAfterElse span c = c := close_at hc
    rw [moreBranches_run_elif hhead]
    dsimp only
    rw [hmid, hcondition]
    dsimp only
    rw [hblock]
    dsimp only
    rw [hmore]
  · rw [Branches.ofLists, Branches.bare, he, hts, hbranches, Arms.toBranches]

theorem readsLine_selection {condition : Expr} {body : List Stmt} {rest : Arms}
    (hbody : ReadsBlock body) (hrest : ReadsArms rest) :
    ReadsLine (.selection condition body rest) := by
  intro room hnesting hshort c follow hc
  rw [Stmt.nesting] at hnesting
  rw [Stmt.expressions] at hshort
  rw [Stmt.tokens] at hc
  obtain ⟨room, rfl⟩ : ∃ n, room = n + 1 := ⟨room - 1, by omega⟩
  have hparts := Nat.le_of_succ_le_succ hnesting
  rw [Nat.max_le, Nat.max_le] at hparts
  obtain ⟨hguarded, hrshort⟩ := List.forall_mem_append.mp hshort
  obtain ⟨hcshort, hbshort⟩ := List.forall_mem_cons.mp hguarded
  rw [List.append_assoc] at hc
  obtain ⟨_, _, _, hsettle, hhead, -, -⟩ := advance_run_word hc nofun
  rw [← hsettle] at hhead
  obtain ⟨e, c₁, ts, c₂, hcondition, hblock, he, hts, hat₂⟩ :=
    guarded_run_at (.inl rfl) hbody hparts.1 hparts.2.1 hcshort hbshort
      (closes_arms rest follow) hc
  have hrounds : rest.tokens.length ≤ c₂.rest.length + 1 := by
    rw [hat₂.length_eq, List.length_append]
    omega
  obtain ⟨conditions, bodies, c₃, hmore, hbranches, hpast₃⟩ :=
    hrest room hparts.2.2 hrshort c₂ follow _ hrounds hat₂
  -- The rule reads these parts in the same order.
  obtain ⟨span, hrun⟩ := selection_run (level room) (block (statement room) false) c
  rw [hsettle, hcondition] at hrun
  dsimp only at hrun
  rw [hblock] at hrun
  dsimp only at hrun
  rw [hmore] at hrun
  refine ⟨.selection span (Branches.ofLists (e :: conditions) (ts :: bodies)), c₃, ?_, ?_, hpast₃⟩
  · rw [statement_on_selection hhead rfl, hsettle, hrun]
  · rw [Branches.ofLists, Tree.bare, Branches.bare, he, hts, hbranches, Stmt.toTree]

/-! ### Loops -/

/-- The last loop variable has a colon after it. -/
theorem loopVariables_on_last {name : String} (rounds : Nat)
    (hc : c.At 0 (.name name :: .colon :: follow)) :
    ∃ span c', (loopVariables (rounds + 1)).on c = (.ok [.identifier span name], c') ∧
      c'.Past 0 (.colon :: follow) := by
  obtain ⟨⟨token, span, raw⟩, c', hpeek, hl, hadvance, hpast⟩ := advance_run_at hc nofun
  cases hl
  have hcomma : (eat .comma).run c' = (none, c') :=
    eat_run_at_none hpast.toAt (.inl rfl) nofun
  refine ⟨span, c', ?_, hpast⟩
  rw [loopVariables, on_lift_bind, hpeek]
  dsimp only
  rw [on_discard_bind, hadvance, on_lift_bind, hcomma]
  rfl

/-- One or two loop variables. -/
theorem loopVariables_on_at {name : String} {second : Option String} {rounds : Nat}
    (hrounds : 2 ≤ rounds)
    (hc : c.At 0 (.name name :: (second.map fun second => [.comma, .name second]).getD [] ++
      .colon :: follow)) :
    ∃ names c', (loopVariables rounds).on c = (.ok names, c') ∧
      Tree.bareAll names = .identifier () name :: (second.map (Tree.identifier ())).toList ∧
      c'.Past 0 (.colon :: follow) := by
  obtain ⟨n, rfl⟩ : ∃ n, rounds = n + 1 + 1 := ⟨rounds - 2, by omega⟩
  cases second with
  | none =>
    obtain ⟨span, c', hrun, hpast⟩ := loopVariables_on_last (n + 1) hc
    exact ⟨[.identifier span name], c', hrun, rfl, hpast⟩
  | some second =>
    obtain ⟨⟨token, span, raw⟩, c₁, hpeek, hl, hadvance, hpast₁⟩ := advance_run_at hc nofun
    cases hl
    obtain ⟨_, c₂, heat, hpast₂⟩ := eat_run_at hpast₁.toAt nofun
    obtain ⟨span', c₃, hsecond, hpast₃⟩ := loopVariables_on_last n hpast₂.toAt
    refine ⟨[.identifier span name, .identifier span' second], c₃, ?_, rfl, hpast₃⟩
    rw [loopVariables, on_lift_bind, hpeek]
    dsimp only
    rw [on_discard_bind, hadvance, on_lift_bind, heat]
    exact on_bind_of_ok hsecond

/-- The variables of a loop and what they run through. -/
theorem loopHeader_on_at {name : String} {second : Option String} {iterable : Expr}
    (hnesting : iterable.nesting + 1 ≤ room) (hshort : iterable.toTree.height ≤ maxHeight)
    (hc : c.At 0 (.name name :: (second.map fun second => [.comma, .name second]).getD [] ++
      .colon :: (iterable.tokens ++ .newline :: follow))) :
    ∃ names e c', (loopHeader (level room)).on c = (.ok (names, e), c') ∧
      Tree.bareAll names = .identifier () name :: (second.map (Tree.identifier ())).toList ∧
      e.bare = iterable.toTree ∧ c'.Past 0 (.newline :: follow) := by
  have hrounds : 2 ≤ c.rest.length + 1 := by
    rw [hc.length_eq]
    simp
  obtain ⟨names, c₁, hnames, htrees, hpast₁⟩ := loopVariables_on_at hrounds hc
  obtain ⟨c₂, hcolon, hpast₂⟩ := discard_expect_on_at hpast₁.toAt nofun
  obtain ⟨e, c₃, hrun, he, hpast₃⟩ :=
    (readsBack iterable).expression hnesting hshort ends_newline c₂ hpast₂.toAt
  -- One or two variables are written, so there are not too many.
  have hfew : ¬ 2 < names.length := by
    have hlength := congrArg List.length htrees
    rw [Tree.bareAll_eq_map, List.length_map] at hlength
    cases second <;> simp at hlength <;> omega
  refine ⟨names, e, c₃, ?_, htrees, he, hpast₃⟩
  rw [loopHeader, on_get_bind, on_bind_of_ok hnames, if_neg hfew, on_bind_of_ok hcolon,
    on_bind_of_ok hrun]
  rfl

theorem readsLine_iteration {name : String} {second : Option String} {iterable : Expr}
    {body : List Stmt} (hbody : ReadsBlock body) :
    ReadsLine (.iteration name second iterable body) := by
  intro room hnesting hshort c follow hc
  rw [Stmt.nesting] at hnesting
  rw [Stmt.expressions] at hshort
  rw [Stmt.tokens] at hc
  obtain ⟨room, rfl⟩ : ∃ n, room = n + 1 := ⟨room - 1, by omega⟩
  obtain ⟨hinesting, hbnesting⟩ := Nat.max_le.mp (Nat.le_of_succ_le_succ hnesting)
  obtain ⟨hishort, hbshort⟩ := List.forall_mem_cons.mp hshort
  have hc' : c.At 0 (.kwForeach :: (.name name ::
      (second.map fun second => [.comma, .name second]).getD [] ++ .colon :: (iterable.tokens ++
        .newline :: (Stmt.tokensAll body ++ .kwEndforeach :: .newline :: follow)))) := by
    simpa using hc
  obtain ⟨_, _, c₁, hsettle, hhead, hadvance, hpast₁⟩ := advance_run_word hc' nofun
  obtain ⟨names, e, c₂, hheader, hnames, he, hpast₂⟩ :=
    loopHeader_on_at hinesting hishort hpast₁.toAt
  obtain ⟨ts, c₃, hblock, hts, hat₃⟩ :=
    body_run_at hbody hbnesting hbshort (.inr ⟨rfl, _, rfl, rfl⟩) hpast₂
  obtain ⟨_, _, c₄, -, hhead₄, hadvance₄, hpast₄⟩ := advance_run_word hat₃ nofun
  -- The rule reads these parts in the same order.
  obtain ⟨span, hrun⟩ := iteration_run (level room) (block (statement room) false) c
  rw [hsettle, hadvance, headerOrRecover_run, hheader] at hrun
  dsimp only at hrun
  rw [hblock] at hrun
  dsimp only at hrun
  rw [closeLoop_run hhead₄ rfl, close_at hat₃, hadvance₄] at hrun
  rw [← hsettle] at hhead
  refine ⟨.iteration span names e ts, c₄, ?_, ?_, hpast₄⟩
  · rw [statement_on_iteration hhead rfl, hsettle, hrun]
  · rw [Tree.bare, hnames, he, hts, Stmt.toTree]

/-! ### Every statement -/

mutual

/-- Every statement is read as it is written. -/
theorem readsLine : ∀ s : Stmt, ReadsLine s
  | .expression e => readsLine_expression e
  | .assignment target op value => readsLine_assignment target op value
  | .selection _ _ rest =>
    readsLine_selection (readsBlock fun s _ => readsLine s) (readsArms rest)
  | .iteration _ _ _ _ => readsLine_iteration (readsBlock fun s _ => readsLine s)
  | .breakLoop => readsLine_breakLoop
  | .continueLoop => readsLine_continueLoop
  termination_by s => sizeOf s

/-- All branches are read as they are written. -/
theorem readsArms : ∀ arms : Arms, ReadsArms arms
  | .done => readsArms_done
  | .otherwise _ => readsArms_otherwise (readsBlock fun s _ => readsLine s)
  | .arm _ _ rest => readsArms_arm (readsBlock fun s _ => readsLine s) (readsArms rest)
  termination_by arms => sizeOf arms

end

/-- Writing a program and reading it again gives the program, and nothing is found wrong with
it, if it nests no deeper and its expressions are no taller than the grammar allows. The lexemes
may lie anywhere in a text: only their tokens matter. -/
theorem statements_tokensAll (program : List Stmt) (lexemes : List Lexeme) (eof : Position)
    (htokens : lexemes.map Lexeme.token = Stmt.tokensAll program)
    (hnesting : Stmt.nestingAll program ≤ maxNesting)
    (hheight : ∀ e ∈ Stmt.expressionsAll program, e.toTree.height ≤ maxHeight) :
    Tree.bareAll (statements lexemes eof).1 = Stmt.toTrees program ∧
      (statements lexemes eof).2 = [] := by
  have hstart : Cursor.At 0 (Stmt.tokensAll program ++ []) { rest := lexemes, eof } :=
    ⟨by rw [htokens, List.append_nil], rfl, rfl⟩
  obtain ⟨ts, c', hrun, hts, hat⟩ := readsBlock (fun s _ => readsLine s) maxNesting hnesting
    hheight true { rest := lexemes, eof } [] (.inl rfl) hstart
  unfold statements
  rw [hrun]
  exact ⟨hts, hat.errors⟩

/-- A difference as the operand of a product is read back from its parentheses, in a selection on
`not in`. -/
theorem statements_product_of_difference :
    let tokens : List Token := [.kwIf, .name "a", .kwNot, .kwIn, .name "b", .newline,
      .name "s", .addAssign, .integer 2, .mul, .lparen, .name "k", .sub, .name "v", .rparen,
      .newline, .kwEndif, .newline]
    let read := statements (tokens.map fun t => ⟨t, {}, ""⟩) {}
    Tree.bareAll read.1 =
      [.selection () (.arm
        (.binary () (.identifier () "a") .notIn (.identifier () "b"))
        [.assignment () (.identifier () "s") .add (.binary () (.integer () 2 "") .mul
          (.binary () (.identifier () "k") .sub (.identifier () "v")))] .done)] ∧
    read.2 = [] := by
  have hheight : ∀ e ∈ [Expr.binary (.identifier "a") .notIn (.identifier "b"),
      .binary (.integer 2) .mul (.binary (.identifier "k") .sub (.identifier "v"))],
      e.toTree.height ≤ maxHeight := by
    simp [Expr.toTree, Tree.height_eq, Tree.children, maxHeight]
  exact statements_tokensAll
    [.selection (.binary (.identifier "a") .notIn (.identifier "b"))
      [.assignment "s" .add
        (.binary (.integer 2) .mul (.binary (.identifier "k") .sub (.identifier "v")))] .done]
    _ {} (by decide) (by decide) hheight

end Parse

end MesonLens
