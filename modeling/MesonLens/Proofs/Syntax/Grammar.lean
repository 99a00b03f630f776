import MesonLens.Proofs.Syntax.Layout
import MesonLens.Proofs.Syntax.Lossless

/-!
# `MesonLens.Proofs.Syntax.Grammar`: the shape of a tree without errors

The type of trees lets any node stand anywhere. A text in which nothing is wrong gives a tree that
follows the grammar: operands are expressions, a call has a name and an argument list, an
assignment has a variable on its left, and nothing in the tree is malformed. `Tree.Formed` says
this of one node and its parts, `Tree.WellFormed` of every node of a tree.

* `Parse.Forms`, `Reading.Forms`: what a step gives, as long as no error is noted. An error that is
  noted stays noted, so a step without errors comes after steps without errors. `Parse.Forms.bind`
  puts two steps one after the other;
* `Parse.forms_level`, `Parse.forms_statement`: the rules of the grammar, one lemma for each;
* `SourceFile.wellFormed_root`: the tree of a whole text.

What is read before an error is noted may be of any shape, since `subdir('a') = 1` keeps the call
as the target of the assignment. So the conclusion of `Forms` is about the end of a step, and the
facts on its parts wait there as premises.
-/

set_option autoImplicit false

namespace MesonLens

/-! ### The shape of a node -/

/-- Whether nodes of the kind are expressions. -/
def Kind.isValue : Kind → Bool
  | array | binary | boolean | conditional | dictionary | call | identifier | integer | method
  | string | subscript | unary => true
  | _ => false

/-- Whether nodes of the kind are statements. An expression is a statement too. -/
def Kind.isStatement : Kind → Bool
  | assignment | selection | iteration | breakLoop | continueLoop => true
  | k => k.isValue

theorem Kind.isStatement_of_isValue {k : Kind} (h : k.isValue = true) : k.isStatement = true := by
  cases k with
  | assignment | selection | iteration | breakLoop | continueLoop => rfl
  | _ => exact h

namespace Tree

variable {α : Type}

/-- The parts of the node are what the grammar allows there. -/
def Formed : Tree α → Prop
  | file _ ts => ∀ t ∈ ts, t.kind.isStatement
  | arguments _ ts => ∀ t ∈ ts, t.kind.isValue ∨ t.kind = .keyword
  | array _ ts => ∀ t ∈ ts, t.kind.isValue
  | dictionary _ ts => ∀ t ∈ ts, t.kind = .entry
  | assignment _ target _ value => target.kind = .identifier ∧ value.kind.isValue
  | keyword _ key value => key.kind = .identifier ∧ value.kind.isValue
  | binary _ l _ r | subscript _ l r | entry _ l r => l.kind.isValue ∧ r.kind.isValue
  | conditional _ c t f => c.kind.isValue ∧ t.kind.isValue ∧ f.kind.isValue
  | call _ callee args => callee.kind = .identifier ∧ args.kind = .arguments
  | method _ object name args =>
    object.kind.isValue ∧ name.kind = .identifier ∧ args.map kind = some .arguments
  | unary _ _ t => t.kind.isValue
  | iteration _ names iterable body =>
    (∀ t ∈ names, t.kind = .identifier) ∧ iterable.kind.isValue ∧
      ∀ t ∈ body, t.kind.isStatement
  | selection _ bs =>
    (∀ t ∈ bs.conditions, t.kind.isValue) ∧ ∀ body ∈ bs.blocks, ∀ t ∈ body, t.kind.isStatement
  | malformed .. => False
  | boolean .. | identifier .. | integer .. | string .. | breakLoop .. | continueLoop .. => True

/-- Every node follows the grammar. -/
def WellFormed (t : Tree α) : Prop := ∀ n ∈ t.preorder, n.Formed

/-- The tree follows the grammar, and its kind is one of some. -/
structure Is (p : Kind → Prop) (t : Tree α) : Prop where
  wellFormed : t.WellFormed
  kind : p t.kind

variable {t c : Tree α}

theorem WellFormed.formed (h : t.WellFormed) : t.Formed := h t (mem_preorder_self t)

theorem WellFormed.part (h : t.WellFormed) (hc : c ∈ t.children) : c.WellFormed :=
  fun n hn => h n (mem_preorder_of_mem_children hc hn)

theorem wellFormed_of_parts (h : t.Formed) (hparts : ∀ c ∈ t.children, c.WellFormed) :
    t.WellFormed := by
  intro n hn
  rw [preorder_eq, List.mem_cons, List.mem_flatMap] at hn
  rcases hn with rfl | ⟨c, hc, hn⟩
  · exact h
  · exact hparts c hc n hn

theorem wellFormed_leaf (h : t.Formed) (hparts : t.children = []) : t.WellFormed :=
  wellFormed_of_parts h (by rw [hparts]; exact nofun)

theorem Is.mono {p q : Kind → Prop} (h : t.Is p) (hpq : ∀ k, p k → q k) : t.Is q :=
  ⟨h.wellFormed, hpq _ h.kind⟩

end Tree

/-! ### Steps without errors -/

section Forms

variable {α β : Type}

/-- When no error is noted after the step, none was noted before it, and `Q` holds of what the step
gives. -/
def Reading.Forms (m : Reading α) (Q : α → Prop) : Prop :=
  ∀ c, (m.run c).2.errors = [] → c.errors = [] ∧ Q (m.run c).1

/-- The same for a step that can fail. A step that fails gives nothing. -/
def Parse.Forms (m : Parse α) (Q : α → Prop) : Prop :=
  ∀ c a c', m.on c = (.ok a, c') → c'.errors = [] → c.errors = [] ∧ Q a

variable {Q : α → Prop} {R : β → Prop}

namespace Reading.Forms

theorem pure {a : α} (h : Q a) : Reading.Forms (pure a) Q := fun _ hc => ⟨hc, h⟩

/-- Two steps one after the other. What is known of the first is known at the end of the second. -/
theorem bind {m : Reading α} {f : α → Reading β} (hm : Reading.Forms m Q)
    (hf : ∀ a, Reading.Forms (f a) fun b => Q a → R b) : Reading.Forms (m >>= f) R := by
  intro c herrors
  obtain ⟨hmid, hR⟩ := hf (m.run c).1 (m.run c).2 herrors
  obtain ⟨hc, hQ⟩ := hm c hmid
  exact ⟨hc, hR hQ⟩

theorem mono {Q' : α → Prop} {m : Reading α} (h : Reading.Forms m Q) (hQ : ∀ a, Q a → Q' a) :
    Reading.Forms m Q' :=
  fun c hc => ⟨(h c hc).1, hQ _ (h c hc).2⟩

theorem get : Reading.Forms (MonadState.get : Reading Cursor) fun _ => True :=
  fun _ hc => ⟨hc, trivial⟩

end Reading.Forms

namespace Parse

namespace Forms

theorem pure {a : α} (h : Q a) : Forms (pure a) Q := by
  intro c b c' hrun hc
  cases hrun
  exact ⟨hc, h⟩

/-- Two steps one after the other. What is known of the first is known at the end of the second. -/
theorem bind {m : Parse α} {f : α → Parse β} (hm : Forms m Q)
    (hf : ∀ a, Forms (f a) fun b => Q a → R b) : Forms (m >>= f) R := by
  intro c b c' hrun herrors
  obtain ⟨a, mid, hmrun, hfrun⟩ := on_bind_ok hrun
  obtain ⟨hmid, hR⟩ := hf a mid b c' hfrun herrors
  obtain ⟨hc, hQ⟩ := hm c a mid hmrun hmid
  exact ⟨hc, hR hQ⟩

/-- A step that cannot fail, before another one. -/
theorem lift {m : Reading α} {f : α → Parse β} (hm : Reading.Forms m Q)
    (hf : ∀ a, Forms (f a) fun b => Q a → R b) : Forms (liftM m >>= f) R := by
  intro c b c' hrun herrors
  obtain ⟨hmid, hR⟩ := hf (m.run c).1 (m.run c).2 b c' hrun herrors
  obtain ⟨hc, hQ⟩ := hm c hmid
  exact ⟨hc, hR hQ⟩

theorem liftM {m : Reading α} (hm : Reading.Forms m Q) : Forms (liftM m) Q := by
  intro c a c' hrun herrors
  cases hrun
  exact hm c herrors

theorem mono {Q' : α → Prop} {m : Parse α} (h : Forms m Q) (hQ : ∀ a, Q a → Q' a) :
    Forms m Q' := by
  intro c a c' hrun hc
  exact ⟨(h c a c' hrun hc).1, hQ a (h c a c' hrun hc).2⟩

end Forms

/-- What would come after a failure does not matter. -/
theorem forms_throw (e : SyntaxError) (f : α → Parse β) : Forms (throw e >>= f) R := by
  intro c b c' hrun
  cases hrun

theorem forms_failWanting (wanted : Wanted) : Forms (failWanting wanted) Q := by
  intro c a c' hrun
  cases hrun

theorem forms_failWanting_bind (wanted : Wanted) (f : α → Parse β) :
    Forms (failWanting wanted >>= f) R := by
  intro c b c' hrun
  cases hrun

/-! ### Reading tokens -/

theorem forms_peek : Reading.Forms peek fun _ => True := by
  intro c hc
  rw [peek_run, c.settle_errors] at hc
  exact ⟨hc, trivial⟩

theorem forms_advance : Reading.Forms advance fun _ => True := by
  refine forms_peek.bind fun next => ?_
  cases next with
  | none => exact .pure fun _ => trivial
  | some l =>
    intro c hc
    refine ⟨?_, fun _ => trivial⟩
    -- Passing a lexeme notes nothing.
    have hpass : c.pass.errors = c.errors := by
      unfold Cursor.pass
      split <;> rfl
    exact hpass.symm.trans hc

theorem forms_eat (t : Token) : Reading.Forms (eat t) fun _ => True := by
  refine forms_peek.bind fun next => ?_
  cases next with
  | none => exact .pure fun _ => trivial
  | some l =>
    dsimp only
    split
    · exact forms_advance.bind fun _ => .pure fun _ _ => trivial
    · exact .pure fun _ => trivial

theorem forms_discard_advance : Reading.Forms (discard advance) fun _ => True :=
  forms_advance.bind fun _ => .pure fun _ => trivial

theorem forms_here : Reading.Forms here fun _ => True :=
  forms_peek.bind fun _ => Reading.Forms.get.bind fun _ => .pure fun _ _ => trivial

theorem forms_unexpected (wanted : Wanted) : Reading.Forms (unexpected wanted) fun _ => True :=
  forms_here.bind fun _ => forms_peek.bind fun _ => .pure fun _ _ => trivial

/-- A step that notes an error can be followed by anything. -/
theorem forms_report (fault : Fault) (span : Span) :
    Reading.Forms (report fault span) fun _ => False :=
  fun c hc => absurd hc (report_errors_ne fault span c)

theorem forms_expectAs (t : Token) (wanted : Wanted) :
    Forms (expectAs t wanted) fun _ => True := by
  refine .lift (forms_eat t) fun found => ?_
  cases found with
  | none => exact forms_failWanting wanted
  | some span => exact .pure fun _ => trivial

theorem forms_discard_expect (t : Token) : Forms (discard (expect t)) fun _ => True :=
  (forms_expectAs t _).bind fun _ => .pure fun _ => trivial

end Parse

end Forms

namespace Parse

open MesonLens.Tree (Is WellFormed wellFormed_of_parts wellFormed_leaf)

/-! ### Expressions -/

/-- The step gives an expression. -/
abbrev FormsValue (m : Parse (Tree Span)) : Prop := Forms m (Is (Kind.isValue ·))

/-- What is read one level further in are expressions. -/
structure Level.Forms (inner : Level) : Prop where
  conditional : FormsValue inner.conditional
  unary : FormsValue inner.unary

variable {inner : Level}

theorem Level.Forms.expression (h : inner.Forms) : FormsValue inner.expression := by
  refine h.conditional.bind fun e => ?_
  split
  · exact forms_throw _ _
  · exact .pure fun he => he

theorem forms_commaList {item : Parse (Tree Span)} {Q : Tree Span → Prop} (hitem : Forms item Q)
    (close : Token) (rounds : Nat) :
    Forms (commaList item close rounds) fun r => ∀ t ∈ r.1, Q t := by
  induction rounds with
  | zero => exact forms_failWanting _
  | succ rounds ih =>
    refine .lift (forms_eat close) fun found => ?_
    cases found with
    | some span => exact .pure fun _ => nofun
    | none =>
      refine hitem.bind fun first => .lift (forms_eat .comma) fun comma => ?_
      cases comma with
      | some _ =>
        refine ih.bind fun r => .pure fun hmore _ hfirst _ => ?_
        exact List.forall_mem_cons.mpr ⟨hfirst, hmore⟩
      | none =>
        refine (forms_expectAs close _).bind fun stop => .pure fun _ _ hfirst _ => ?_
        exact List.forall_mem_singleton.mpr hfirst

theorem forms_untilClose {item : Parse (Tree Span)} {Q : Tree Span → Prop} (hitem : Forms item Q)
    (close : Token) : Forms (untilClose item close) fun r => ∀ t ∈ r.1, Q t :=
  .lift .get fun _ => (forms_commaList hitem close _).mono fun _ h _ => h

/-- An argument is an expression, or has the form of a keyword argument. -/
theorem forms_argument (hinner : inner.Forms) :
    Forms (argument inner) (Is fun k => k.isValue ∨ k = .keyword) := by
  refine hinner.expression.bind fun key => .lift (forms_eat .colon) fun colon => ?_
  cases colon with
  | none => exact .pure fun _ hkey => hkey.mono fun _ => .inl
  | some _ =>
    dsimp only
    split
    · exact forms_throw _ _
    · next hname =>
      refine hinner.expression.bind fun value => .pure fun hvalue _ hkey => ⟨?_, .inr rfl⟩
      refine wellFormed_of_parts ⟨not_not.mp hname, hvalue.kind⟩ ?_
      simpa [Tree.children] using And.intro hkey.wellFormed hvalue.wellFormed

theorem forms_arguments (hinner : inner.Forms) : Forms (arguments inner) (Is (· = .arguments)) := by
  refine (forms_expectAs .lparen _).bind fun start => ?_
  refine (forms_untilClose (forms_argument hinner) .rparen).bind fun r => .pure fun hitems _ => ?_
  exact ⟨wellFormed_of_parts (fun t ht => (hitems t ht).kind) fun t ht => (hitems t ht).wellFormed,
    rfl⟩

theorem forms_entry (hinner : inner.Forms) : Forms (entry inner) (Is (· = .entry)) := by
  refine hinner.expression.bind fun key => (forms_discard_expect .colon).bind fun _ => ?_
  refine hinner.expression.bind fun value => .pure fun hvalue _ hkey => ⟨?_, rfl⟩
  refine wellFormed_of_parts ⟨hkey.kind, hvalue.kind⟩ ?_
  simpa [Tree.children] using And.intro hkey.wellFormed hvalue.wellFormed

theorem forms_startedBy (hinner : inner.Forms) (l : Lexeme) : FormsValue (startedBy inner l) := by
  unfold startedBy
  split
  -- A number, a boolean or a string.
  case h_1 | h_2 | h_3 => exact .pure ⟨wellFormed_leaf trivial rfl, rfl⟩
  -- A name, or a call of it.
  case h_4 name _ =>
    have hcallee : (Tree.identifier l.span name).WellFormed := wellFormed_leaf trivial rfl
    refine .lift forms_peek fun next => ?_
    split
    · refine (forms_arguments hinner).bind fun args => .pure fun hargs _ => ⟨?_, rfl⟩
      refine wellFormed_of_parts ⟨rfl, hargs.kind⟩ ?_
      simpa [Tree.children] using And.intro hcallee hargs.wellFormed
    · exact .pure fun _ => ⟨hcallee, rfl⟩
  -- An expression in parentheses, which leave no node.
  case h_5 =>
    refine hinner.expression.bind fun e => (forms_discard_expect .rparen).bind fun _ => ?_
    exact .pure fun _ he => he
  -- A list.
  case h_6 =>
    refine (forms_untilClose hinner.expression .rbracket).bind fun r => .pure fun hitems => ?_
    exact ⟨wellFormed_of_parts (fun t ht => (hitems t ht).kind)
      fun t ht => (hitems t ht).wellFormed, rfl⟩
  -- A dictionary.
  case h_7 =>
    refine (forms_untilClose (forms_entry hinner) .rbrace).bind fun r => .pure fun hitems => ?_
    exact ⟨wellFormed_of_parts (fun t ht => (hitems t ht).kind)
      fun t ht => (hitems t ht).wellFormed, rfl⟩
  -- No other token starts an operand.
  case h_8 =>
    intro c a c' hrun
    cases hrun

theorem forms_primary (hinner : inner.Forms) : FormsValue (primary inner) := by
  refine .lift forms_peek fun next => ?_
  cases next with
  | none => exact forms_failWanting _
  | some l =>
    dsimp only
    split
    · exact forms_failWanting_bind _ _
    · refine .lift forms_discard_advance fun _ => ?_
      exact (forms_startedBy hinner l).mono fun _ h _ _ => h

/-- A method call without a name or without arguments is an error, so that the call has both. -/
theorem forms_method (hinner : inner.Forms) (object : Tree Span) (dot : Span) :
    Forms (method inner object dot) fun t =>
      object.Is (Kind.isValue ·) → t.Is (Kind.isValue ·) := by
  refine .lift forms_peek fun next => ?_
  split
  · next name span raw =>
    have hname : (Tree.identifier span name).WellFormed := wellFormed_leaf trivial rfl
    refine .lift forms_discard_advance fun _ => .lift forms_peek fun next => ?_
    split
    · refine (forms_arguments hinner).bind fun args => .pure fun hargs _ _ _ hobject => ⟨?_, rfl⟩
      refine wellFormed_of_parts ⟨hobject.kind, rfl, congrArg some hargs.kind⟩ ?_
      simpa [Tree.children] using ⟨hobject.wellFormed, hname, hargs.wellFormed⟩
    · refine .lift (forms_unexpected _) fun e => .lift (forms_report _ _) fun _ => ?_
      exact .pure fun h => h.elim
  · exact .lift (forms_report _ _) fun _ => .pure fun h => h.elim

theorem forms_suffixes (hinner : inner.Forms) (rounds : Nat) (object : Tree Span) :
    Forms (suffixes inner rounds object) fun t =>
      object.Is (Kind.isValue ·) → t.Is (Kind.isValue ·) := by
  induction rounds generalizing object with
  | zero => exact .pure fun h => h
  | succ rounds ih =>
    refine .lift forms_peek fun next => ?_
    split
    · next dot _ =>
      refine .lift forms_discard_advance fun _ => (forms_method hinner object dot).bind fun t => ?_
      exact (ih t).mono fun _ h ht _ _ hobject => h (ht hobject)
    · refine .lift forms_discard_advance fun _ => hinner.expression.bind fun index => ?_
      refine (forms_expectAs .rbracket _).bind fun stop => (ih _).mono ?_
      intro t ht _ hindex _ _ hobject
      refine ht ⟨wellFormed_of_parts ⟨hobject.kind, hindex.kind⟩ ?_, rfl⟩
      simpa [Tree.children] using And.intro hobject.wellFormed hindex.wellFormed
    · exact .pure fun _ h => h

theorem forms_operand (hinner : inner.Forms) : FormsValue (operand inner) := by
  refine (forms_primary hinner).bind fun e => .lift .get fun c => ?_
  exact (forms_suffixes hinner _ e).mono fun t ht _ he => ht he

theorem forms_unary (hinner : inner.Forms) : FormsValue (unary inner) := by
  refine .lift forms_peek fun next => ?_
  have hoperand := (forms_operand hinner).mono fun t ht (_ : True) => ht
  cases next with
  | none => exact hoperand
  | some l =>
    dsimp only
    split
    · refine .lift forms_discard_advance fun _ => hinner.unary.bind fun e => ?_
      refine .pure fun he _ _ => ⟨wellFormed_of_parts he.kind ?_, rfl⟩
      simpa [Tree.children] using he.wellFormed
    · exact hoperand

/-! ### Operators -/

theorem forms_operator (op? : Token → Option BinaryOp) :
    Reading.Forms (operator op?) fun _ => True := by
  refine forms_peek.bind fun next => ?_
  split
  · exact forms_discard_advance.bind fun _ => .pure fun _ _ => trivial
  · exact .pure fun _ => trivial

theorem forms_peekSecond : Reading.Forms peekSecond fun _ => True := by
  intro c hc
  have hsettle : (peekSecond.run c).2 = c.settle := rfl
  rw [hsettle, c.settle_errors] at hc
  exact ⟨hc, trivial⟩

theorem forms_comparisonOperator : Reading.Forms comparisonOperator fun _ => True := by
  refine forms_peek.bind fun next => ?_
  split
  · refine forms_peekSecond.bind fun second => ?_
    split
    · refine forms_discard_advance.bind fun _ => forms_discard_advance.bind fun _ => ?_
      exact .pure fun _ _ _ _ => trivial
    · exact .pure fun _ _ => trivial
  · exact (forms_operator _).mono fun _ _ _ => trivial

theorem forms_chain {op : Reading (Option BinaryOp)} (hop : Reading.Forms op fun _ => True)
    {next : Parse (Tree Span)} (hnext : FormsValue next) (rounds : Nat) (left : Tree Span) :
    Forms (chain op next rounds left) fun t =>
      left.Is (Kind.isValue ·) → t.Is (Kind.isValue ·) := by
  induction rounds generalizing left with
  | zero => exact .pure fun h => h
  | succ rounds ih =>
    refine .lift hop fun o => ?_
    cases o with
    | none => exact .pure fun _ h => h
    | some o =>
      refine hnext.bind fun right => (ih _).mono fun t ht hright _ hleft => ?_
      -- The tree so far becomes the left operand of the next one.
      refine ht ⟨wellFormed_of_parts ⟨hleft.kind, hright.kind⟩ ?_, rfl⟩
      simpa [Tree.children] using And.intro hleft.wellFormed hright.wellFormed

theorem forms_leftGrouped {op : Reading (Option BinaryOp)} (hop : Reading.Forms op fun _ => True)
    {next : Parse (Tree Span)} (hnext : FormsValue next) : FormsValue (leftGrouped op next) := by
  refine hnext.bind fun first => .lift .get fun c => ?_
  exact (forms_chain hop hnext _ first).mono fun t ht _ hfirst => ht hfirst

theorem forms_disjunction (hinner : inner.Forms) : FormsValue (disjunction inner) :=
  forms_leftGrouped (forms_operator _) <| forms_leftGrouped (forms_operator _) <|
    forms_leftGrouped forms_comparisonOperator <| forms_leftGrouped (forms_operator _) <|
      forms_leftGrouped (forms_operator _) (forms_unary hinner)

theorem forms_conditional (hinner : inner.Forms) : FormsValue (conditional inner) := by
  refine (forms_disjunction hinner).bind fun condition =>
    .lift (forms_eat .question) fun found => ?_
  cases found with
  | none => exact .pure fun _ h => h
  | some _ =>
    refine hinner.conditional.bind fun ifTrue => (forms_discard_expect .colon).bind fun _ => ?_
    refine hinner.conditional.bind fun ifFalse => .pure fun hfalse _ htrue _ hcondition => ?_
    refine ⟨wellFormed_of_parts ⟨hcondition.kind, htrue.kind, hfalse.kind⟩ ?_, rfl⟩
    simpa [Tree.children] using ⟨hcondition.wellFormed, htrue.wellFormed, hfalse.wellFormed⟩

theorem forms_tooDeep : FormsValue tooDeep := by
  intro c t c' hrun
  obtain ⟨span, mid, -, hthrow⟩ := on_bind_ok hrun
  exact absurd (congrArg Prod.fst hthrow) nofun

/-- What is read with any number of levels left are expressions. -/
theorem forms_level (room : Nat) : (level room).Forms := by
  induction room with
  | zero => exact ⟨forms_tooDeep, forms_tooDeep⟩
  | succ room ih => exact ⟨forms_conditional ih, forms_unary ih⟩

/-! ### Lines -/

theorem forms_orRecover {p : Parse (Tree Span)} {Q : Tree Span → Prop} (hp : Forms p Q) :
    Reading.Forms (orRecover p) Q := by
  intro c herrors
  rw [orRecover_run] at herrors ⊢
  rcases hrun : p.on c with ⟨e | t, c'⟩
  · rw [hrun] at herrors
    exact absurd herrors (recover_run _ _ _).2
  · rw [hrun] at herrors
    exact hp c t c' hrun herrors

theorem forms_closeBrackets : Reading.Forms closeBrackets fun _ => True :=
  fun _ hc => ⟨hc, trivial⟩

/-- Without an error a line leaves nothing behind its statement. -/
theorem forms_finishLine : Reading.Forms finishLine (· = []) := by
  intro c herrors
  obtain hrun | ⟨l, ls, -, -, hrun⟩ | ⟨l, ls, -, -, hrun⟩ := finishLine_cases c
  · rw [hrun] at herrors ⊢
    exact ⟨herrors, rfl⟩
  · rw [hrun] at herrors ⊢
    exact ⟨herrors, rfl⟩
  · rw [hrun] at herrors
    exact absurd herrors (recover_run _ _ _).2

theorem forms_finishHeader : Reading.Forms finishHeader fun _ => True :=
  forms_finishLine.bind fun _ => .pure fun _ => trivial

/-- The step gives a statement. -/
abbrev FormsStatement (m : Parse (Tree Span)) : Prop := Forms m (Is (Kind.isStatement ·))

/-- The step gives statements. -/
abbrev FormsBlock (m : Reading (List (Tree Span))) : Prop :=
  Reading.Forms m fun ts => ∀ t ∈ ts, t.Is (Kind.isStatement ·)

/-- An assignment to anything but a variable is an error. -/
theorem forms_simpleStatement (hinner : inner.Forms) : FormsStatement (simpleStatement inner) := by
  refine hinner.expression.bind fun target => .lift forms_peek fun next => ?_
  split
  · exact .pure fun _ h => h.mono fun _ => Kind.isStatement_of_isValue
  · next op _ =>
    have hassign : ∀ value : Tree Span, target.kind = .identifier → target.WellFormed →
        value.Is (Kind.isValue ·) →
        (Tree.assignment (target.note.join value.note) target op value).Is
          (Kind.isStatement ·) := by
      intro value hname htarget hvalue
      refine ⟨wellFormed_of_parts ⟨hname, hvalue.kind⟩ ?_, rfl⟩
      simpa [Tree.children] using And.intro htarget hvalue.wellFormed
    refine .lift forms_discard_advance fun _ => ?_
    split
    · refine .lift (forms_report _ _) fun _ => hinner.expression.bind fun value => ?_
      exact .pure fun _ h => h.elim
    · next hname =>
      refine hinner.expression.bind fun value => .pure fun hvalue _ _ htarget => ?_
      exact hassign value (not_not.mp hname) htarget.wellFormed hvalue

/-! ### Selections -/

/-- The conditions are expressions, and the blocks are statements. -/
structure FormsBranches (r : List (Tree Span) × List (List (Tree Span))) : Prop where
  conditions : ∀ t ∈ r.1, t.Is (Kind.isValue ·)
  blocks : ∀ body ∈ r.2, ∀ t ∈ body, t.Is (Kind.isStatement ·)

theorem forms_moreBranches (hinner : inner.Forms) {block : Reading (List (Tree Span))}
    (hblock : FormsBlock block) (rounds : Nat) (seenElse : Bool) :
    Reading.Forms (moreBranches inner block rounds seenElse) FormsBranches := by
  induction rounds generalizing seenElse with
  | zero => exact .pure ⟨nofun, nofun⟩
  | succ rounds ih =>
    refine forms_closeBrackets.bind fun _ => Reading.Forms.get.bind fun c => ?_
    split
    · next span _ _ =>
      have hbranch : Reading.Forms (do
          discard advance
          let condition ← orRecover inner.expression
          finishHeader
          let body ← block
          let more ← moreBranches inner block rounds seenElse
          return (condition :: more.1, body :: more.2)) FormsBranches := by
        refine forms_discard_advance.bind fun _ =>
          (forms_orRecover hinner.expression).bind fun condition =>
          forms_finishHeader.bind fun _ => hblock.bind fun body => (ih seenElse).bind fun r => ?_
        refine .pure fun hmore hbody _ hcondition _ => ⟨?_, ?_⟩
        · exact List.forall_mem_cons.mpr ⟨hcondition, hmore.conditions⟩
        · exact List.forall_mem_cons.mpr ⟨hbody, hmore.blocks⟩
      -- After `else` there is an error, and then nothing is claimed.
      cases seenElse with
      | true => exact (forms_report _ _).bind fun _ => hbranch.mono fun _ h _ _ _ => h
      | false => exact hbranch.mono fun _ h _ _ => h
    · next span _ _ =>
      have hbranch : Reading.Forms (do
          discard advance
          finishHeader
          let body ← block
          let more ← moreBranches inner block rounds true
          return (more.1, body :: more.2)) FormsBranches := by
        refine forms_discard_advance.bind fun _ => forms_finishHeader.bind fun _ =>
          hblock.bind fun body => (ih true).bind fun r => .pure fun hmore hbody _ _ => ?_
        exact ⟨hmore.conditions, List.forall_mem_cons.mpr ⟨hbody, hmore.blocks⟩⟩
      cases seenElse with
      | true => exact (forms_report _ _).bind fun _ => hbranch.mono fun _ h _ _ _ => h
      | false => exact hbranch.mono fun _ h _ _ => h
    · exact forms_discard_advance.bind fun _ => .pure fun _ _ _ => ⟨nofun, nofun⟩
    · refine (forms_unexpected _).bind fun e => (forms_report _ _).bind fun _ => ?_
      exact .pure fun h => h.elim

end Parse

/-- Pairing conditions with blocks keeps both. -/
theorem Branches.formed_ofLists {p : Tree Span → Prop} : ∀ (conditions : List (Tree Span))
    (bodies : List (List (Tree Span))),
    (∀ t ∈ (ofLists conditions bodies).conditions, t ∈ conditions) ∧
      ((∀ body ∈ bodies, ∀ t ∈ body, p t) →
        ∀ body ∈ (ofLists conditions bodies).blocks, ∀ t ∈ body, p t)
  | condition :: conditions, body :: bodies => by
    obtain ⟨hconditions, hblocks⟩ := formed_ofLists (p := p) conditions bodies
    refine ⟨?_, fun h => ?_⟩
    · exact List.forall_mem_cons.mpr ⟨List.mem_cons_self,
        fun t ht => List.mem_cons_of_mem _ (hconditions t ht)⟩
    · exact List.forall_mem_cons.mpr ⟨h body List.mem_cons_self,
        hblocks fun b hb => h b (List.mem_cons_of_mem _ hb)⟩
  | [], body :: bodies => by
    refine ⟨nofun, fun h => List.forall_mem_singleton.mpr fun t ht => ?_⟩
    obtain ⟨b, hb, ht⟩ := List.mem_flatten.mp ht
    exact h b hb t ht
  | _, [] => by
    cases ‹List (Tree Span)› <;> exact ⟨nofun, fun _ => nofun⟩

/-- The parts of a selection are its conditions and its statements. -/
theorem Branches.mem_children_iff {α : Type} {b : Branches α} {t : Tree α} :
    t ∈ b.children ↔ t ∈ b.conditions ∨ ∃ body ∈ b.blocks, t ∈ body := by
  fun_induction Branches.children b with
  | case1 => simp [conditions, blocks]
  | case2 body => simp [conditions, blocks]
  | case3 condition body rest ih =>
    simp only [List.mem_cons, List.mem_append, ih, conditions, blocks, exists_eq_or_imp]
    tauto

namespace Parse

open MesonLens.Tree (Is WellFormed wellFormed_of_parts wellFormed_leaf)

variable {inner : Level}

theorem FormsBranches.selection {r : List (Tree Span) × List (List (Tree Span))}
    (h : FormsBranches r) (span : Span) :
    (Tree.selection span (Branches.ofLists r.1 r.2)).Is (Kind.isStatement ·) := by
  have hconditions : ∀ t ∈ (Branches.ofLists r.1 r.2).conditions, t.Is (Kind.isValue ·) :=
    fun t ht => h.conditions t ((Branches.formed_ofLists (p := fun _ => True) _ _).1 t ht)
  have hblocks := (Branches.formed_ofLists r.1 r.2).2 h.blocks
  refine ⟨wellFormed_of_parts ⟨?_, ?_⟩ fun t ht => ?_, rfl⟩
  · exact fun t ht => (hconditions t ht).kind
  · exact fun body hbody t ht => (hblocks body hbody t ht).kind
  · rcases Branches.mem_children_iff.mp ht with ht | ⟨body, hbody, ht⟩
    · exact (hconditions t ht).wellFormed
    · exact (hblocks body hbody t ht).wellFormed

theorem forms_selection (hinner : inner.Forms) {block : Reading (List (Tree Span))}
    (hblock : FormsBlock block) :
    Reading.Forms (selection inner block) (Is (Kind.isStatement ·)) := by
  refine forms_here.bind fun start => forms_discard_advance.bind fun _ =>
    (forms_orRecover hinner.expression).bind fun condition =>
    forms_finishHeader.bind fun _ => hblock.bind fun body => Reading.Forms.get.bind fun c => ?_
  refine (forms_moreBranches hinner hblock _ false).bind fun r => Reading.Forms.get.bind fun c => ?_
  refine .pure fun _ hmore _ hbody _ hcondition _ _ => ?_
  exact FormsBranches.selection (r := (condition :: r.1, body :: r.2))
    ⟨List.forall_mem_cons.mpr ⟨hcondition, hmore.conditions⟩,
      List.forall_mem_cons.mpr ⟨hbody, hmore.blocks⟩⟩ _

/-! ### Loops -/

theorem forms_loopVariables (rounds : Nat) :
    Forms (loopVariables rounds) fun ts => ∀ t ∈ ts, t.Is (· = .identifier) := by
  induction rounds with
  | zero => exact forms_failWanting _
  | succ rounds ih =>
    refine .lift forms_peek fun next => ?_
    split
    · next name span _ =>
      have hname : (Tree.identifier span name).Is (· = .identifier) :=
        ⟨wellFormed_leaf trivial rfl, rfl⟩
      refine .lift forms_discard_advance fun _ => .lift (forms_eat .comma) fun comma => ?_
      cases comma with
      | some _ =>
        exact ih.bind fun more => .pure fun hmore _ _ _ => List.forall_mem_cons.mpr ⟨hname, hmore⟩
      | none => exact .pure fun _ _ _ => List.forall_mem_singleton.mpr hname
    · exact forms_failWanting _

/-- The names of a loop, and what they run through. -/
def FormsHeader (r : List (Tree Span) × Tree Span) : Prop :=
  (∀ t ∈ r.1, t.Is (· = .identifier)) ∧ r.2.Is (Kind.isValue ·)

theorem forms_loopHeader (hinner : inner.Forms) : Forms (loopHeader inner) FormsHeader := by
  refine .lift .get fun c => (forms_loopVariables _).bind fun names => ?_
  split
  · exact .lift .get fun c => forms_throw _ _
  · refine (forms_discard_expect .colon).bind fun _ => hinner.expression.bind fun iterable => ?_
    exact .pure fun hiterable _ hnames _ => ⟨hnames, hiterable⟩

theorem forms_headerOrRecover (hinner : inner.Forms) :
    Reading.Forms (headerOrRecover inner) FormsHeader := by
  intro c herrors
  rw [headerOrRecover_run] at herrors ⊢
  rcases hrun : (loopHeader inner).on c with ⟨e | header, c'⟩
  · rw [hrun] at herrors
    exact absurd herrors (recover_run _ _ _).2
  · rw [hrun] at herrors
    exact forms_loopHeader hinner c header c' hrun herrors

theorem forms_closeLoop : Reading.Forms closeLoop fun _ => True := by
  refine forms_closeBrackets.bind fun _ => Reading.Forms.get.bind fun c => ?_
  split
  · exact forms_discard_advance.mono fun _ _ _ _ => trivial
  · exact (forms_unexpected _).bind fun e => (forms_report _ _).mono fun _ h => h.elim

theorem forms_iteration (hinner : inner.Forms) {block : Reading (List (Tree Span))}
    (hblock : FormsBlock block) :
    Reading.Forms (iteration inner block) (Is (Kind.isStatement ·)) := by
  refine forms_here.bind fun start => forms_discard_advance.bind fun _ =>
    (forms_headerOrRecover hinner).bind fun header => forms_finishHeader.bind fun _ =>
    hblock.bind fun body => forms_closeLoop.bind fun _ => Reading.Forms.get.bind fun c => ?_
  refine .pure fun _ _ hbody _ ⟨hnames, hiterable⟩ _ _ => ⟨wellFormed_of_parts ?_ ?_, rfl⟩
  · exact ⟨fun t ht => (hnames t ht).kind, hiterable.kind, fun t ht => (hbody t ht).kind⟩
  · intro t ht
    rw [Tree.children, List.mem_append, List.mem_cons] at ht
    rcases ht with ht | rfl | ht
    · exact (hnames t ht).wellFormed
    · exact hiterable.wellFormed
    · exact (hbody t ht).wellFormed

/-! ### Statements -/

theorem forms_blockRounds {one : Parse (Tree Span)} (hone : FormsStatement one) (top : Bool)
    (rounds : Nat) : FormsBlock (blockRounds one top rounds) := by
  induction rounds with
  | zero => exact .pure nofun
  | succ rounds ih =>
    intro c herrors
    cases hrest : c.rest with
    | nil =>
      rw [blockRounds_run_nil hrest] at herrors ⊢
      exact ⟨herrors, nofun⟩
    | cons l ls =>
      by_cases hline : l.token = .newline
      · rw [blockRounds_run_newline hrest hline] at herrors ⊢
        exact ih _ herrors
      cases hcloses : l.token.closesBlock with
      | true =>
        cases top with
        | true =>
          -- A closing word that closes nothing is an error.
          rw [blockRounds_run_stray hrest hcloses] at herrors
          exact absurd (ih _ herrors).1 (recover_run _ _ _).2
        | false =>
          rw [blockRounds_run_closes hrest hcloses] at herrors ⊢
          exact ⟨herrors, nofun⟩
      | false =>
        rw [blockRounds_run_statement hrest hline hcloses] at herrors ⊢
        rcases hrun : one.on { c with depth := 0 } with ⟨e | t, c'⟩
        · rw [hrun] at herrors
          exact absurd (ih _ herrors).1 (recover_run _ _ _).2
        · rw [hrun] at herrors
          obtain ⟨hmid, hmore⟩ := ih _ herrors
          obtain ⟨hc', hjunk⟩ := forms_finishLine c' hmid
          obtain ⟨hc, ht⟩ := hone _ t c' hrun hc'
          refine ⟨hc, ?_⟩
          dsimp only
          rw [hjunk, List.nil_append]
          exact List.forall_mem_cons.mpr ⟨ht, hmore⟩

theorem forms_block {one : Parse (Tree Span)} (hone : FormsStatement one) (top : Bool) :
    FormsBlock (block one top) :=
  Reading.Forms.get.bind fun _ => (forms_blockRounds hone top _).mono fun _ h _ => h

/-- A statement follows the grammar when those further in do. -/
theorem forms_statement_of_inner {room : Nat} (hinner : ∀ k < room, FormsStatement (statement k)) :
    FormsStatement (statement room) := by
  unfold statement
  refine .lift forms_peek fun next => ?_
  split
  · -- A selection.
    cases room with
    | zero => exact forms_tooDeep.mono fun _ h _ => h.mono fun _ => Kind.isStatement_of_isValue
    | succ room =>
      have hblock := forms_block (hinner room (Nat.lt_succ_self room)) false
      exact (Forms.liftM (forms_selection (forms_level room) hblock)).mono fun _ h _ => h
  · -- A loop.
    cases room with
    | zero => exact forms_tooDeep.mono fun _ h _ => h.mono fun _ => Kind.isStatement_of_isValue
    | succ room =>
      have hblock := forms_block (hinner room (Nat.lt_succ_self room)) false
      exact (Forms.liftM (forms_iteration (forms_level room) hblock)).mono fun _ h _ => h
  · refine .lift forms_here fun span => .lift forms_discard_advance fun _ => ?_
    exact .pure fun _ _ _ => ⟨wellFormed_leaf trivial rfl, rfl⟩
  · refine .lift forms_here fun span => .lift forms_discard_advance fun _ => ?_
    exact .pure fun _ _ _ => ⟨wellFormed_leaf trivial rfl, rfl⟩
  · exact (forms_simpleStatement (forms_level room)).mono fun _ h _ => h

theorem forms_statement (room : Nat) : FormsStatement (statement room) := by
  induction room using Nat.strongRecOn with
  | ind room ih => exact forms_statement_of_inner ih

end Parse

/-! ### Numbers -/

namespace Tree

theorem kind_of_mem_numberAll {ts : List (Tree Span)} {p : Kind → Prop} (h : ∀ t ∈ ts, p t.kind)
    {n : Nat} {t' : Tree Mark} (ht' : t' ∈ ((numberAll ts).run n).1) : p t'.kind := by
  obtain ⟨t, ht, k, rfl⟩ := mem_numberAll ht'
  rw [(number_run t k).2.2.1]
  exact h t ht

end Tree

/-- Numbers keep the kinds of conditions and statements. -/
theorem Branches.formed_number {p q : Kind → Prop} : ∀ (b : Branches Span) (n : Nat),
    (∀ t ∈ b.conditions, p t.kind) → (∀ body ∈ b.blocks, ∀ t ∈ body, q t.kind) →
    (∀ t ∈ (b.number.run n).1.conditions, p t.kind) ∧
      ∀ body ∈ (b.number.run n).1.blocks, ∀ t ∈ body, q t.kind
  | .done, _, _, _ => ⟨nofun, nofun⟩
  | .otherwise body, n, _, hblocks =>
    ⟨nofun, List.forall_mem_singleton.mpr fun _ ht =>
      Tree.kind_of_mem_numberAll (hblocks body (List.mem_singleton_self _)) ht⟩
  | .arm condition body rest, n, hconditions, hblocks => by
    obtain ⟨hcondition, hconditions⟩ := List.forall_mem_cons.mp hconditions
    obtain ⟨hbody, hblocks⟩ := List.forall_mem_cons.mp hblocks
    obtain ⟨hmore, hmore'⟩ := formed_number rest _ hconditions hblocks
    refine ⟨List.forall_mem_cons.mpr ⟨?_, hmore⟩, List.forall_mem_cons.mpr ⟨?_, hmore'⟩⟩
    · show p (condition.number.run n).1.kind
      rw [(Tree.number_run condition n).2.2.1]
      exact hcondition
    · exact fun t ht => Tree.kind_of_mem_numberAll hbody ht

namespace Tree

theorem kind_number (t : Tree Span) (n : Nat) : (t.number.run n).1.kind = t.kind :=
  (number_run t n).2.2.1

theorem Formed.number {t : Tree Span} (h : t.Formed) (n : Nat) : (t.number.run n).1.Formed := by
  -- Every part is numbered from some number on, and keeps its kind.
  have hvalue : ∀ (t : Tree Span) (n : Nat), t.kind.isValue → (t.number.run n).1.kind.isValue :=
    fun t n h => (kind_number t n).symm ▸ h
  have hkind : ∀ (t : Tree Span) (n : Nat) (k : Kind), t.kind = k → (t.number.run n).1.kind = k :=
    fun t n k h => (kind_number t n).trans h
  cases t with
  | file a ts => exact fun t ht => kind_of_mem_numberAll (p := (Kind.isStatement ·)) h ht
  | arguments a ts =>
    exact fun t ht => kind_of_mem_numberAll (p := fun k => k.isValue ∨ k = .keyword) h ht
  | array a ts => exact fun t ht => kind_of_mem_numberAll (p := (Kind.isValue ·)) h ht
  | dictionary a ts => exact fun t ht => kind_of_mem_numberAll (p := (· = .entry)) h ht
  | assignment a target op value => exact ⟨hkind target n _ h.1, hvalue value _ h.2⟩
  | keyword a key value => exact ⟨hkind key n _ h.1, hvalue value _ h.2⟩
  | binary a l op r => exact ⟨hvalue l n h.1, hvalue r _ h.2⟩
  | subscript a l r | entry a l r => exact ⟨hvalue l n h.1, hvalue r _ h.2⟩
  | call a callee args => exact ⟨hkind callee n _ h.1, hkind args _ _ h.2⟩
  | conditional a x y z => exact ⟨hvalue x n h.1, hvalue y _ h.2.1, hvalue z _ h.2.2⟩
  | method a object name args =>
    cases args with
    | none => exact absurd h.2.2 nofun
    | some args =>
      refine ⟨hvalue object n h.1, hkind name _ _ h.2.1, ?_⟩
      exact congrArg some (hkind args _ _ (Option.some.inj h.2.2))
  | unary a op t => exact hvalue t n h
  | iteration a names iterable body =>
    refine ⟨fun t ht => ?_, hvalue iterable _ h.2.1, fun t ht => ?_⟩
    · exact kind_of_mem_numberAll (p := (· = .identifier)) h.1 ht
    · exact kind_of_mem_numberAll (p := (Kind.isStatement ·)) h.2.2 ht
  | selection a bs =>
    exact Branches.formed_number (p := (Kind.isValue ·)) (q := (Kind.isStatement ·)) bs n h.1 h.2
  | malformed => exact h
  | boolean | identifier | integer | string | breakLoop | continueLoop => trivial

/-- A tree keeps its shape when its nodes are numbered. -/
theorem WellFormed.number {t : Tree Span} (h : t.WellFormed) (n : Nat) :
    (t.number.run n).1.WellFormed := by
  induction t using inductionOnParts generalizing n with
  | node t ih =>
    refine wellFormed_of_parts (h.formed.number n) fun c' hc' => ?_
    rw [(number_run t n).1] at hc'
    obtain ⟨c, hc, k, rfl⟩ := mem_numberAll hc'
    exact ih c hc (h.part hc) k

end Tree

namespace SourceFile

/-- Where nothing is wrong with a text, nothing was wrong with its statements. -/
theorem errors_statements_eq_nil {text : String} (h : (parse text).errors = []) :
    (Parse.statements (Lexed.ofText text).lexemes (Position.after {} text.toList)).2 = [] := by
  have hlength := congrArg List.length h
  rw [show (parse text).errors = sortErrors _ from rfl, sortErrors, List.length_mergeSort]
    at hlength
  exact (List.append_eq_nil_iff.mp (List.length_eq_zero_iff.mp hlength)).2

/-- The tree of a text without errors follows the grammar. -/
theorem wellFormed_root (text : String) (h : (parse text).errors = []) :
    (parse text).root.WellFormed := by
  have hstatements := (Parse.forms_block (Parse.forms_statement _) true _
    (errors_statements_eq_nil h)).2
  refine Tree.WellFormed.number (Tree.wellFormed_of_parts ?_ ?_) 0
  · exact fun t ht => (hstatements t ht).kind
  · exact fun t ht => (hstatements t ht).wellFormed

end SourceFile

end MesonLens
