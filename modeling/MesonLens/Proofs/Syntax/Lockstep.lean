import MesonLens.Proofs.Syntax.Height

/-!
# `MesonLens.Proofs.Syntax.Lockstep`: what the grammar sees of a token

The grammar asks of a name only that it is a name, and of an integer only that it is one. Two texts
whose tokens differ in nothing else (`Token.Like`) are read in lockstep: at every step the two
cursors stand before tokens that are alike, the same brackets are open and equally many errors were
noted.

* `Reading.Alike`, `Parse.Alike`: two steps keep the cursors in lockstep and give related results,
  or both fail. Steps in a row keep this (`Parse.Alike.bind`), so each rule of the grammar keeps it;
* `Tree.Like`: of two expressions the grammar sees their kinds and heights, which are the same;
* `Tree.Drawn`: every name and literal of a tree is a lexeme that was read, with its stretch. It is
  kept along with the rest for the first of the two runs;
* `Parse.alike_statements`, `SourceFile.drawn_root`: whole texts.
-/

set_option autoImplicit false

namespace MesonLens

/-! ### Tokens that are alike -/

/-- Whether the grammar tells the token from all others. -/
def Token.isFixed : Token → Bool
  | name _ | integer _ => false
  | _ => true

/-- The grammar does not tell the tokens apart. -/
inductive Token.Like : Token → Token → Prop
  | name (a b : String) : Like (.name a) (.name b)
  | integer (m n : Nat) : Like (.integer m) (.integer n)
  | fixed (t : Token) (h : t.isFixed = true) : Like t t

namespace Token

variable {t t' : Token}

theorem Like.refl (t : Token) : Like t t := by
  cases t with
  | name a => exact .name a a
  | integer n => exact .integer n n
  | _ => exact .fixed _ rfl

theorem Like.eq_iff (h : Like t t') {u : Token} (hu : u.isFixed = true) : t = u ↔ t' = u := by
  cases h with
  | fixed => exact Iff.rfl
  | name a b | integer a b =>
    refine ⟨?_, ?_⟩ <;> rintro rfl <;> cases hu

/-- What does not look at a name or a value is the same for tokens that are alike. -/
theorem Like.congr {β : Type} (h : Like t t') (f : Token → β)
    (hname : ∀ a b, f (.name a) = f (.name b))
    (hinteger : ∀ m n, f (.integer m) = f (.integer n)) : f t = f t' := by
  cases h with
  | name a b => exact hname a b
  | integer m n => exact hinteger m n
  | fixed => rfl

end Token

/-- The lexemes have tokens that are alike, and the first is one of some. -/
structure Lexeme.Like (ls : List Lexeme) (l l' : Lexeme) : Prop where
  mem : l ∈ ls
  token : l.token.Like l'.token

/-! ### Trees -/

namespace Tree

/-- A name or a literal is one of the lexemes, where it stands. -/
def IsFrom (ls : List Lexeme) : Tree Span → Prop
  | .identifier span name => ∃ l ∈ ls, l.token = .name name ∧ l.span = span
  | .integer span value raw => ⟨.integer value, span, raw⟩ ∈ ls
  | .boolean span value => ∃ l ∈ ls, l.token = .boolean value ∧ l.span = span
  | .string span value format multiline =>
    ∃ l ∈ ls, l.token = .string value format multiline ∧ l.span = span
  | _ => True

/-- Every name and literal of the tree is one of the lexemes. -/
def Drawn (ls : List Lexeme) (t : Tree Span) : Prop := ∀ u ∈ t.preorder, u.IsFrom ls

/-- The grammar does not tell the expressions apart, and the first one was drawn from lexemes. -/
structure Like (ls : List Lexeme) (t t' : Tree Span) : Prop where
  kind : t.kind = t'.kind
  height : t.height = t'.height
  drawn : t.Drawn ls

variable {ls : List Lexeme} {t t' : Tree Span}

theorem drawn_of_parts (h : t.IsFrom ls) (hparts : ∀ c ∈ t.children, c.Drawn ls) : t.Drawn ls := by
  intro u hu
  rw [preorder_eq, List.mem_cons, List.mem_flatMap] at hu
  rcases hu with rfl | ⟨c, hc, hu⟩
  · exact h
  · exact hparts c hc u hu

theorem drawn_leaf (h : t.IsFrom ls) (hleaf : t.children = []) : t.Drawn ls := by
  refine drawn_of_parts h fun c hc => ?_
  rw [hleaf] at hc
  cases hc

theorem likes_spec {ts ts' : List (Tree Span)} (h : List.Forall₂ (Like ls) ts ts') :
    ts.map height = ts'.map height ∧ ∀ t ∈ ts, t.Drawn ls := by
  induction h with
  | nil => exact ⟨rfl, nofun⟩
  | cons hlike _ ih =>
    rw [List.map_cons, List.map_cons, hlike.height, ih.1]
    exact ⟨rfl, List.forall_mem_cons.mpr ⟨hlike.drawn, ih.2⟩⟩

/-- Nodes of one kind with parts that are alike. -/
theorem like_of_parts (hkind : t.kind = t'.kind) (h : t.IsFrom ls)
    (hparts : List.Forall₂ (Like ls) t.children t'.children) : t.Like ls t' := by
  obtain ⟨hheights, hdrawn⟩ := likes_spec hparts
  refine ⟨hkind, ?_, drawn_of_parts h hdrawn⟩
  rw [height_eq, height_eq, hheights]

theorem like_pair {l r l' r' : Tree Span} (hkind : t.kind = t'.kind) (h : t.IsFrom ls)
    (hchildren : t.children = [l, r]) (hchildren' : t'.children = [l', r']) (hl : l.Like ls l')
    (hr : r.Like ls r') : t.Like ls t' := by
  refine like_of_parts hkind h ?_
  rw [hchildren, hchildren']
  exact .cons hl (.cons hr .nil)

end Tree

/-! ### Steps in lockstep -/

/-- The cursors stand before tokens that are alike, inside as many brackets, after as many errors,
and both after a line end or both not. -/
structure Cursor.Like (ls : List Lexeme) (c c' : Cursor) : Prop where
  rest : List.Forall₂ (Lexeme.Like ls) c.rest c'.rest
  lineEnd : c.last.any (·.token = .newline) = c'.last.any (·.token = .newline)
  depth : c.depth = c'.depth
  errors : c.errors.length = c'.errors.length

section Alike

variable {α α' β β' : Type}

/-- From cursors in lockstep both steps lead to cursors in lockstep, and `R` holds of the
results. -/
def Reading.Alike (ls : List Lexeme) (R : α → α' → Prop) (m : Reading α) (m' : Reading α') : Prop :=
  ∀ c c' : Cursor, c.Like ls c' →
    R (m.run c).1 (m'.run c').1 ∧ (m.run c).2.Like ls (m'.run c').2

/-- Both steps have succeeded and `R` holds of the results, or both have failed. -/
inductive Parse.Agree (R : α → α' → Prop) :
    Except SyntaxError α → Except SyntaxError α' → Prop
  | ok {a : α} {a' : α'} (h : R a a') : Agree R (.ok a) (.ok a')
  | error (e e' : SyntaxError) : Agree R (.error e) (.error e')

/-- The same for steps that can fail. They fail alike. -/
def Parse.Alike (ls : List Lexeme) (R : α → α' → Prop) (m : Parse α) (m' : Parse α') : Prop :=
  Reading.Alike ls (Parse.Agree R) m.run m'.run

/-- Two values of which nothing is said. -/
def Unrelated (_ : α) (_ : α') : Prop := True

variable {ls : List Lexeme} {R : α → α' → Prop} {S : β → β' → Prop}

namespace Reading.Alike

theorem pure {a : α} {a' : α'} (h : R a a') : Reading.Alike ls R (pure a) (pure a') :=
  fun _ _ hc => ⟨h, hc⟩

theorem bind {m : Reading α} {m' : Reading α'} {f : α → Reading β} {f' : α' → Reading β'}
    (h : Reading.Alike ls R m m') (hf : ∀ a a', R a a' → Reading.Alike ls S (f a) (f' a')) :
    Reading.Alike ls S (m >>= f) (m' >>= f') := by
  intro c c' hc
  obtain ⟨hR, hmid⟩ := h c c' hc
  exact hf _ _ hR _ _ hmid

theorem mono {R' : α → α' → Prop} {m : Reading α} {m' : Reading α'}
    (h : Reading.Alike ls R m m') (hR : ∀ a a', R a a' → R' a a') : Reading.Alike ls R' m m' :=
  fun c c' hc => ⟨hR _ _ (h c c' hc).1, (h c c' hc).2⟩

theorem discard {m : Reading α} {m' : Reading α'} (h : Reading.Alike ls R m m') :
    Reading.Alike ls Unrelated (discard m) (discard m') :=
  fun c c' hc => ⟨trivial, (h c c' hc).2⟩

theorem ite {p p' : Prop} [Decidable p] [Decidable p'] {m n : Reading α} {m' n' : Reading α'}
    (hp : p ↔ p') (h : p → Reading.Alike ls R m m') (h' : ¬ p → Reading.Alike ls R n n') :
    Reading.Alike ls R (if p then m else n) (if p' then m' else n') := by
  by_cases hc : p
  · rw [if_pos hc, if_pos (hp.mp hc)]
    exact h hc
  · rw [if_neg hc, if_neg (mt hp.mpr hc)]
    exact h' hc

theorem get : Reading.Alike ls (Cursor.Like ls) get get := fun _ _ hc => ⟨hc, hc⟩

end Reading.Alike

namespace Parse

namespace Alike

theorem pure {a : α} {a' : α'} (h : R a a') : Alike ls R (pure a) (pure a') :=
  Reading.Alike.pure (.ok h)

theorem throw (e e' : SyntaxError) : Alike ls R (throw e) (throw e') :=
  Reading.Alike.pure (.error e e')

theorem lift {m : Reading α} {m' : Reading α'} (h : Reading.Alike ls R m m') :
    Alike ls R (liftM m) (liftM m') :=
  Reading.Alike.bind h fun _ _ hR => .pure (.ok hR)

theorem bind {m : Parse α} {m' : Parse α'} {f : α → Parse β} {f' : α' → Parse β'}
    (h : Alike ls R m m') (hf : ∀ a a', R a a' → Alike ls S (f a) (f' a')) :
    Alike ls S (m >>= f) (m' >>= f') := by
  unfold Alike
  rw [ExceptT.run_bind, ExceptT.run_bind]
  refine Reading.Alike.bind h fun r r' hr => ?_
  cases hr with
  | ok hR => exact hf _ _ hR
  | error e e' => exact Reading.Alike.pure (.error e e')

theorem mono {R' : α → α' → Prop} {m : Parse α} {m' : Parse α'} (h : Alike ls R m m')
    (hR : ∀ a a', R a a' → R' a a') : Alike ls R' m m' := by
  refine Reading.Alike.mono h fun r r' hr => ?_
  cases hr with
  | ok h => exact .ok (hR _ _ h)
  | error e e' => exact .error e e'

theorem discard {m : Parse α} {m' : Parse α'} (h : Alike ls R m m') :
    Alike ls Unrelated (discard m) (discard m') := by
  have hmap : Alike ls Unrelated (do let _ ← m; Pure.pure ()) (do let _ ← m'; Pure.pure ()) :=
    h.bind fun _ _ _ => .pure trivial
  exact hmap

theorem ite {p p' : Prop} [Decidable p] [Decidable p'] {m n : Parse α} {m' n' : Parse α'}
    (hp : p ↔ p') (h : p → Alike ls R m m') (h' : ¬ p → Alike ls R n n') :
    Alike ls R (if p then m else n) (if p' then m' else n') := Reading.Alike.ite hp h h'

end Alike

end Parse

end Alike

/-! ### The next token -/

section Steps

variable {ls : List Lexeme} {c c' : Cursor}

theorem Lexeme.Like.newline_iff {l l' : Lexeme} (h : l.Like ls l') :
    l.token = .newline ↔ l'.token = .newline := h.token.eq_iff rfl

theorem Cursor.passLines_like {last last' : Option Lexeme} {rest rest' : List Lexeme}
    (hlast : last.any (·.token = .newline) = last'.any (·.token = .newline))
    (h : List.Forall₂ (Lexeme.Like ls) rest rest') :
    (passLines last rest).1.any (·.token = .newline) =
        (passLines last' rest').1.any (·.token = .newline) ∧
      List.Forall₂ (Lexeme.Like ls) (passLines last rest).2 (passLines last' rest').2 := by
  induction h generalizing last last' with
  | nil => exact ⟨hlast, .nil⟩
  | @cons l l' rest rest' hl hrest ih =>
    by_cases hline : l.token = .newline
    · have hline' := hl.newline_iff.mp hline
      rw [passLines, passLines, if_pos hline, if_pos hline']
      exact ih (by simp [hline, hline'])
    · rw [passLines, passLines, if_neg hline, if_neg (mt hl.newline_iff.mpr hline)]
      exact ⟨hlast, .cons hl hrest⟩

theorem Cursor.Like.settle (h : c.Like ls c') : c.settle.Like ls c'.settle := by
  unfold Cursor.settle
  rw [← h.depth]
  split
  · exact h
  · obtain ⟨hlast, hrest⟩ := passLines_like h.lineEnd h.rest
    exact ⟨hrest, hlast, rfl, h.errors⟩

theorem Lexeme.head?_like {rest rest' : List Lexeme}
    (h : List.Forall₂ (Lexeme.Like ls) rest rest') :
    Option.Rel (Lexeme.Like ls) rest.head? rest'.head? := by
  cases h with
  | nil => exact .none
  | cons hl _ => exact .some hl

/-- Lexemes that are alike have tokens that are. -/
theorem Lexeme.map_token_like {next next' : Option Lexeme}
    (h : Option.Rel (Lexeme.Like ls) next next') :
    Option.Rel Token.Like (next.map Lexeme.token) (next'.map Lexeme.token) := by
  cases h with
  | none => exact .none
  | some hl => exact .some hl.token

namespace Parse

theorem alike_peek : Reading.Alike ls (Option.Rel (Lexeme.Like ls)) peek peek :=
  fun _ _ hc => ⟨Lexeme.head?_like hc.settle.rest, hc.settle⟩

/-- Passing a lexeme each. -/
theorem like_pass (h : c.Like ls c') : c.pass.Like ls c'.pass := by
  obtain ⟨rest, last, depth, eof, errors⟩ := c
  obtain ⟨rest', last', depth', eof', errors'⟩ := c'
  obtain ⟨hrest, hlast, hdepth, herrors⟩ := h
  cases hrest with
  | nil => exact ⟨.nil, hlast, hdepth, herrors⟩
  | cons hl hrest =>
    exact ⟨hrest, by simp [Cursor.pass, hl.newline_iff], hdepth, herrors⟩

theorem alike_advance : Reading.Alike ls (Option.Rel (Lexeme.Like ls)) advance advance := by
  refine alike_peek.bind fun next next' hnext => ?_
  cases hnext with
  | none => exact .pure .none
  | some hl =>
    intro c c' hc
    have hpass := like_pass hc
    refine ⟨.some hl, hpass.rest, hpass.lineEnd, ?_, hpass.errors⟩
    have hopens := hl.token.congr Token.opens (fun _ _ => rfl) fun _ _ => rfl
    have hcloses := hl.token.congr Token.closes (fun _ _ => rfl) fun _ _ => rfl
    show Cursor.depthAfter c.depth _ = Cursor.depthAfter c'.depth _
    rw [Cursor.depthAfter, Cursor.depthAfter, hc.depth, hopens, hcloses]

/-- A token that is like no other one is found by both or by none. -/
theorem alike_eat {t : Token} (ht : t.isFixed = true) :
    Reading.Alike ls (Option.Rel Unrelated) (eat t) (eat t) := by
  refine alike_peek.bind fun next next' hnext => ?_
  cases hnext with
  | none => exact .pure .none
  | some hl =>
    refine .ite (hl.token.eq_iff ht) (fun _ => ?_) fun _ => .pure .none
    exact alike_advance.discard.bind fun _ _ _ => .pure (.some trivial)

theorem alike_here : Reading.Alike ls Unrelated here here :=
  alike_peek.bind fun _ _ _ => Reading.Alike.get.bind fun _ _ _ => .pure trivial

theorem alike_unexpected (wanted : Wanted) :
    Reading.Alike ls Unrelated (unexpected wanted) (unexpected wanted) :=
  alike_here.bind fun _ _ _ => alike_peek.bind fun _ _ _ => .pure trivial

theorem alike_report (fault fault' : Fault) (span span' : Span) :
    Reading.Alike ls Unrelated (report fault span) (report fault' span') :=
  fun c c' hc => ⟨trivial, hc.rest, hc.lineEnd, hc.depth, by
    show (c.errors ++ [_]).length = (c'.errors ++ [_]).length
    rw [List.length_append, List.length_append, hc.errors]
    rfl⟩

theorem alike_reportIf {α : Type} {R : α → α → Prop} {m m' : Reading α}
    (h : Reading.Alike ls R m m') {b : Bool} {fault : Fault} {span span' : Span} :
    Reading.Alike ls R (if b then report fault span >>= fun _ => m else m)
      (if b then report fault span' >>= fun _ => m' else m') :=
  .ite Iff.rfl (fun _ => (alike_report _ _ _ _).bind fun _ _ _ => h) fun _ => h

theorem alike_peekSecond : Reading.Alike ls (Option.Rel Token.Like) peekSecond peekSecond := by
  intro c c' hc
  have hsettle := hc.settle
  refine ⟨?_, hsettle⟩
  have htail : ∀ {rest rest' : List Lexeme}, List.Forall₂ (Lexeme.Like ls) rest rest' →
      List.Forall₂ (Lexeme.Like ls) rest.tail rest'.tail := by
    intro rest rest' h
    cases h with
    | nil => exact .nil
    | cons _ hrest => exact hrest
  have hafter : List.Forall₂ (Lexeme.Like ls)
      (if c.settle.depth = 0 then c.settle.rest.tail
        else (Cursor.passLines none c.settle.rest.tail).2)
      (if c'.settle.depth = 0 then c'.settle.rest.tail
        else (Cursor.passLines none c'.settle.rest.tail).2) := by
    rw [hsettle.depth]
    split
    · exact htail hsettle.rest
    · exact (Cursor.passLines_like rfl (htail hsettle.rest)).2
  exact Lexeme.map_token_like (Lexeme.head?_like hafter)

section Fail

variable {α α' : Type} {R : α → α' → Prop}

theorem alike_failWanting (wanted : Wanted) :
    Alike ls R (failWanting wanted) (failWanting wanted) :=
  .bind (.lift (alike_unexpected wanted)) fun _ _ _ => .throw _ _

theorem alike_tooDeep : Alike ls R tooDeep tooDeep :=
  .bind (.lift alike_here) fun _ _ _ => .throw _ _

end Fail

theorem alike_expectAs {t : Token} (ht : t.isFixed = true) (wanted : Wanted) :
    Alike ls Unrelated (expectAs t wanted) (expectAs t wanted) := by
  refine .bind (.lift (alike_eat ht)) fun found found' hfound => ?_
  cases hfound with
  | none => exact alike_failWanting wanted
  | some _ => exact .pure trivial

theorem Alike.get : Alike ls (Cursor.Like ls) get get := .lift .get

/-- The next token is a fixed one for both cursors or for none. -/
theorem next_eq_iff {next next' : Option Lexeme} (h : Option.Rel (Lexeme.Like ls) next next')
    {t : Token} (ht : t.isFixed = true) :
    next.map Lexeme.token = some t ↔ next'.map Lexeme.token = some t := by
  cases h with
  | none => exact Iff.rfl
  | some hl => simpa using hl.token.eq_iff ht

/-! ### Expressions -/

open MesonLens.Tree (like_of_parts like_pair drawn_of_parts drawn_leaf)

/-- What is read one level further in is alike. -/
structure Level.Like (ls : List Lexeme) (inner inner' : Level) : Prop where
  conditional : Alike ls (Tree.Like ls) inner.conditional inner'.conditional
  unary : Alike ls (Tree.Like ls) inner.unary inner'.unary

variable {inner inner' : Level}

theorem Level.Like.expression (h : inner.Like ls inner') :
    Alike ls (Tree.Like ls) inner.expression inner'.expression :=
  h.conditional.bind fun _ _ he => .ite (by rw [he.height])
    (fun _ => .bind (R := Unrelated) (.throw _ _) fun _ _ _ => .pure he) fun _ => .pure he

theorem alike_commaList {R : Tree Span → Tree Span → Prop} {item item' : Parse (Tree Span)}
    (h : Alike ls R item item') {close : Token} (hclose : close.isFixed = true) (rounds : Nat) :
    Alike ls (fun r r' => List.Forall₂ R r.1 r'.1) (commaList item close rounds)
      (commaList item' close rounds) := by
  induction rounds with
  | zero => exact alike_failWanting _
  | succ rounds ih =>
    refine .bind (.lift (alike_eat hclose)) fun found found' hfound => ?_
    cases hfound with
    | some _ => exact .pure .nil
    | none =>
      refine h.bind fun first first' hfirst => ?_
      refine .bind (.lift (alike_eat rfl)) fun comma _ hcomma => ?_
      cases hcomma with
      | some _ => exact ih.bind fun more more' hmore => .pure (.cons hfirst hmore)
      | none => exact .bind (alike_expectAs hclose _) fun _ _ _ => .pure (.cons hfirst .nil)

theorem alike_untilClose {R : Tree Span → Tree Span → Prop} {item item' : Parse (Tree Span)}
    (h : Alike ls R item item') {close : Token} (hclose : close.isFixed = true) :
    Alike ls (fun r r' => List.Forall₂ R r.1 r'.1) (untilClose item close)
      (untilClose item' close) := by
  refine .bind .get fun c c' hc => ?_
  -- Equally many lexemes are left, so that both loops have the same number of rounds.
  rw [hc.rest.length_eq]
  exact alike_commaList h hclose _

theorem alike_argument (h : inner.Like ls inner') :
    Alike ls (Tree.Like ls) (argument inner) (argument inner') := by
  refine h.expression.bind fun key key' hkey => ?_
  refine .bind (.lift (alike_eat rfl)) fun colon _ hcolon => ?_
  cases hcolon with
  | none => exact .pure hkey
  | some _ =>
    refine .ite (by rw [hkey.kind]) (fun _ => ?_) fun _ => ?_
    · exact .bind (R := Unrelated) (.throw _ _) fun _ _ _ => h.expression.bind fun _ _ hvalue =>
        .pure (like_pair rfl trivial rfl rfl hkey hvalue)
    · exact h.expression.bind fun _ _ hvalue => .pure (like_pair rfl trivial rfl rfl hkey hvalue)

theorem alike_arguments (h : inner.Like ls inner') :
    Alike ls (Tree.Like ls) (arguments inner) (arguments inner') :=
  .bind (alike_expectAs rfl _) fun _ _ _ => (alike_untilClose (alike_argument h) rfl).bind
    fun _ _ hitems => .pure (like_of_parts rfl trivial hitems)

theorem alike_entry (h : inner.Like ls inner') :
    Alike ls (Tree.Like ls) (entry inner) (entry inner') :=
  h.expression.bind fun _ _ hkey => .bind (.discard (alike_expectAs rfl _)) fun _ _ _ =>
    h.expression.bind fun _ _ hvalue => .pure (like_pair rfl trivial rfl rfl hkey hvalue)

theorem alike_startedBy (h : inner.Like ls inner') {l l' : Lexeme} (hl : l.Like ls l') :
    Alike ls (Tree.Like ls) (startedBy inner l) (startedBy inner' l') := by
  obtain ⟨token, span, raw⟩ := l
  obtain ⟨token', span', raw'⟩ := l'
  obtain ⟨hmem, htoken⟩ := hl
  dsimp only at htoken
  cases htoken with
  | name name name' =>
    have hcallee : (Tree.identifier span name).Like ls (.identifier span' name') :=
      like_of_parts rfl ⟨_, hmem, rfl, rfl⟩ .nil
    refine .bind (.lift alike_peek) fun next next' hnext => ?_
    refine .ite (next_eq_iff hnext rfl) (fun _ => ?_) fun _ => .pure hcallee
    exact (alike_arguments h).bind fun _ _ hargs =>
      .pure (like_pair rfl trivial rfl rfl hcallee hargs)
  | integer m n => exact .pure (like_of_parts rfl hmem .nil)
  -- A token that the grammar tells from all others is the same in both texts.
  | fixed _ hfixed =>
    cases token with
    | name | integer => cases hfixed
    | boolean | string => exact .pure (like_of_parts rfl ⟨_, hmem, rfl, rfl⟩ .nil)
    | lparen =>
      exact h.expression.bind fun _ _ he => .bind (.discard (alike_expectAs rfl _)) fun _ _ _ =>
        .pure he
    | lbracket =>
      exact (alike_untilClose h.expression rfl).bind fun _ _ hitems =>
        .pure (like_of_parts rfl trivial hitems)
    | lbrace =>
      exact (alike_untilClose (alike_entry h) rfl).bind fun _ _ hitems =>
        .pure (like_of_parts rfl trivial hitems)
    | _ => exact .throw _ _

theorem alike_primary (h : inner.Like ls inner') :
    Alike ls (Tree.Like ls) (primary inner) (primary inner') := by
  refine .bind (.lift alike_peek) fun next next' hnext => ?_
  cases hnext with
  | none => exact alike_failWanting _
  | some hl =>
    have hstarted := Alike.bind (.discard (.lift alike_advance)) fun _ _ _ => alike_startedBy h hl
    exact .ite hl.newline_iff
      (fun _ => .bind (R := Unrelated) (alike_failWanting _) fun _ _ _ => hstarted)
      fun _ => hstarted

theorem alike_method (h : inner.Like ls inner') {object object' : Tree Span}
    (hobject : object.Like ls object') (dot dot' : Span) :
    Alike ls (Tree.Like ls) (method inner object dot) (method inner' object' dot') := by
  -- Without a name the same error is noted in both texts.
  have hmissing : Alike ls (Tree.Like ls)
      (do
        report .noMethodName (.empty dot.stop)
        return .method (object.note.join dot) object
          (.malformed (.empty dot.stop) .noMethodName) none)
      (do
        report .noMethodName (.empty dot'.stop)
        return .method (object'.note.join dot') object'
          (.malformed (.empty dot'.stop) .noMethodName) none) :=
    .bind (.lift (alike_report _ _ _ _)) fun _ _ _ =>
      .pure (like_pair rfl trivial rfl rfl hobject (like_of_parts rfl trivial .nil))
  refine .bind (.lift alike_peek) fun next next' hnext => ?_
  cases hnext with
  | none => exact hmissing
  | @some l l' hl =>
    obtain ⟨token, span, raw⟩ := l
    obtain ⟨token', span', raw'⟩ := l'
    obtain ⟨hmem, htoken⟩ := hl
    dsimp only at htoken
    cases htoken with
    | name name name' =>
      have hmember : (Tree.identifier span name).Like ls (.identifier span' name') :=
        like_of_parts rfl ⟨_, hmem, rfl, rfl⟩ .nil
      refine .bind (.discard (.lift alike_advance)) fun _ _ _ => ?_
      refine .bind (.lift alike_peek) fun next next' hnext => .ite (next_eq_iff hnext rfl) ?_ ?_
      · exact fun _ => (alike_arguments h).bind fun _ _ hargs =>
          .pure (like_of_parts rfl trivial (.cons hobject (.cons hmember (.cons hargs .nil))))
      · exact fun _ => .bind (.lift (alike_unexpected _)) fun _ _ _ =>
          .bind (.lift (alike_report _ _ _ _)) fun _ _ _ =>
            .pure (like_pair rfl trivial rfl rfl hobject hmember)
    | integer m n => exact hmissing
    | fixed _ hfixed =>
      cases token with
      | name => cases hfixed
      | _ => exact hmissing

theorem alike_suffixes (h : inner.Like ls inner') (rounds : Nat) {object object' : Tree Span}
    (hobject : object.Like ls object') :
    Alike ls (Tree.Like ls) (suffixes inner rounds object) (suffixes inner' rounds object') := by
  induction rounds generalizing object object' with
  | zero => exact .pure hobject
  | succ rounds ih =>
    refine .bind (.lift alike_peek) fun next next' hnext => ?_
    cases hnext with
    | none => exact .pure hobject
    | @some l l' hl =>
      obtain ⟨token, span, raw⟩ := l
      obtain ⟨token', span', raw'⟩ := l'
      obtain ⟨hmem, htoken⟩ := hl
      dsimp only at htoken
      -- Neither a name nor an integer goes on with an operand.
      cases htoken with
      | name | integer => exact .pure hobject
      | fixed =>
        cases token with
        | dot =>
          exact .bind (.discard (.lift alike_advance)) fun _ _ _ =>
            (alike_method h hobject _ _).bind fun _ _ hcall => ih hcall
        | lbracket =>
          exact .bind (.discard (.lift alike_advance)) fun _ _ _ =>
            h.expression.bind fun _ _ hindex => .bind (alike_expectAs rfl _) fun _ _ _ =>
              ih (like_pair rfl trivial rfl rfl hobject hindex)
        | _ => exact .pure hobject

theorem alike_operand (h : inner.Like ls inner') :
    Alike ls (Tree.Like ls) (operand inner) (operand inner') := by
  refine (alike_primary h).bind fun _ _ he => .bind .get fun c c' hc => ?_
  rw [hc.rest.length_eq]
  exact alike_suffixes h _ he

theorem alike_unary (h : inner.Like ls inner') :
    Alike ls (Tree.Like ls) (unary inner) (unary inner') := by
  refine .bind (.lift alike_peek) fun next next' hnext => ?_
  cases hnext with
  | none => exact alike_operand h
  | some hl =>
    dsimp only
    rw [hl.token.congr unaryOp? (fun _ _ => rfl) fun _ _ => rfl]
    split
    · exact .bind (.discard (.lift alike_advance)) fun _ _ _ => h.unary.bind fun _ _ he =>
        .pure (like_of_parts rfl trivial (.cons he .nil))
    · exact alike_operand h

/-! ### Operators -/

/-- The next token writes the same operator for both cursors. -/
theorem alike_operator {op? : Token → Option BinaryOp}
    (hname : ∀ a b, op? (.name a) = op? (.name b))
    (hinteger : ∀ m n, op? (.integer m) = op? (.integer n)) :
    Reading.Alike ls Eq (operator op?) (operator op?) := by
  refine alike_peek.bind fun next next' hnext => ?_
  have hfound : (next.bind fun l => op? l.token) = next'.bind fun l => op? l.token := by
    cases hnext with
    | none => rfl
    | some hl => exact hl.token.congr op? hname hinteger
  rw [hfound]
  split
  · exact alike_advance.discard.bind fun _ _ _ => .pure rfl
  · exact .pure rfl

theorem alike_comparisonOperator :
    Reading.Alike ls Eq comparisonOperator comparisonOperator := by
  have hone : Reading.Alike ls Eq (operator BinaryOp.comparison?) (operator BinaryOp.comparison?) :=
    alike_operator (fun _ _ => rfl) fun _ _ => rfl
  refine alike_peek.bind fun next next' hnext => ?_
  have htoken := Lexeme.map_token_like hnext
  generalize next.map Lexeme.token = token at htoken ⊢
  generalize next'.map Lexeme.token = token' at htoken ⊢
  cases htoken with
  | none => exact hone
  | @some t t' h =>
    cases h with
    | name | integer => exact hone
    | fixed =>
      cases t with
      | kwNot =>
        -- Whether `in` follows is seen alike as well.
        refine alike_peekSecond.bind fun second second' hsecond => ?_
        refine .ite ?_ (fun _ => ?_) fun _ => .pure rfl
        · cases hsecond with
          | none => exact Iff.rfl
          | some h => simpa using h.eq_iff rfl
        · exact alike_advance.discard.bind fun _ _ _ => alike_advance.discard.bind fun _ _ _ =>
            .pure rfl
      | _ => exact hone

theorem alike_chain {op : Reading (Option BinaryOp)} (hop : Reading.Alike ls Eq op op)
    {next next' : Parse (Tree Span)} (h : Alike ls (Tree.Like ls) next next') (rounds : Nat)
    {left left' : Tree Span} (hleft : left.Like ls left') :
    Alike ls (Tree.Like ls) (chain op next rounds left) (chain op next' rounds left') := by
  induction rounds generalizing left left' with
  | zero => exact .pure hleft
  | succ rounds ih =>
    refine .bind (.lift hop) fun found found' hfound => ?_
    subst hfound
    cases found with
    | none => exact .pure hleft
    | some op' =>
      exact h.bind fun _ _ hright => ih (like_pair rfl trivial rfl rfl hleft hright)

theorem Alike.leftGrouped {next next' : Parse (Tree Span)} (h : Alike ls (Tree.Like ls) next next')
    {op : Reading (Option BinaryOp)} (hop : Reading.Alike ls Eq op op) :
    Alike ls (Tree.Like ls) (leftGrouped op next) (leftGrouped op next') := by
  refine h.bind fun first first' hfirst => .bind .get fun c c' hc => ?_
  rw [hc.rest.length_eq]
  exact alike_chain hop h _ hfirst

theorem alike_disjunction (h : inner.Like ls inner') :
    Alike ls (Tree.Like ls) (disjunction inner) (disjunction inner') := by
  have hmultiplicative : Alike ls (Tree.Like ls) (multiplicative inner) (multiplicative inner') :=
    (alike_unary h).leftGrouped (alike_operator (fun _ _ => rfl) fun _ _ => rfl)
  have hadditive : Alike ls (Tree.Like ls) (additive inner) (additive inner') :=
    hmultiplicative.leftGrouped (alike_operator (fun _ _ => rfl) fun _ _ => rfl)
  have hcomparison : Alike ls (Tree.Like ls) (comparison inner) (comparison inner') :=
    hadditive.leftGrouped alike_comparisonOperator
  have hconjunction : Alike ls (Tree.Like ls) (conjunction inner) (conjunction inner') :=
    hcomparison.leftGrouped (alike_operator (fun _ _ => rfl) fun _ _ => rfl)
  exact hconjunction.leftGrouped (alike_operator (fun _ _ => rfl) fun _ _ => rfl)

theorem alike_conditional (h : inner.Like ls inner') :
    Alike ls (Tree.Like ls) (conditional inner) (conditional inner') := by
  refine (alike_disjunction h).bind fun condition condition' hcondition =>
    .bind (.lift (alike_eat rfl)) fun question _ hquestion => ?_
  cases hquestion with
  | none => exact .pure hcondition
  | some _ =>
    refine h.conditional.bind fun _ _ hthen => ?_
    refine .bind (.discard (alike_expectAs rfl _)) fun _ _ _ => ?_
    exact h.conditional.bind fun _ _ helse =>
      .pure (like_of_parts rfl trivial (.cons hcondition (.cons hthen (.cons helse .nil))))

theorem alike_level (room : Nat) : (level room).Like ls (level room) := by
  induction room with
  | zero => exact ⟨alike_tooDeep, alike_tooDeep⟩
  | succ room ih => exact ⟨alike_conditional ih, alike_unary ih⟩

/-! ### Statements

Of a statement the grammar sees nothing, so only what the first run has drawn is kept. -/

/-- The first tree was drawn from lexemes. -/
abbrev FirstDrawn (ls : List Lexeme) (t _ : Tree Span) : Prop := t.Drawn ls

/-- The first trees were drawn from lexemes. -/
abbrev AllDrawn (ls : List Lexeme) (ts _ : List (Tree Span)) : Prop := ∀ t ∈ ts, t.Drawn ls

theorem Level.Like.drawn (h : inner.Like ls inner') :
    Alike ls (FirstDrawn ls) inner.expression inner'.expression :=
  h.expression.mono fun _ _ ht => ht.drawn

theorem alike_set (h : c.Like ls c') : Reading.Alike ls Unrelated (set c) (set c') :=
  fun _ _ _ => ⟨trivial, h⟩

theorem alike_closeBrackets : Reading.Alike ls Unrelated closeBrackets closeBrackets :=
  fun _ _ hc => ⟨trivial, hc.rest, hc.lineEnd, rfl, hc.errors⟩

theorem isAt_like (h : c.Like ls c') {t : Token} (ht : t.isFixed = true) :
    c.isAt t = c'.isAt t := by
  have hhead := Lexeme.head?_like h.rest
  unfold Cursor.isAt
  generalize c.rest.head? = next at hhead ⊢
  generalize c'.rest.head? = next' at hhead ⊢
  cases hhead with
  | none => rfl
  | some hl => simp [hl.token.eq_iff ht]

/-- The rest of a line is skipped by both. -/
theorem skip_like {last last' : Option Lexeme} {rest rest' : List Lexeme}
    (hlast : last.any (·.token = .newline) = last'.any (·.token = .newline))
    (h : List.Forall₂ (Lexeme.Like ls) rest rest') :
    ((rest.takeWhile (·.token ≠ .newline)).getLast?.or last).any (·.token = .newline) =
        ((rest'.takeWhile (·.token ≠ .newline)).getLast?.or last').any (·.token = .newline) ∧
      List.Forall₂ (Lexeme.Like ls) (rest.dropWhile (·.token ≠ .newline))
        (rest'.dropWhile (·.token ≠ .newline)) := by
  induction h generalizing last last' with
  | nil => exact ⟨hlast, .nil⟩
  | @cons l l' rest rest' hl hrest ih =>
    by_cases hline : l.token = .newline
    · have hline' := hl.newline_iff.mp hline
      simp only [hline, hline', ne_eq, not_true_eq_false, decide_false, Bool.false_eq_true,
        not_false_eq_true, List.takeWhile_cons_of_neg, List.dropWhile_cons_of_neg,
        List.getLast?_nil, Option.none_or]
      exact ⟨hlast, .cons hl hrest⟩
    · have hline' := mt hl.newline_iff.mpr hline
      have hnewline : (some l).any (·.token = .newline) = (some l').any (·.token = .newline) := by
        simp [hline, hline']
      -- What is skipped last is the last lexeme of the line, or the one passed before if there is
      -- none.
      have hor : ∀ (x : Lexeme) (xs : List Lexeme) (o : Option Lexeme),
          (x :: xs).getLast?.or o = xs.getLast?.or (some x) := by
        intro x xs o
        rw [List.getLast?_cons]
        cases xs.getLast? with
        | none => rfl
        | some _ => rfl
      rw [List.takeWhile_cons_of_pos (by simpa using hline),
        List.takeWhile_cons_of_pos (by simpa using hline'),
        List.dropWhile_cons_of_pos (by simpa using hline),
        List.dropWhile_cons_of_pos (by simpa using hline'), hor, hor]
      exact ih hnewline

theorem skipLine_like (h : c.Like ls c') : c.skipLine.Like ls c'.skipLine := by
  obtain ⟨hlast, hrest⟩ := skip_like h.lineEnd h.rest
  exact ⟨hrest, hlast, rfl, h.errors⟩

theorem alike_recover {start start' : List Lexeme} (hstart : start.length = start'.length)
    (e e' : SyntaxError) :
    Reading.Alike ls (FirstDrawn ls) (recover start e) (recover start' e') := by
  intro c c' hc
  have hpass : (if c.rest.length = start.length ∧ !c.isAt .newline then c.pass else c).Like ls
      (if c'.rest.length = start'.length ∧ !c'.isAt .newline then c'.pass else c') := by
    rw [hc.rest.length_eq, hstart, isAt_like hc rfl]
    split
    · exact like_pass hc
    · exact hc
  have hskip := skipLine_like hpass
  refine ⟨drawn_leaf trivial rfl, hskip.rest, hskip.lineEnd, hskip.depth, ?_⟩
  show (_ ++ [_]).length = (_ ++ [_]).length
  rw [List.length_append, List.length_append]
  exact congrArg (· + 1) hskip.errors

theorem alike_orRecover {m m' : Parse (Tree Span)} (h : Alike ls (FirstDrawn ls) m m') :
    Reading.Alike ls (FirstDrawn ls) (orRecover m) (orRecover m') := by
  refine Reading.Alike.get.bind fun c c' hc => Reading.Alike.bind h fun r r' hr => ?_
  cases hr with
  | ok ht => exact .pure ht
  | error e e' => exact alike_recover hc.rest.length_eq e e'

theorem alike_finishLine : Reading.Alike ls (AllDrawn ls) finishLine finishLine := by
  refine alike_closeBrackets.bind fun _ _ _ => Reading.Alike.get.bind fun c c' hc => ?_
  refine .ite (by rw [hc.lineEnd]) (fun _ => .pure nofun) fun _ => ?_
  obtain ⟨rest, last, depth, eof, errors⟩ := c
  obtain ⟨rest', last', depth', eof', errors'⟩ := c'
  have hrest := hc.rest
  dsimp only at hrest ⊢
  cases hrest with
  | nil => exact .pure nofun
  | cons hl hmore =>
    refine .ite hl.newline_iff (fun _ => ?_) fun _ => ?_
    · exact (alike_set (like_pass hc)).bind fun _ _ _ => .pure nofun
    · refine (alike_unexpected _).bind fun e e' _ => ?_
      exact (alike_recover (by simp [hmore.length_eq]) e e').bind fun t _ ht =>
        .pure (List.forall_mem_singleton.mpr ht)

theorem alike_finishHeader : Reading.Alike ls Unrelated finishHeader finishHeader :=
  alike_finishLine.discard

theorem alike_simpleStatement (h : inner.Like ls inner') :
    Alike ls (FirstDrawn ls) (simpleStatement inner) (simpleStatement inner') := by
  refine h.expression.bind fun target target' htarget => .bind (.lift alike_peek)
    fun next next' hnext => ?_
  have hop : (next.bind fun l => AssignOp.ofToken? l.token) =
      next'.bind fun l => AssignOp.ofToken? l.token := by
    cases hnext with
    | none => rfl
    | some hl => exact hl.token.congr AssignOp.ofToken? (fun _ _ => rfl) fun _ _ => rfl
  dsimp only
  rw [hop]
  split
  · exact .pure htarget.drawn
  · next op _ =>
    have hvalue : Alike ls (FirstDrawn ls)
        (do
          let value ← inner.expression
          return .assignment (target.note.join value.note) target op value)
        (do
          let value ← inner'.expression
          return .assignment (target'.note.join value.note) target' op value) :=
      h.expression.bind fun value value' hvalue => .pure
        (drawn_of_parts trivial (by simpa [Tree.children] using ⟨htarget.drawn, hvalue.drawn⟩))
    refine .bind (.discard (.lift alike_advance)) fun _ _ _ => .ite (by rw [htarget.kind]) ?_ ?_
    · exact fun _ => .bind (.lift (alike_report _ _ _ _)) fun _ _ _ => hvalue
    · exact fun _ => hvalue

/-- The first conditions and blocks were drawn from lexemes. -/
structure BranchesDrawn (ls : List Lexeme) (r _ : List (Tree Span) × List (List (Tree Span))) :
    Prop where
  conditions : ∀ t ∈ r.1, t.Drawn ls
  blocks : ∀ body ∈ r.2, ∀ t ∈ body, t.Drawn ls

theorem alike_moreBranches (h : inner.Like ls inner') {block block' : Reading (List (Tree Span))}
    (hblock : Reading.Alike ls (AllDrawn ls) block block') (rounds : Nat) (seenElse : Bool) :
    Reading.Alike ls (BranchesDrawn ls) (moreBranches inner block rounds seenElse)
      (moreBranches inner' block' rounds seenElse) := by
  induction rounds generalizing seenElse with
  | zero => exact .pure ⟨nofun, nofun⟩
  | succ rounds ih =>
    refine alike_closeBrackets.bind fun _ _ _ => Reading.Alike.get.bind fun c c' hc => ?_
    -- Any token but the three words that go on with a selection leads to the same error.
    have hmissing : Reading.Alike ls (BranchesDrawn ls)
        (do
          let error ← unexpected (.token .kwEndif)
          report error.fault error.span
          return ([], []))
        (do
          let error ← unexpected (.token .kwEndif)
          report error.fault error.span
          return ([], [])) :=
      (alike_unexpected _).bind fun _ _ _ => (alike_report _ _ _ _).bind fun _ _ _ =>
        .pure ⟨nofun, nofun⟩
    have hhead := Lexeme.head?_like hc.rest
    dsimp only
    generalize c.rest.head? = next at hhead ⊢
    generalize c'.rest.head? = next' at hhead ⊢
    cases hhead with
    | none => exact hmissing
    | @some l l' hl =>
      obtain ⟨token, span, raw⟩ := l
      obtain ⟨token', span', raw'⟩ := l'
      obtain ⟨-, htoken⟩ := hl
      dsimp only at htoken
      cases htoken with
      | name | integer => exact hmissing
      | fixed =>
        cases token with
        | kwElif =>
          refine alike_reportIf ?_
          refine alike_advance.discard.bind fun _ _ _ => ?_
          refine (alike_orRecover h.drawn).bind fun _ _ hcondition => ?_
          refine alike_finishHeader.bind fun _ _ _ => hblock.bind fun _ _ hbody => ?_
          refine (ih seenElse).bind fun _ _ hmore => .pure ⟨?_, ?_⟩
          · exact List.forall_mem_cons.mpr ⟨hcondition, hmore.conditions⟩
          · exact List.forall_mem_cons.mpr ⟨hbody, hmore.blocks⟩
        | kwElse =>
          refine alike_reportIf ?_
          refine alike_advance.discard.bind fun _ _ _ => alike_finishHeader.bind fun _ _ _ => ?_
          refine hblock.bind fun _ _ hbody => (ih true).bind fun _ _ hmore => .pure ⟨?_, ?_⟩
          · exact hmore.conditions
          · exact List.forall_mem_cons.mpr ⟨hbody, hmore.blocks⟩
        | kwEndif => exact alike_advance.discard.bind fun _ _ _ => .pure ⟨nofun, nofun⟩
        | _ => exact hmissing

theorem alike_selection (h : inner.Like ls inner') {block block' : Reading (List (Tree Span))}
    (hblock : Reading.Alike ls (AllDrawn ls) block block') :
    Reading.Alike ls (FirstDrawn ls) (selection inner block) (selection inner' block') := by
  refine alike_here.bind fun _ _ _ => alike_advance.discard.bind fun _ _ _ =>
    (alike_orRecover h.drawn).bind fun condition _ hcondition => alike_finishHeader.bind
      fun _ _ _ => hblock.bind fun body _ hbody => Reading.Alike.get.bind fun c c' hc => ?_
  rw [hc.rest.length_eq]
  refine (alike_moreBranches h hblock _ _).bind fun r _ hr => Reading.Alike.get.bind
    fun _ _ _ => .pure (drawn_of_parts trivial fun t ht => ?_)
  have hconditions : ∀ t ∈ condition :: r.1, t.Drawn ls :=
    List.forall_mem_cons.mpr ⟨hcondition, hr.conditions⟩
  have hblocks : ∀ block ∈ body :: r.2, ∀ t ∈ block, t.Drawn ls :=
    List.forall_mem_cons.mpr ⟨hbody, hr.blocks⟩
  rcases Branches.mem_children_ofLists ht with hmem | ⟨block, hmem, ht⟩
  · exact hconditions t hmem
  · exact hblocks block hmem t ht

/-! ### Loops -/

/-- There are as many names, and the first ones were drawn from lexemes. -/
structure NamesDrawn (ls : List Lexeme) (names names' : List (Tree Span)) : Prop where
  length : names.length = names'.length
  drawn : ∀ t ∈ names, t.Drawn ls

/-- The first names and what they run through were drawn from lexemes. -/
structure HeaderDrawn (ls : List Lexeme) (r _ : List (Tree Span) × Tree Span) : Prop where
  names : ∀ t ∈ r.1, t.Drawn ls
  iterable : r.2.Drawn ls

theorem alike_loopVariables (rounds : Nat) :
    Alike ls (NamesDrawn ls) (loopVariables rounds) (loopVariables rounds) := by
  induction rounds with
  | zero => exact alike_failWanting _
  | succ rounds ih =>
    refine .bind (.lift alike_peek) fun next next' hnext => ?_
    cases hnext with
    | none => exact alike_failWanting _
    | @some l l' hl =>
      obtain ⟨token, span, raw⟩ := l
      obtain ⟨token', span', raw'⟩ := l'
      obtain ⟨hmem, htoken⟩ := hl
      dsimp only at htoken
      cases htoken with
      | name name name' =>
        have hname : (Tree.identifier span name).Drawn ls :=
          drawn_leaf ⟨_, hmem, rfl, rfl⟩ rfl
        refine .bind (.discard (.lift alike_advance)) fun _ _ _ =>
          .bind (.lift (alike_eat rfl)) fun comma _ hcomma => ?_
        cases hcomma with
        | none => exact .pure ⟨rfl, List.forall_mem_singleton.mpr hname⟩
        | some _ =>
          exact ih.bind fun more more' hmore => .pure ⟨congrArg (· + 1) hmore.length,
            List.forall_mem_cons.mpr ⟨hname, hmore.drawn⟩⟩
      | integer => exact alike_failWanting _
      | fixed _ hfixed =>
        cases token with
        | name => cases hfixed
        | _ => exact alike_failWanting _

theorem alike_loopHeader (h : inner.Like ls inner') :
    Alike ls (HeaderDrawn ls) (loopHeader inner) (loopHeader inner') := by
  refine .bind .get fun c c' hc => ?_
  rw [hc.rest.length_eq]
  refine (alike_loopVariables _).bind fun names names' hnames => ?_
  have hrest : Alike ls (HeaderDrawn ls)
      (do
        discard (expect .colon)
        let iterable ← inner.expression
        return (names, iterable))
      (do
        discard (expect .colon)
        let iterable ← inner'.expression
        return (names', iterable)) :=
    .bind (.discard (alike_expectAs rfl _)) fun _ _ _ => h.drawn.bind fun _ _ hiterable =>
      .pure ⟨hnames.drawn, hiterable⟩
  refine .ite (by rw [hnames.length]) (fun _ => ?_) fun _ => hrest
  exact .bind .get fun _ _ _ => .bind (R := Unrelated) (.throw _ _) fun _ _ _ => hrest

theorem alike_headerOrRecover (h : inner.Like ls inner') :
    Reading.Alike ls (HeaderDrawn ls) (headerOrRecover inner) (headerOrRecover inner') := by
  refine Reading.Alike.get.bind fun c c' hc =>
    Reading.Alike.bind (alike_loopHeader h) fun r r' hr => ?_
  cases hr with
  | ok hheader => exact .pure hheader
  | error e e' =>
    exact (alike_recover hc.rest.length_eq e e').bind fun _ _ ht => .pure ⟨nofun, ht⟩

theorem alike_closeLoop : Reading.Alike ls Unrelated closeLoop closeLoop := by
  refine alike_closeBrackets.bind fun _ _ _ => Reading.Alike.get.bind fun c c' hc => ?_
  refine .ite (by rw [isAt_like hc rfl]) (fun _ => alike_advance.discard) fun _ => ?_
  exact (alike_unexpected _).bind fun _ _ _ => alike_report _ _ _ _

theorem alike_iteration (h : inner.Like ls inner') {block block' : Reading (List (Tree Span))}
    (hblock : Reading.Alike ls (AllDrawn ls) block block') :
    Reading.Alike ls (FirstDrawn ls) (iteration inner block) (iteration inner' block') := by
  refine alike_here.bind fun _ _ _ => alike_advance.discard.bind fun _ _ _ =>
    (alike_headerOrRecover h).bind fun r _ hr => alike_finishHeader.bind fun _ _ _ =>
      hblock.bind fun body _ hbody => alike_closeLoop.bind fun _ _ _ => Reading.Alike.get.bind
        fun _ _ _ => .pure (drawn_of_parts trivial fun t ht => ?_)
  rcases List.mem_append.mp ht with ht | ht
  · exact hr.names t ht
  · rcases List.mem_cons.mp ht with rfl | ht
    · exact hr.iterable
    · exact hbody t ht

/-! ### Blocks -/

theorem alike_blockRounds {one one' : Parse (Tree Span)} (h : Alike ls (FirstDrawn ls) one one')
    (top : Bool) (rounds : Nat) :
    Reading.Alike ls (AllDrawn ls) (blockRounds one top rounds) (blockRounds one' top rounds) := by
  induction rounds with
  | zero => exact .pure nofun
  | succ rounds ih =>
    refine alike_closeBrackets.bind fun _ _ _ => Reading.Alike.get.bind fun c c' hc => ?_
    have hset := alike_set (like_pass hc)
    have hrest := hc.rest
    -- Of the cursors only what was passed and what is ahead matters, and both are alike.
    generalize c.pass = passed at hset ⊢
    generalize c'.pass = passed' at hset ⊢
    generalize c.rest = rest at hrest ⊢
    generalize c'.rest = rest' at hrest ⊢
    cases hrest with
    | nil => exact .pure nofun
    | @cons l l' rest rest' hl hrest =>
      have hlength : (l :: rest).length = (l' :: rest').length := by simp [hrest.length_eq]
      have hrecover : ∀ e e', Reading.Alike ls (AllDrawn ls)
          (do return (← recover (l :: rest) e) :: (← blockRounds one top rounds))
          (do return (← recover (l' :: rest') e') :: (← blockRounds one' top rounds)) :=
        fun e e' => (alike_recover hlength e e').bind fun _ _ ht => ih.bind fun _ _ hts =>
          .pure (List.forall_mem_cons.mpr ⟨ht, hts⟩)
      have hcloses := hl.token.congr Token.closesBlock (fun _ _ => rfl) fun _ _ => rfl
      refine .ite hl.newline_iff (fun _ => hset.bind fun _ _ _ => ih) fun _ => ?_
      refine .ite (by rw [hcloses]) (fun _ => ?_) fun _ => ?_
      · exact .ite Iff.rfl (fun _ => hrecover _ _) fun _ => .pure nofun
      · refine Reading.Alike.bind h fun r r' hr => ?_
        cases hr with
        | ok ht =>
          refine alike_finishLine.bind fun _ _ hjunk => ih.bind fun _ _ hts => .pure ?_
          exact List.forall_mem_cons.mpr ⟨ht, List.forall_mem_append.mpr ⟨hjunk, hts⟩⟩
        | error e e' => exact hrecover e e'

theorem alike_block {one one' : Parse (Tree Span)} (h : Alike ls (FirstDrawn ls) one one')
    (top : Bool) : Reading.Alike ls (AllDrawn ls) (block one top) (block one' top) := by
  refine Reading.Alike.get.bind fun c c' hc => ?_
  rw [hc.rest.length_eq]
  exact alike_blockRounds h top _

theorem alike_statement_of_inner {room : Nat} (hinner : ∀ n, room = n + 1 →
      Alike ls (FirstDrawn ls) (statement n) (statement n)) :
    Alike ls (FirstDrawn ls) (statement room) (statement room) := by
  have hlevel : (level room).Like ls (level room) := alike_level room
  have hsimple := alike_simpleStatement hlevel
  unfold statement
  refine .bind (.lift alike_peek) fun next next' hnext => ?_
  have htoken := Lexeme.map_token_like hnext
  generalize next.map Lexeme.token = token at htoken ⊢
  generalize next'.map Lexeme.token = token' at htoken ⊢
  cases htoken with
  | none => exact hsimple
  | @some t t' h =>
    cases h with
    | name | integer => exact hsimple
    | fixed =>
      cases t with
      | kwIf =>
        cases room with
        | zero => exact alike_tooDeep
        | succ n => exact .lift (alike_selection (alike_level n) (alike_block (hinner n rfl) false))
      | kwForeach =>
        cases room with
        | zero => exact alike_tooDeep
        | succ n => exact .lift (alike_iteration (alike_level n) (alike_block (hinner n rfl) false))
      | kwBreak | kwContinue =>
        exact .bind (.lift alike_here) fun _ _ _ =>
          .bind (.discard (.lift alike_advance)) fun _ _ _ => .pure (drawn_leaf trivial rfl)
      | _ => exact hsimple

theorem alike_statement (room : Nat) :
    Alike ls (FirstDrawn ls) (statement room) (statement room) := by
  induction room with
  | zero => exact alike_statement_of_inner nofun
  | succ room ih =>
    refine alike_statement_of_inner fun n hn => ?_
    cases hn
    exact ih

end Parse

end Steps

/-! ### Whole texts -/

/-- Lexemes with tokens that are alike have equally many errors, and what is read from the first
ones is drawn from them. -/
theorem Parse.alike_statements {lexemes lexemes' : List Lexeme}
    (h : List.Forall₂ (fun l l' => l.token.Like l'.token) lexemes lexemes') (eof eof' : Position) :
    (∀ t ∈ (statements lexemes eof).1, t.Drawn lexemes) ∧
      (statements lexemes eof).2.length = (statements lexemes' eof').2.length := by
  have hrest : List.Forall₂ (Lexeme.Like lexemes) lexemes lexemes' :=
    ((List.forall₂_and_left _ _).mpr ⟨fun _ hl => hl, h⟩).imp fun _ _ hl => ⟨hl.1, hl.2⟩
  obtain ⟨hdrawn, hc⟩ := alike_block (alike_statement maxNesting) true
    { rest := lexemes, eof } { rest := lexemes', eof := eof' } ⟨hrest, rfl, rfl, rfl⟩
  exact ⟨hdrawn, hc.errors⟩

namespace SourceFile

variable {text : String} {mark : Mark}

/-- Every node was made from the lexemes of the text, and then numbered. -/
theorem drawn_root {u : Tree Mark} (hu : u ∈ (parse text).root.preorder) :
    ∃ v : Tree Span, v.IsFrom (Lexed.ofText text).lexemes ∧ ∃ k, u = (v.number.run k).1 := by
  -- The text is in lockstep with itself.
  have halike := Parse.alike_statements
    (List.forall₂_same.mpr fun (l : Lexeme) (_ : l ∈ (Lexed.ofText text).lexemes) => .refl l.token)
    (Position.after {} text.toList) (Position.after {} text.toList)
  have hfile : (Tree.file ⟨{}, Position.after {} text.toList⟩ (Parse.statements
      (Lexed.ofText text).lexemes (Position.after {} text.toList)).1).Drawn
      (Lexed.ofText text).lexemes := Tree.drawn_of_parts trivial halike.1
  obtain ⟨v, hv, hnumber⟩ := Tree.mem_preorder_number hu
  exact ⟨v, hfile v hv, hnumber⟩

/-- An integer stands where its lexeme does. -/
theorem integer_mem_lexemes {value : Nat} {raw : String}
    (h : .integer mark value raw ∈ (parse text).root.preorder) :
    ⟨.integer value, mark.span, raw⟩ ∈ (Lexed.ofText text).lexemes := by
  obtain ⟨v, hv, k, hnumber⟩ := drawn_root h
  have hkind : v.kind = .integer := by
    rw [← (Tree.number_run v k).2.2.1, ← hnumber]
    rfl
  cases v with
  | integer span value' raw' =>
    cases hnumber
    exact hv
  | _ => cases hkind

/-- A name stands where its lexeme does. -/
theorem name_mem_lexemes {name : String}
    (h : .identifier mark name ∈ (parse text).root.preorder) :
    ∃ l ∈ (Lexed.ofText text).lexemes, l.token = .name name ∧ l.span = mark.span := by
  obtain ⟨v, hv, k, hnumber⟩ := drawn_root h
  have hkind : v.kind = .identifier := by
    rw [← (Tree.number_run v k).2.2.1, ← hnumber]
    rfl
  cases v with
  | identifier span name' =>
    cases hnumber
    exact hv
  | _ => cases hkind

end SourceFile

end MesonLens
