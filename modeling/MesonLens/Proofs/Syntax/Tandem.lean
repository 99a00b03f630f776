import MesonLens.Proofs.Syntax.Expression
import MesonLens.Proofs.Syntax.Layout

/-!
# `MesonLens.Proofs.Syntax.Tandem`: two readings side by side

A rule of the grammar knows its text only through a few steps: it looks at the next token, reads it
and notes errors. So where two cursors agree on these steps, a rule does the same at both of them,
even if one stands elsewhere in its text or has more text ahead. A `Tandem` tells which cursors meet
and how the places of the first text are moved to those of the second one; its laws are about the
steps only.

* `Tree.map`, `Lexeme.move`, `SyntaxError.move`: what was read, at other places;
* `Tandem.Runs`, `Tandem.Parses`: from cursors that meet, two steps give the same result at other
  places, or fail with the same error, and lead to cursors that meet. No step goes back in the
  text;
* `Tandem.parses_commaList`, `Tandem.parses_suffixes`, `Tandem.parses_chain`: the loops may be given
  different numbers of rounds, because every round reads a token;
* `Tandem.parses_level`, `Tandem.parses_simpleStatement`: the rules of the grammar. One that
  succeeds has read a token.
-/

set_option autoImplicit false

namespace MesonLens

/-! ### What was read, at other places -/

/-- The stretch between the places that the ends are moved to. -/
def Span.move (f : Position → Position) (s : Span) : Span := ⟨f s.start, f s.stop⟩

/-- A lexeme at another place. -/
def Lexeme.move (f : Position → Position) (l : Lexeme) : Lexeme := { l with span := l.span.move f }

/-- An error at another place. -/
def SyntaxError.move (f : Position → Position) (e : SyntaxError) : SyntaxError :=
  { e with span := e.span.move f }

section Map

variable {α β : Type}

mutual

/-- A tree with other notes. -/
def Tree.map (f : α → β) : Tree α → Tree β
  | .file a ts => .file (f a) (Tree.mapAll f ts)
  | .arguments a ts => .arguments (f a) (Tree.mapAll f ts)
  | .array a ts => .array (f a) (Tree.mapAll f ts)
  | .assignment a l op r => .assignment (f a) (l.map f) op (r.map f)
  | .binary a l op r => .binary (f a) (l.map f) op (r.map f)
  | .boolean a value => .boolean (f a) value
  | .conditional a c t e => .conditional (f a) (c.map f) (t.map f) (e.map f)
  | .dictionary a ts => .dictionary (f a) (Tree.mapAll f ts)
  | .call a l r => .call (f a) (l.map f) (r.map f)
  | .identifier a name => .identifier (f a) name
  | .integer a value raw => .integer (f a) value raw
  | .iteration a names iterable body =>
    .iteration (f a) (Tree.mapAll f names) (iterable.map f) (Tree.mapAll f body)
  | .entry a l r => .entry (f a) (l.map f) (r.map f)
  | .keyword a l r => .keyword (f a) (l.map f) (r.map f)
  | .method a object name none => .method (f a) (object.map f) (name.map f) none
  | .method a object name (some args) =>
    .method (f a) (object.map f) (name.map f) (some (args.map f))
  | .selection a branches => .selection (f a) (branches.map f)
  | .string a value format multiline => .string (f a) value format multiline
  | .subscript a l r => .subscript (f a) (l.map f) (r.map f)
  | .unary a op t => .unary (f a) op (t.map f)
  | .malformed a fault => .malformed (f a) fault
  | .breakLoop a => .breakLoop (f a)
  | .continueLoop a => .continueLoop (f a)

/-- Trees with other notes. -/
def Tree.mapAll (f : α → β) : List (Tree α) → List (Tree β)
  | [] => []
  | t :: ts => t.map f :: Tree.mapAll f ts

/-- Branches with other notes. -/
def Branches.map (f : α → β) : Branches α → Branches β
  | .done => .done
  | .otherwise body => .otherwise (Tree.mapAll f body)
  | .arm condition body rest => .arm (condition.map f) (Tree.mapAll f body) (rest.map f)

end

mutual

theorem Tree.map_id : ∀ t : Tree α, t.map id = t
  | .file a ts => congrArg (Tree.file a) (Tree.mapAll_id ts)
  | .arguments a ts => congrArg (Tree.arguments a) (Tree.mapAll_id ts)
  | .array a ts => congrArg (Tree.array a) (Tree.mapAll_id ts)
  | .dictionary a ts => congrArg (Tree.dictionary a) (Tree.mapAll_id ts)
  | .assignment a l op r => by rw [Tree.map, l.map_id, r.map_id]; rfl
  | .binary a l op r => by rw [Tree.map, l.map_id, r.map_id]; rfl
  | .call a l r => by rw [Tree.map, l.map_id, r.map_id]; rfl
  | .entry a l r => by rw [Tree.map, l.map_id, r.map_id]; rfl
  | .keyword a l r => by rw [Tree.map, l.map_id, r.map_id]; rfl
  | .subscript a l r => by rw [Tree.map, l.map_id, r.map_id]; rfl
  | .conditional a c t e => by rw [Tree.map, c.map_id, t.map_id, e.map_id]; rfl
  | .iteration a names iterable body => by
    rw [Tree.map, Tree.mapAll_id, iterable.map_id, Tree.mapAll_id]; rfl
  | .method a object name none => by rw [Tree.map, object.map_id, name.map_id]; rfl
  | .method a object name (some args) => by
    rw [Tree.map, object.map_id, name.map_id, args.map_id]; rfl
  | .selection a branches => congrArg (Tree.selection a) branches.map_id
  | .unary a op t => congrArg (Tree.unary a op) t.map_id
  | .boolean .. | .identifier .. | .integer .. | .string .. | .malformed .. | .breakLoop ..
  | .continueLoop .. => rfl

theorem Tree.mapAll_id : ∀ ts : List (Tree α), Tree.mapAll id ts = ts
  | [] => rfl
  | t :: ts => by rw [Tree.mapAll, t.map_id, Tree.mapAll_id]

theorem Branches.map_id : ∀ b : Branches α, b.map id = b
  | .done => rfl
  | .otherwise body => congrArg Branches.otherwise (Tree.mapAll_id body)
  | .arm condition body rest => by
    rw [Branches.map, condition.map_id, Tree.mapAll_id, rest.map_id]

end

variable (f : α → β)

@[simp] theorem Tree.mapAll_eq_map (ts : List (Tree α)) : mapAll f ts = ts.map (map f) := by
  induction ts with
  | nil => rfl
  | cons t ts ih => rw [mapAll, ih, List.map_cons]

theorem Branches.children_map (b : Branches α) :
    (b.map f).children = b.children.map (Tree.map f) := by
  fun_induction Branches.children b with
  | case1 => rfl
  | case2 body => exact Tree.mapAll_eq_map f body
  | case3 condition body rest ih =>
    rw [Branches.map, Branches.children, ih, Tree.mapAll_eq_map, List.map_cons, List.map_append]

/-- Putting branches together and giving them other notes. -/
theorem Branches.map_ofLists (conditions : List (Tree α)) (bodies : List (List (Tree α))) :
    (ofLists conditions bodies).map f =
      ofLists (conditions.map (Tree.map f)) (bodies.map (List.map (Tree.map f))) := by
  fun_induction ofLists conditions bodies with
  | case1 condition conditions body bodies ih =>
    rw [map, ih, Tree.mapAll_eq_map]
    rfl
  | case2 body bodies =>
    rw [map, Tree.mapAll_eq_map, List.map_flatten]
    rfl
  | case3 conditions => cases conditions <;> rfl

namespace Tree

theorem children_map (t : Tree α) : (t.map f).children = t.children.map (map f) := by
  cases t with
  | file | arguments | array | dictionary => exact mapAll_eq_map f _
  | iteration _ names iterable body =>
    rw [map, children, children, mapAll_eq_map, mapAll_eq_map, List.map_append, List.map_cons]
  | method _ object name args => cases args <;> rfl
  | selection _ branches => exact branches.children_map f
  | _ => rfl

@[simp] theorem note_map (t : Tree α) : (t.map f).note = f t.note := by
  cases t with
  | method _ object name args => cases args <;> rfl
  | _ => rfl

@[simp] theorem kind_map (t : Tree α) : (t.map f).kind = t.kind := by
  cases t with
  | method _ object name args => cases args <;> rfl
  | _ => rfl

/-- Notes do not change how tall a tree is. -/
@[simp] theorem height_map (t : Tree α) : (t.map f).height = t.height := by
  induction t using inductionOnParts with
  | node t ih =>
    rw [height_eq, height_eq t, children_map, List.map_map]
    congr 2
    exact List.map_congr_left ih

end Tree

end Map

/-- Whether nodes of the kind stand for what was read, and hold no statements. -/
def Kind.isSimple : Kind → Bool
  | file | selection | iteration | malformed => false
  | _ => true

/-! ### Tandems -/

/-- Two readings side by side. What is at a place of the first text is in the second one where the
place is moved to, and more may be ahead there. -/
structure Tandem where
  move : Position → Position
  /-- How many lexemes more are ahead in the second text. -/
  extra : Nat
  /-- The cursors that go together. -/
  Meet : Cursor → Cursor → Prop
  /-- The order of places stays. -/
  move_le : ∀ p q, (move p).offset ≤ (move q).offset ↔ p.offset ≤ q.offset
  length : ∀ {c c'}, Meet c c' → c'.rest.length = c.rest.length + extra
  head : ∀ {c c'}, Meet c c' → c'.rest.head? = c.rest.head?.map (Lexeme.move move)
  eof : ∀ {c c'}, Meet c c' → c.rest = [] → c'.eof = move c.eof
  /-- Both cursors look at the next token. -/
  settle : ∀ {c c'}, Meet c c' → Meet c.settle c'.settle
  /-- Both cursors read the next token. A line end is read only by looking past it. -/
  read : ∀ {c c'} {l : Lexeme} {ls ls' : List Lexeme}, Meet c c' → c.settle.rest = l :: ls →
    c'.settle.rest = l.move move :: ls' → l.token ≠ .newline →
    Meet (Parse.after c l ls) (Parse.after c' (l.move move) ls')
  /-- Both cursors note an error. -/
  noting : ∀ {c c'} (e : SyntaxError), Meet c c' →
    Meet { c with errors := c.errors ++ [e] } { c' with errors := c'.errors ++ [e.move move] }

namespace Tandem

open Parse Cursor

variable (T : Tandem) {α β : Type} {c c' : Cursor} {l : Lexeme} {ls : List Lexeme}

/-- A tree in the second text. -/
abbrev tree (t : Tree Span) : Tree Span := t.map (Span.move T.move)

/-- A result in the second text. -/
def result (g : α → α) : Except SyntaxError α → Except SyntaxError α
  | .ok a => .ok (g a)
  | .error e => .error (e.move T.move)

/-- From `c` and a cursor that meets it, two steps give the same result in both texts and lead to
cursors that meet. What the first one gives, and where it leads, is described by `Q`. -/
def Runs (g : α → α) (m m' : Reading α) (c : Cursor) (Q : α → Cursor → Prop) : Prop :=
  ∀ c', T.Meet c c' → (m'.run c').1 = g (m.run c).1 ∧ T.Meet (m.run c).2 (m'.run c').2 ∧
    (m.run c).2.rest.length ≤ c.rest.length ∧ Q (m.run c).1 (m.run c).2

/-- The same for steps that can fail. Only of a success more is described. -/
def Parses (g : α → α) (m m' : Parse α) (c : Cursor) (Q : α → Cursor → Prop) : Prop :=
  T.Runs (T.result g) m.run m'.run c fun r mid => ∀ a, r = .ok a → Q a mid

variable {T} {g : α → α} {h : β → β} {Q : α → Cursor → Prop} {R : β → Cursor → Prop}

theorem extra_eq_zero (hmeet : T.Meet c c') (hrest : c.rest = []) : T.extra = 0 := by
  have hhead := T.head hmeet
  have hlength := T.length hmeet
  rw [hrest] at hhead hlength
  rw [List.head?_eq_none_iff.mp hhead] at hlength
  exact (Nat.add_eq_zero_iff.mp hlength.symm).2

/-- Tokens are the same in both texts. -/
theorem map_token_move (next : Option Lexeme) :
    (next.map (Lexeme.move T.move)).map Lexeme.token = next.map Lexeme.token := by
  rw [Option.map_map]
  rfl

theorem next_eq (hmeet : T.Meet c c') : c'.next = c.next.move T.move := by
  unfold Cursor.next
  rw [T.head hmeet]
  cases hhead : c.rest.head? with
  | none =>
    rw [Option.map_none, Option.map_none, Option.getD_none, Option.getD_none,
      T.eof hmeet (List.head?_eq_none_iff.mp hhead)]
    rfl
  | some l => rfl

theorem move_join (a b : Span) :
    (a.join b).move T.move = (a.move T.move).join (b.move T.move) := by
  simp only [Span.join, Span.move, T.move_le, apply_ite T.move]

/-! ### Steps in a row -/

namespace Runs

theorem pure {a a' : α} (ha : a' = g a) (hQ : Q a c) : T.Runs g (pure a) (pure a') c Q :=
  fun _ hmeet => ⟨ha, hmeet, Nat.le_refl _, hQ⟩

theorem bind {m m' : Reading α} {f f' : α → Reading β} (hm : T.Runs g m m' c Q)
    (hf : ∀ a mid, mid.rest.length ≤ c.rest.length → Q a mid →
      T.Runs h (f a) (f' (g a)) mid R) : T.Runs h (m >>= f) (m' >>= f') c R := by
  intro c' hmeet
  obtain ⟨hresult, hmid, hlength, hQ⟩ := hm c' hmeet
  obtain ⟨hresult', hend, hlength', hR⟩ := hf _ _ hlength hQ _ hmid
  rw [← hresult] at hresult' hend
  exact ⟨hresult', hend, hlength'.trans hlength, hR⟩

theorem discard {m m' : Reading α} {f f' : Reading β} (hm : T.Runs g m m' c Q)
    (hf : ∀ a mid, mid.rest.length ≤ c.rest.length → Q a mid → T.Runs h f f' mid R) :
    T.Runs h (do Functor.discard m; f) (do Functor.discard m'; f') c R := by
  show T.Runs _ (m >>= fun _ => f) (m' >>= fun _ => f') c _
  exact hm.bind hf

theorem discarded {m m' : Reading α} (hm : T.Runs g m m' c Q) :
    T.Runs id (Functor.discard m) (Functor.discard m') c fun _ _ => True := by
  show T.Runs id (m >>= fun _ => Pure.pure ()) (m' >>= fun _ => Pure.pure ()) c _
  exact hm.bind fun _ _ _ _ => .pure rfl trivial

theorem mono {Q' : α → Cursor → Prop} {m m' : Reading α} (hm : T.Runs g m m' c Q)
    (hQ : ∀ a mid, mid.rest.length ≤ c.rest.length → Q a mid → Q' a mid) :
    T.Runs g m m' c Q' := by
  intro c' hmeet
  obtain ⟨hresult, hmid, hlength, hm⟩ := hm c' hmeet
  exact ⟨hresult, hmid, hlength, hQ _ _ hlength hm⟩

theorem ite {p p' : Prop} [Decidable p] [Decidable p'] {m n m' n' : Reading α} (hp : p ↔ p')
    (hm : p → T.Runs g m m' c Q) (hn : ¬ p → T.Runs g n n' c Q) :
    T.Runs g (if p then m else n) (if p' then m' else n') c Q := by
  by_cases hc : p
  · rw [if_pos hc, if_pos (hp.mp hc)]
    exact hm hc
  · rw [if_neg hc, if_neg (mt hp.mpr hc)]
    exact hn hc

end Runs

namespace Parses

theorem pure {a a' : α} (ha : a' = g a) (hQ : Q a c) : T.Parses g (pure a) (pure a') c Q :=
  Runs.pure (congrArg Except.ok ha) fun _ h => Except.ok.inj h ▸ hQ

theorem throw {e e' : SyntaxError} (he : e' = e.move T.move) :
    T.Parses g (throw e) (throw e') c Q :=
  Runs.pure (congrArg Except.error he) nofun

/-- What would come after a failure does not matter. -/
theorem fail {e e' : SyntaxError} (he : e' = e.move T.move) (f f' : α → Parse β) :
    T.Parses h (MonadExcept.throw e >>= f) (MonadExcept.throw e' >>= f') c R :=
  throw he

theorem bind {m m' : Parse α} {f f' : α → Parse β} (hm : T.Parses g m m' c Q)
    (hf : ∀ a mid, mid.rest.length ≤ c.rest.length → Q a mid →
      T.Parses h (f a) (f' (g a)) mid R) : T.Parses h (m >>= f) (m' >>= f') c R := by
  unfold Parses
  rw [ExceptT.run_bind, ExceptT.run_bind]
  refine Runs.bind hm fun r mid hlength hQ => ?_
  cases r with
  | ok a => exact hf a mid hlength (hQ a rfl)
  | error e => exact Runs.pure rfl nofun

theorem mono {Q' : α → Cursor → Prop} {m m' : Parse α} (hm : T.Parses g m m' c Q)
    (hQ : ∀ a mid, mid.rest.length ≤ c.rest.length → Q a mid → Q' a mid) :
    T.Parses g m m' c Q' :=
  Runs.mono hm fun _ mid hlength h a ha => hQ a mid hlength (h a ha)

/-- A step that cannot fail, before another one. -/
theorem lift {m m' : Reading α} {f f' : α → Parse β} (hm : T.Runs g m m' c Q)
    (hf : ∀ a mid, mid.rest.length ≤ c.rest.length → Q a mid →
      T.Parses h (f a) (f' (g a)) mid R) : T.Parses h (liftM m >>= f) (liftM m' >>= f') c R :=
  Runs.bind hm hf

/-- A step that cannot fail. -/
theorem lifted {m m' : Reading α} (hm : T.Runs g m m' c Q) :
    T.Parses g (liftM m) (liftM m') c Q := by
  let succeed : α → Reading (Except SyntaxError α) := fun a => Pure.pure (.ok a)
  show T.Runs _ (m >>= succeed) (m' >>= succeed) c _
  exact Runs.bind hm fun a mid _ hQ => .pure rfl fun _ h => Except.ok.inj h ▸ hQ

theorem discard_lift {m m' : Reading α} {f f' : Unit → Parse β} (hm : T.Runs g m m' c Q)
    (hf : ∀ a mid, mid.rest.length ≤ c.rest.length → Q a mid →
      T.Parses h (f ()) (f' ()) mid R) :
    T.Parses h (discard (liftM m : Parse α) >>= f) (discard (liftM m' : Parse α) >>= f') c R := by
  show T.Runs _ (m >>= fun _ => (f ()).run) (m' >>= fun _ => (f' ()).run) c _
  exact hm.bind hf

theorem ite {p p' : Prop} [Decidable p] [Decidable p'] {m n m' n' : Parse α} (hp : p ↔ p')
    (hm : p → T.Parses g m m' c Q) (hn : ¬ p → T.Parses g n n' c Q) :
    T.Parses g (if p then m else n) (if p' then m' else n') c Q :=
  Runs.ite hp hm hn

end Parses

/-! ### The next token -/

theorem length_settle_le (c : Cursor) : c.settle.rest.length ≤ c.rest.length :=
  (onward_settle c).length_le

theorem length_after_lt (hrest : c.settle.rest = l :: ls) :
    (after c l ls).rest.length < c.rest.length := by
  have hle := length_settle_le c
  rw [hrest] at hle
  exact hle

/-- Looking at the next token. -/
theorem runs_peek {f f' : Option Lexeme → Reading β}
    (hf : T.Runs h (f c.settle.rest.head?)
      (f' (c.settle.rest.head?.map (Lexeme.move T.move))) c.settle R) :
    T.Runs h (peek >>= f) (peek >>= f') c R := by
  intro c' hmeet
  obtain ⟨hresult, hend, hlength, hR⟩ := hf _ (T.settle hmeet)
  rw [← T.head (T.settle hmeet)] at hresult hend
  exact ⟨hresult, hend, hlength.trans (length_settle_le c), hR⟩

theorem parses_peek {f f' : Option Lexeme → Parse β}
    (hf : T.Parses h (f c.settle.rest.head?)
      (f' (c.settle.rest.head?.map (Lexeme.move T.move))) c.settle R) :
    T.Parses h (liftM peek >>= f) (liftM peek >>= f') c R := by
  show T.Runs _ (peek >>= fun next => (f next).run) (peek >>= fun next => (f' next).run) c _
  exact runs_peek hf

/-- The next token in the second text. -/
theorem rest_eq_cons (hmeet : T.Meet c c') (hrest : c.settle.rest = l :: ls) :
    ∃ ls', c'.settle.rest = l.move T.move :: ls' := by
  have hhead := T.head (T.settle hmeet)
  rw [hrest] at hhead
  obtain ⟨ls', hls'⟩ := List.head?_eq_some_iff.mp hhead
  exact ⟨ls', hls'⟩

theorem runs_advance (hrest : c.settle.rest = l :: ls) (hl : l.token ≠ .newline) :
    T.Runs (Option.map (Lexeme.move T.move)) advance advance c fun _ mid => mid = after c l ls := by
  intro c' hmeet
  obtain ⟨ls', hrest'⟩ := rest_eq_cons hmeet hrest
  rw [advance_run_cons hrest, advance_run_cons hrest']
  exact ⟨rfl, T.read hmeet hrest hrest' hl, (length_after_lt hrest).le, rfl⟩

/-- Reading a token that was looked at. -/
theorem parses_read {f f' : Unit → Parse β} (hhead : c.settle.rest.head? = some l)
    (hl : l.token ≠ .newline)
    (hf : ∀ ls, c.settle.rest = l :: ls → T.Parses h (f ()) (f' ()) (after c l ls) R) :
    T.Parses h (discard (liftM advance : Parse (Option Lexeme)) >>= f)
      (discard (liftM advance : Parse (Option Lexeme)) >>= f') c.settle R := by
  obtain ⟨ls, hrest⟩ := List.head?_eq_some_iff.mp hhead
  have hread := runs_advance (T := T) (settle_rest_settle hrest) hl
  refine Parses.discard_lift hread fun _ mid _ hmid => ?_
  rw [hmid, after_settle]
  exact hf ls hrest

theorem runs_eat {t : Token} (ht : t ≠ .newline) :
    T.Runs (Option.map (Span.move T.move)) (eat t) (eat t) c fun found mid =>
      (found = none ∧ mid = c.settle) ∨
      ∃ l ls, c.settle.rest = l :: ls ∧ found = some l.span ∧ mid = after c l ls := by
  intro c' hmeet
  by_cases hfound : ∃ l ls, c.settle.rest = l :: ls ∧ l.token = t
  · obtain ⟨l, ls, hrest, hl⟩ := hfound
    obtain ⟨ls', hrest'⟩ := rest_eq_cons hmeet hrest
    rw [eat_run_some hrest hl, eat_run_some hrest' hl]
    refine ⟨rfl, T.read hmeet hrest hrest' (hl ▸ ht), (length_after_lt hrest).le, ?_⟩
    exact .inr ⟨l, ls, hrest, rfl, rfl⟩
  · have hother : ∀ l ∈ c.settle.rest.head?, l.token ≠ t := by
      intro l hl htoken
      obtain ⟨ls, hrest⟩ := List.head?_eq_some_iff.mp hl
      exact hfound ⟨l, ls, hrest, htoken⟩
    -- The next token of the second text is the same one, so it is not read there either.
    have hother' : ∀ l ∈ c'.settle.rest.head?, l.token ≠ t := by
      intro l' hl'
      rw [T.head (T.settle hmeet)] at hl'
      obtain ⟨l, hl, rfl⟩ := Option.map_eq_some_iff.mp hl'
      exact hother l hl
    rw [eat_run_none hother, eat_run_none hother']
    exact ⟨rfl, T.settle hmeet, length_settle_le c, .inl ⟨rfl, rfl⟩⟩

/-- Reading the next token if it is the given one. -/
theorem parses_eat {t : Token} (ht : t ≠ .newline) {f f' : Option Span → Parse β}
    (hnone : T.Parses h (f none) (f' none) c.settle R)
    (hsome : ∀ l ls, c.settle.rest = l :: ls →
      T.Parses h (f (some l.span)) (f' (some (l.span.move T.move))) (after c l ls) R) :
    T.Parses h (liftM (eat t) >>= f) (liftM (eat t) >>= f') c R := by
  refine .lift (runs_eat ht) fun found mid _ hfound => ?_
  obtain ⟨rfl, rfl⟩ | ⟨l, ls, hrest, rfl, rfl⟩ := hfound
  · exact hnone
  · exact hsome l ls hrest

/-- Noting an error. -/
theorem runs_report (fault : Fault) {span span' : Span} (hspan : span' = span.move T.move)
    (c : Cursor) :
    T.Runs id (report fault span) (report fault span') c fun _ mid => mid.rest = c.rest := by
  subst hspan
  exact fun _ hmeet => ⟨rfl, T.noting ⟨fault, span⟩ hmeet, Nat.le_refl _, rfl⟩

theorem runs_unexpected (wanted : Wanted) (c : Cursor) :
    T.Runs (SyntaxError.move T.move) (unexpected wanted) (unexpected wanted) c fun _ _ => True := by
  intro c' hmeet
  have hsettle := T.settle hmeet
  rw [unexpected_run, unexpected_run, next_eq hsettle, T.head hsettle, map_token_move]
  exact ⟨rfl, hsettle, length_settle_le c, trivial⟩

theorem parses_failWanting (wanted : Wanted) :
    T.Parses g (failWanting wanted) (failWanting wanted) c Q :=
  .lift (runs_unexpected wanted c) fun _ _ _ _ => .throw rfl

theorem runs_here (c : Cursor) :
    T.Runs (Span.move T.move) here here c fun _ mid => mid = c.settle := by
  intro c' hmeet
  have hsettle := T.settle hmeet
  exact ⟨next_eq hsettle, hsettle, length_settle_le c, rfl⟩

theorem parses_tooDeep : T.Parses g tooDeep tooDeep c Q :=
  .lift (runs_here c) fun _ _ _ _ => .throw rfl

/-- Reading a token that has to be there. -/
theorem parses_expectAs {t : Token} (ht : t ≠ .newline) (wanted : Wanted) :
    T.Parses (Span.move T.move) (expectAs t wanted) (expectAs t wanted) c fun _ mid =>
      mid.rest.length < c.rest.length :=
  parses_eat ht (parses_failWanting wanted) fun _ _ hrest =>
    .pure rfl (length_after_lt hrest)

theorem parses_discard_expect {t : Token} (ht : t ≠ .newline) :
    T.Parses id (discard (expect t)) (discard (expect t)) c fun _ mid =>
      mid.rest.length < c.rest.length :=
  (parses_expectAs ht _).bind fun _ _ _ hlt => .pure rfl hlt

/-- A loop gets its number of rounds from what is ahead. -/
theorem parses_rounds (f f' : Nat → Parse β)
    (hf : T.Parses h (f c.rest.length) (f' (c.rest.length + T.extra)) c R) :
    T.Parses h (get >>= fun mid => f mid.rest.length) (get >>= fun mid => f' mid.rest.length)
      c R := by
  intro c' hmeet
  have hrun := hf c' hmeet
  rw [← T.length hmeet] at hrun
  exact hrun

/-! ### Expressions -/

variable {inner : Level} {rounds : Nat}

/-- A rule that succeeds has read a token, and its node is a simple one. -/
structure Success (c : Cursor) (t : Tree Span) (mid : Cursor) : Prop where
  kind : t.kind.isSimple = true
  shorter : mid.rest.length < c.rest.length

/-- The rule gives the same tree in both texts. -/
def Carries (T : Tandem) (m : Parse (Tree Span)) : Prop :=
  ∀ c, T.Parses T.tree m m c (Success c)

/-- What is read one level further in is the same in both texts. -/
structure CarriesLevel (T : Tandem) (inner : Level) : Prop where
  conditional : T.Carries inner.conditional
  unary : T.Carries inner.unary

theorem CarriesLevel.expression (h : T.CarriesLevel inner) : T.Carries inner.expression := by
  intro c
  refine (h.conditional c).bind fun e mid _ he => .ite (by rw [Tree.height_map]) ?_ ?_
  · exact fun _ => .fail (by rw [Tree.note_map]; rfl) _ _
  · exact fun _ => .pure rfl he

/-- Items in the second text, with the closing token. -/
def items (T : Tandem) (r : List (Tree Span) × Span) : List (Tree Span) × Span :=
  (r.1.map T.tree, r.2.move T.move)

theorem parses_commaList {item : Parse (Tree Span)} (hitem : T.Carries item) {close : Token}
    (hclose : close ≠ .newline) (hrounds : c.rest.length < rounds) :
    T.Parses T.items (commaList item close rounds) (commaList item close (rounds + T.extra)) c
      fun _ _ => True := by
  induction rounds generalizing c with
  | zero => exact absurd hrounds (Nat.not_lt_zero _)
  | succ rounds ih =>
    rw [Nat.succ_add]
    refine parses_eat hclose ?_ fun l ls hrest => .pure rfl trivial
    refine (hitem _).bind fun first mid _ hfirst => ?_
    refine parses_eat (by decide) ?_ fun l ls hrest => ?_
    · exact (parses_expectAs hclose _).bind fun _ _ _ _ => .pure rfl trivial
    · have hlength := (length_after_lt hrest).trans (hfirst.shorter.trans_le (length_settle_le c))
      exact (ih (by omega)).bind fun r _ _ _ => .pure rfl trivial

theorem parses_untilClose {item : Parse (Tree Span)} (hitem : T.Carries item) {close : Token}
    (hclose : close ≠ .newline) :
    T.Parses T.items (untilClose item close) (untilClose item close) c fun _ _ => True := by
  refine parses_rounds (fun n => commaList item close (n + 1))
    (fun n => commaList item close (n + 1)) ?_
  rw [Nat.add_right_comm]
  exact parses_commaList hitem hclose (Nat.lt_succ_self _)

theorem carries_argument (h : T.CarriesLevel inner) : T.Carries (argument inner) := by
  intro c
  refine (h.expression c).bind fun key mid _ hkey => ?_
  refine parses_eat (by decide) ?_ fun l ls hrest => ?_
  · exact .pure rfl ⟨hkey.kind, (length_settle_le mid).trans_lt hkey.shorter⟩
  · have hvalue : T.Parses T.tree
        (do let value ← inner.expression; pure (.keyword (key.note.join value.note) key value))
        (do let value ← inner.expression
            pure (.keyword ((T.tree key).note.join value.note) (T.tree key) value))
        (Parse.after mid l ls) (Success c) := by
      refine (h.expression _).bind fun value last _ hvalue => .pure ?_ ⟨rfl, ?_⟩
      · simp [Tree.map, move_join]
      · exact hvalue.shorter.trans ((length_after_lt hrest).trans hkey.shorter)
    refine .ite (by rw [Tree.kind_map]) (fun _ => ?_) fun _ => hvalue
    exact .fail (by rw [Tree.note_map]; rfl) _ _

theorem carries_arguments (h : T.CarriesLevel inner) : T.Carries (arguments inner) := by
  intro c
  refine (parses_expectAs (by decide) _).bind fun start mid _ hlt => ?_
  refine (parses_untilClose (carries_argument h) (by decide)).bind fun r last hle _ =>
    .pure ?_ ⟨rfl, hle.trans_lt hlt⟩
  simp [Tree.map, move_join]

theorem carries_entry (h : T.CarriesLevel inner) : T.Carries (entry inner) := by
  intro c
  refine (h.expression c).bind fun key mid _ hkey => ?_
  refine (parses_discard_expect (by decide)).bind fun _ mid' _ hcolon => ?_
  refine (h.expression mid').bind fun value last _ hvalue => .pure ?_ ⟨rfl, ?_⟩
  · simp [Tree.map, move_join]
  · exact hvalue.shorter.trans (hcolon.trans hkey.shorter)

/-- What a lexeme starts is the same in both texts. -/
theorem parses_startedBy (h : T.CarriesLevel inner) (l : Lexeme) :
    T.Parses T.tree (startedBy inner l) (startedBy inner (l.move T.move)) c fun t _ =>
      t.kind.isSimple = true := by
  obtain ⟨token, span, raw⟩ := l
  cases token with
  | integer | boolean | string => exact .pure rfl rfl
  | name name =>
    refine parses_peek (.ite (by rw [map_token_move]) (fun _ => ?_) fun _ => .pure rfl rfl)
    refine (carries_arguments h _).bind fun args _ _ _ => .pure ?_ rfl
    simp [Tree.map, move_join, Lexeme.move]
  | lparen =>
    refine (h.expression c).bind fun e _ _ he => ?_
    exact (parses_discard_expect (by decide)).bind fun _ _ _ _ => .pure rfl he.kind
  | lbracket =>
    refine (parses_untilClose h.expression (by decide)).bind fun r _ _ _ => .pure ?_ rfl
    simp [Tree.map, move_join, Lexeme.move]
  | lbrace =>
    refine (parses_untilClose (carries_entry h) (by decide)).bind fun r _ _ _ => .pure ?_ rfl
    simp [Tree.map, move_join, Lexeme.move]
  | _ => exact .throw rfl

theorem carries_primary (h : T.CarriesLevel inner) : T.Carries (primary inner) := by
  intro c
  refine parses_peek ?_
  cases hhead : c.settle.rest.head? with
  | none => exact parses_failWanting _
  | some l =>
    -- A line end is left for the next line.
    refine .ite Iff.rfl (fun _ => ?_) fun hl => ?_
    · exact (parses_failWanting (g := id) (Q := fun _ _ => False) _).bind fun _ _ _ h => h.elim
    · refine parses_read hhead hl fun ls hrest => ?_
      exact (parses_startedBy h l).mono fun _ _ hle hkind =>
        ⟨hkind, hle.trans_lt (length_after_lt hrest)⟩

theorem parses_method (h : T.CarriesLevel inner) (object : Tree Span) (dot : Span) :
    T.Parses T.tree (method inner object dot)
      (method inner (T.tree object) (dot.move T.move)) c fun t _ => t.kind.isSimple = true := by
  -- Without a name both texts have an empty node in the same place.
  have hmissing : ∀ mid, T.Parses T.tree
      (do
        report .noMethodName (.empty dot.stop)
        return .method (object.note.join dot) object
          (.malformed (.empty dot.stop) .noMethodName) none)
      (do
        report .noMethodName (.empty (dot.move T.move).stop)
        return .method ((T.tree object).note.join (dot.move T.move)) (T.tree object)
          (.malformed (.empty (dot.move T.move).stop) .noMethodName) none) mid
      fun t _ => t.kind.isSimple = true := by
    intro mid
    refine .lift (runs_report _ rfl _) fun _ _ _ _ => .pure ?_ rfl
    simp [Tree.map, move_join]
    rfl
  refine parses_peek ?_
  cases hhead : c.settle.rest.head? with
  | none => exact hmissing _
  | some l =>
    obtain ⟨token, span, raw⟩ := l
    cases token with
    | name name =>
      refine parses_read hhead (by simp) fun ls hrest => parses_peek ?_
      refine .ite (by rw [map_token_move]) (fun _ => ?_) fun _ => ?_
      · refine (carries_arguments h _).bind fun args _ _ _ => .pure ?_ rfl
        simp [Tree.map, move_join]
      · refine .lift (runs_unexpected _ _) fun e _ _ _ => ?_
        refine .lift (runs_report _ rfl _) fun _ _ _ _ => .pure ?_ rfl
        simp [Tree.map, move_join]
    | _ => exact hmissing _

theorem parses_suffixes (h : T.CarriesLevel inner) {object : Tree Span}
    (hobject : object.kind.isSimple = true) (hrounds : c.rest.length ≤ rounds) :
    T.Parses T.tree (suffixes inner rounds object)
      (suffixes inner (rounds + T.extra) (T.tree object)) c fun t _ => t.kind.isSimple = true := by
  induction rounds generalizing c object with
  | zero =>
    -- Nothing is ahead in the first text, so nothing is ahead in the second one.
    intro c' hmeet
    rw [extra_eq_zero hmeet (List.eq_nil_of_length_eq_zero (Nat.le_zero.mp hrounds))]
    exact ⟨rfl, hmeet, Nat.le_refl _, fun _ ht => Except.ok.inj ht ▸ hobject⟩
  | succ rounds ih =>
    rw [Nat.succ_add]
    refine parses_peek ?_
    cases hhead : c.settle.rest.head? with
    | none => exact .pure rfl hobject
    | some l =>
      obtain ⟨token, span, raw⟩ := l
      cases token with
      | dot =>
        refine parses_read hhead (by simp) fun ls hrest => ?_
        have hlength := length_after_lt hrest
        exact (parses_method h object span).bind fun call mid hle hcall => ih hcall (by omega)
      | lbracket =>
        refine parses_read hhead (by simp) fun ls hrest => ?_
        have hlength := length_after_lt hrest
        refine (h.expression _).bind fun index mid hle _ => ?_
        refine (parses_expectAs (by decide) _).bind fun stop mid' hle' _ => ?_
        have hnode : T.tree (.subscript (object.note.join stop) object index) =
            .subscript ((T.tree object).note.join (stop.move T.move)) (T.tree object)
              (T.tree index) := by
          simp [Tree.map, move_join]
        rw [← hnode]
        exact ih rfl (by omega)
      | _ => exact .pure rfl hobject

theorem carries_operand (h : T.CarriesLevel inner) : T.Carries (operand inner) := by
  intro c
  refine (carries_primary h c).bind fun e mid _ he => ?_
  refine parses_rounds (suffixes inner · e) (suffixes inner · (T.tree e)) ?_
  exact (parses_suffixes h he.kind (Nat.le_refl _)).mono fun _ _ hle hkind =>
    ⟨hkind, hle.trans_lt he.shorter⟩

theorem carries_unary (h : T.CarriesLevel inner) : T.Carries (unary inner) := by
  intro c
  have hoperand : T.Parses T.tree (operand inner) (operand inner) c.settle (Success c) :=
    (carries_operand h _).mono fun _ _ _ he => ⟨he.kind, he.shorter.trans_le (length_settle_le c)⟩
  refine parses_peek ?_
  cases hhead : c.settle.rest.head? with
  | none => exact hoperand
  | some l =>
    have hop : unaryOp? (l.move T.move).token = unaryOp? l.token := rfl
    dsimp only [Option.map_some]
    rw [hop]
    split
    · next op hop =>
      have hl : l.token ≠ .newline := by
        intro hl
        rw [hl] at hop
        cases hop
      refine parses_read hhead hl fun ls hrest => (h.unary _).bind fun e mid hle _ =>
        .pure ?_ ⟨rfl, hle.trans_lt (length_after_lt hrest)⟩
      simp [Tree.map, move_join, Lexeme.move]
    · exact hoperand

/-! ### Operators -/

/-- The step reads the same operator in both texts. -/
def Operates (T : Tandem) (op : Reading (Option BinaryOp)) : Prop :=
  ∀ c, T.Runs id op op c fun _ _ => True

/-- No operator is written by a line end. -/
theorem operates_operator {op? : Token → Option BinaryOp} (hline : op? .newline = none) :
    T.Operates (operator op?) := by
  intro c
  refine runs_peek ?_
  cases hhead : c.settle.rest.head? with
  | none => exact .pure rfl trivial
  | some l =>
    obtain ⟨ls, hrest⟩ := List.head?_eq_some_iff.mp hhead
    have hop : op? (l.move T.move).token = op? l.token := rfl
    dsimp only [Option.map_some, Option.bind_some]
    rw [hop]
    split
    · next op hop =>
      have hl : l.token ≠ .newline := by
        intro hl
        rw [hl, hline] at hop
        cases hop
      exact (runs_advance (settle_rest_settle hrest) hl).discard fun _ _ _ _ =>
        .pure rfl trivial
    · exact .pure rfl trivial

/-- A token that is no bracket. -/
theorem depthAfter_eq {t : Token} (ht : (t.opens || t.closes) = false) (depth : Nat) :
    depthAfter depth t = depth := by
  obtain ⟨hopens, hcloses⟩ := Bool.or_eq_false_iff.mp ht
  simp [depthAfter, hopens, hcloses]

/-- Looking at the token after the next one, which is no bracket. -/
theorem runs_peekSecond (hrest : c.settle.rest = l :: ls)
    (hl : (l.token.opens || l.token.closes) = false) (hline : l.token ≠ .newline) :
    T.Runs id peekSecond peekSecond c fun second mid =>
      second = (after c l ls).settle.rest.head?.map Lexeme.token ∧ mid = c.settle := by
  intro c' hmeet
  obtain ⟨ls', hrest'⟩ := rest_eq_cons hmeet hrest
  have hafter := T.settle (T.read hmeet hrest hrest' hline)
  rw [peekSecond_run hrest (depthAfter_eq hl _), peekSecond_run hrest' (depthAfter_eq hl _),
    T.head hafter, map_token_move]
  exact ⟨rfl, T.settle hmeet, length_settle_le c, rfl, rfl⟩

theorem operates_comparisonOperator : T.Operates comparisonOperator := by
  intro c
  have hone : T.Runs id (operator BinaryOp.comparison?) (operator BinaryOp.comparison?) c.settle
      fun _ _ => True := operates_operator rfl _
  refine runs_peek ?_
  rw [map_token_move]
  cases hhead : c.settle.rest.head? with
  | none => exact hone
  | some l =>
    obtain ⟨token, span, raw⟩ := l
    cases token with
    | kwNot =>
      obtain ⟨ls, hrest⟩ := List.head?_eq_some_iff.mp hhead
      have hrest' := settle_rest_settle hrest
      refine (runs_peekSecond hrest' rfl (by simp)).bind fun second mid _ ⟨hsecond, hmid⟩ => ?_
      rw [settle_settle] at hmid
      subst hmid
      refine .ite Iff.rfl (fun hin => ?_) fun _ => .pure rfl trivial
      obtain ⟨word, hword, htoken⟩ := Option.map_eq_some_iff.mp (hsecond.symm.trans hin)
      obtain ⟨more, hmore⟩ := List.head?_eq_some_iff.mp hword
      refine (runs_advance hrest' (by simp)).discard fun _ mid _ hmid => ?_
      rw [hmid]
      exact (runs_advance hmore (by simp [htoken])).discard fun _ _ _ _ => .pure rfl trivial
    | _ => exact hone

theorem parses_chain {op : Reading (Option BinaryOp)} (hop : T.Operates op)
    {next : Parse (Tree Span)} (hnext : T.Carries next) {left : Tree Span}
    (hleft : left.kind.isSimple = true) (hrounds : c.rest.length ≤ rounds) :
    T.Parses T.tree (chain op next rounds left) (chain op next (rounds + T.extra) (T.tree left)) c
      fun t _ => t.kind.isSimple = true := by
  induction rounds generalizing c left with
  | zero =>
    intro c' hmeet
    -- At the end of the first text nothing more is ahead in the second one, and there is no further
    -- round.
    rw [extra_eq_zero hmeet (List.eq_nil_of_length_eq_zero (Nat.le_zero.mp hrounds))]
    exact ⟨rfl, hmeet, Nat.le_refl _, fun _ ht => Except.ok.inj ht ▸ hleft⟩
  | succ rounds ih =>
    rw [Nat.succ_add]
    refine .lift (hop c) fun found mid hle _ => ?_
    cases found with
    | none => exact .pure rfl hleft
    | some op' =>
      refine (hnext mid).bind fun right mid' _ hright => ?_
      have hlength := hright.shorter.trans_le hle
      have hnode : T.tree (.binary (left.note.join right.note) left op' right) =
          .binary ((T.tree left).note.join (T.tree right).note) (T.tree left) op'
            (T.tree right) := by
        simp [Tree.map, move_join]
      rw [← hnode]
      exact ih rfl (by omega)

theorem Carries.leftGrouped {next : Parse (Tree Span)} (hnext : T.Carries next)
    {op : Reading (Option BinaryOp)} (hop : T.Operates op) : T.Carries (leftGrouped op next) := by
  intro c
  refine (hnext c).bind fun first mid _ hfirst => ?_
  refine parses_rounds (chain op next · first) (chain op next · (T.tree first)) ?_
  exact (parses_chain hop hnext hfirst.kind (Nat.le_refl _)).mono fun _ _ hle hkind =>
    ⟨hkind, hle.trans_lt hfirst.shorter⟩

theorem carries_disjunction (h : T.CarriesLevel inner) : T.Carries (disjunction inner) := by
  have hmultiplicative : T.Carries (multiplicative inner) :=
    (carries_unary h).leftGrouped (operates_operator rfl)
  have hadditive : T.Carries (additive inner) := hmultiplicative.leftGrouped (operates_operator rfl)
  have hcomparison : T.Carries (comparison inner) :=
    hadditive.leftGrouped operates_comparisonOperator
  have hconjunction : T.Carries (conjunction inner) :=
    hcomparison.leftGrouped (operates_operator rfl)
  exact hconjunction.leftGrouped (operates_operator rfl)

theorem carries_conditional (h : T.CarriesLevel inner) : T.Carries (conditional inner) := by
  intro c
  refine (carries_disjunction h c).bind fun condition mid _ hcondition => ?_
  refine parses_eat (by decide) ?_ fun l ls hrest => ?_
  · exact .pure rfl ⟨hcondition.kind, (length_settle_le mid).trans_lt hcondition.shorter⟩
  · have hread := (length_after_lt hrest).trans hcondition.shorter
    refine (h.conditional _).bind fun ifTrue mid₁ htrue _ => ?_
    refine (parses_discard_expect (by decide)).bind fun _ mid₂ hcolon _ => ?_
    refine (h.conditional _).bind fun ifFalse mid₃ hfalse _ => .pure ?_ ⟨rfl, by omega⟩
    simp [Tree.map, move_join]

/-- Expressions are the same in both texts, with any number of levels left. -/
theorem carries_level (room : Nat) : T.CarriesLevel (level room) := by
  induction room with
  | zero => exact ⟨fun _ => parses_tooDeep, fun _ => parses_tooDeep⟩
  | succ room ih => exact ⟨carries_conditional ih, carries_unary ih⟩

/-! ### Lines -/

/-- A statement that is one word. -/
theorem parses_word (node : Span → Tree Span)
    (hnode : ∀ span, T.tree (node span) = node (span.move T.move)) (hrest : c.settle.rest = l :: ls)
    (hl : l.token ≠ .newline) :
    T.Parses T.tree (do let span ← here; discard advance; return node span)
      (do let span ← here; discard advance; return node span) c fun _ mid =>
        mid.rest.length < c.rest.length := by
  refine .lift (runs_here c) fun span mid hle hmid => ?_
  subst hmid
  refine .discard_lift (runs_advance (settle_rest_settle hrest) hl) fun _ mid _ hmid => ?_
  refine .pure (hnode span).symm ?_
  rw [hmid, after_settle]
  exact length_after_lt hrest

/-- The operator that an assignment is written with is no line end. -/
theorem ne_newline_of_assignOp {t : Token} {op : AssignOp} (h : AssignOp.ofToken? t = some op) :
    t ≠ .newline := by
  rintro rfl
  cases h

theorem carries_simpleStatement (h : T.CarriesLevel inner) :
    T.Carries (simpleStatement inner) := by
  intro c
  refine (h.expression c).bind fun target mid _ htarget => parses_peek ?_
  have hplain : Success c target mid.settle :=
    ⟨htarget.kind, (length_settle_le mid).trans_lt htarget.shorter⟩
  cases hhead : mid.settle.rest.head? with
  | none => exact .pure rfl hplain
  | some l =>
    have hop : AssignOp.ofToken? (l.move T.move).token = AssignOp.ofToken? l.token := rfl
    dsimp only [Option.map_some, Option.bind_some]
    rw [hop]
    split
    · exact .pure rfl hplain
    · next op hop =>
      -- The value is read in the same way whether the target may be assigned to or not.
      have hvalue : ∀ mid', mid'.rest.length < c.rest.length → T.Parses T.tree
          (do let value ← inner.expression
              pure (.assignment (target.note.join value.note) target op value))
          (do let value ← inner.expression
              pure (.assignment ((T.tree target).note.join value.note) (T.tree target) op value))
          mid' (Success c) := by
        intro mid' hlt
        refine (h.expression _).bind fun value last hle _ => .pure ?_ ⟨rfl, hle.trans_lt hlt⟩
        simp [Tree.map, move_join]
      refine parses_read hhead (ne_newline_of_assignOp hop) fun ls hrest => ?_
      have hread := (length_after_lt hrest).trans htarget.shorter
      refine .ite (by rw [Tree.kind_map]) (fun _ => ?_) fun _ => hvalue _ hread
      exact .lift (runs_report _ (Tree.note_map ..) _) fun _ mid' hle _ =>
        hvalue mid' (hle.trans_lt hread)

end Tandem

end MesonLens
