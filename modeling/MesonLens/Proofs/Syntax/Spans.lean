import MesonLens.Proofs.Syntax.Cursor
import MesonLens.Proofs.Syntax.Navigation
import MesonLens.Proofs.Token.Order

/-!
# `MesonLens.Proofs.Syntax.Spans`: the parts of a node lie inside the node

A node covers a stretch of the text. The stretches of its parts lie inside this one, and no two of
them share any text (`Tree.Nested`), also where the text has errors. A node that stands for
something missing covers nothing, so it does not matter where it is put (`Span.IsVoid`).

* `Tree.Placed`, `Tree.Spread`: one tree, or trees apart from each other, between two places. A
  node is placed when its parts are spread between its start and its end (`Tree.placed_join`), and
  trees before a place are spread with those after it (`Tree.Spread.append`);
* `Cursor.Onward`: reading passes lexemes, and lexemes stand in the order of the text. So what is
  read later lies behind what was read before (`Cursor.Onward.ordered`);
* `Parse.Yields`: what a step gives when it succeeds, together with the cursor after it. There is
  one rule for each step of the grammar: reading a token, looking at one, failing;
* `Parse.Places`: the tree that a rule gives lies in the text that the rule passes. It holds of
  every rule for expressions, with any number of levels left: `Parse.places_level`.
-/

set_option autoImplicit false

namespace MesonLens

/-! ### Stretches -/

namespace Span

/-- The stretch covers some text between two places. -/
structure Lies (s : Span) (p q : Position) : Prop where
  from_le : p ≤ s.start
  lt : s.start < s.stop
  le_to : s.stop ≤ q

/-- Nothing is covered. -/
def IsVoid (s : Span) : Prop := s.start = s.stop

/-- What is covered, if anything, lies between two places. -/
def Inside (s : Span) (p q : Position) : Prop := s.IsVoid ∨ s.Lies p q

/-- No text is covered by both. -/
def Apart (s u : Span) : Prop := s.IsVoid ∨ u.IsVoid ∨ s.stop ≤ u.start ∨ u.stop ≤ s.start

variable {s u : Span} {p p' q q' : Position}

theorem Lies.mono (h : s.Lies p q) (hp : p' ≤ p) (hq : q ≤ q') : s.Lies p' q' :=
  ⟨hp.trans h.from_le, h.lt, h.le_to.trans hq⟩

theorem Lies.upTo (h : s.Lies p q) : s.Lies p s.stop := ⟨h.from_le, h.lt, le_refl _⟩

theorem Lies.le (h : s.Lies p q) : p ≤ q := (h.from_le.trans h.lt.le).trans h.le_to

theorem Inside.mono (h : s.Inside p q) (hp : p' ≤ p) (hq : q ≤ q') : s.Inside p' q' :=
  h.imp (fun h => h) fun h => h.mono hp hq

theorem Apart.symm (h : s.Apart u) : u.Apart s := by
  unfold Apart at h ⊢
  tauto

theorem Inside.apart {m : Position} (hs : s.Inside p m) (hu : u.Inside m q) : s.Apart u := by
  rcases hs with hs | hs
  · exact .inl hs
  rcases hu with hu | hu
  · exact .inr (.inl hu)
  exact .inr (.inr (.inl (hs.le_to.trans hu.from_le)))

end Span

/-- The parts of every node lie inside the node and are apart from each other. A call starts with
its name, which has no parts. -/
inductive Tree.Nested {α : Type} (place : α → Span) : Tree α → Prop
  | intro {t : Tree α} (parts : ∀ c ∈ t.children, Tree.Nested place c)
    (inside : ∀ c ∈ t.children,
      (place c.note).Inside (place t.note).start (place t.note).stop)
    (apart : t.children.Pairwise fun a b => (place a.note).Apart (place b.note))
    (call : t.kind = .call → ∃ name args, t.children = [name, args] ∧ name.children = [] ∧
      (place t.note).start < (place args.note).start ∧ ¬ (place args.note).IsVoid) :
    Tree.Nested place t

/-- A tree whose notes are its stretches. -/
abbrev Tree.Laid (t : Tree Span) : Prop := t.Nested fun s => s

/-- Trees apart from each other between two places. -/
structure Tree.Spread (ts : List (Tree Span)) (p q : Position) : Prop where
  le : p ≤ q
  laid : ∀ t ∈ ts, t.Laid
  inside : ∀ t ∈ ts, t.note.Inside p q
  apart : ts.Pairwise fun a b => a.note.Apart b.note

/-- A tree that covers some text between two places. -/
structure Tree.Placed (t : Tree Span) (p q : Position) : Prop where
  laid : t.Laid
  lies : t.note.Lies p q

namespace Tree

variable {t : Tree Span} {ts us : List (Tree Span)} {p p' m q q' : Position} {s u : Span}

theorem Placed.mono (h : t.Placed p q) (hp : p' ≤ p) (hq : q ≤ q') : t.Placed p' q' :=
  ⟨h.laid, h.lies.mono hp hq⟩

theorem Placed.tight (h : t.Placed p q) : t.Placed t.note.start t.note.stop :=
  ⟨h.laid, le_refl _, h.lies.lt, le_refl _⟩

theorem Placed.upTo (h : t.Placed p q) : t.Placed p t.note.stop := ⟨h.laid, h.lies.upTo⟩

theorem Spread.mono (h : Spread ts p q) (hp : p' ≤ p) (hq : q ≤ q') : Spread ts p' q' :=
  ⟨(hp.trans h.le).trans hq, h.laid, fun t ht => (h.inside t ht).mono hp hq, h.apart⟩

theorem spread_nil (h : p ≤ q) : Spread [] p q := ⟨h, nofun, nofun, .nil⟩

theorem spread_singleton (hle : p ≤ q) (hlaid : t.Laid) (hinside : t.note.Inside p q) :
    Spread [t] p q :=
  ⟨hle, by simpa using hlaid, by simpa using hinside, by simp⟩

theorem Placed.spread (h : t.Placed p q) : Spread [t] p q :=
  spread_singleton h.lies.le h.laid (.inr h.lies)

/-- Trees before a place and trees after it are apart. -/
theorem Spread.append (h : Spread ts p m) (h' : Spread us m q) : Spread (ts ++ us) p q := by
  refine ⟨h.le.trans h'.le, ?_, ?_, List.pairwise_append.mpr ⟨h.apart, h'.apart, ?_⟩⟩
  · intro t ht
    exact (List.mem_append.mp ht).elim (h.laid t) (h'.laid t)
  · intro t ht
    rcases List.mem_append.mp ht with ht | ht
    · exact (h.inside t ht).mono (le_refl _) h'.le
    · exact (h'.inside t ht).mono h.le (le_refl _)
  · intro a ha b hb
    exact (h.inside a ha).apart (h'.inside b hb)

/-- The order of the trees does not matter. -/
theorem Spread.perm (h : Spread ts p q) (hperm : ts.Perm us) : Spread us p q :=
  ⟨h.le, fun t ht => h.laid t (hperm.mem_iff.mpr ht), fun t ht => h.inside t (hperm.mem_iff.mpr ht),
    (hperm.pairwise_iff fun h => h.symm).mp h.apart⟩

/-- A node that reaches from one stretch to another one, which does not start or stop before it.
Its parts lie between the start of the first and the end of the second. -/
theorem placed_join (hnote : t.note = s.join u) (hs : s.Lies p q) (hstart : s.start ≤ u.start)
    (hstop : s.stop ≤ u.stop) (hu : u.stop ≤ q) (hparts : Spread t.children s.start u.stop)
    (hcall : t.kind = .call → ∃ name args, t.children = [name, args] ∧ name.children = [] ∧
      s.start < args.note.start ∧ ¬ args.note.IsVoid) : t.Placed p q := by
  have hnote' : t.note = ⟨s.start, u.stop⟩ := by rw [hnote, Span.join_eq hstart hstop]
  refine ⟨.intro hparts.laid ?_ hparts.apart ?_, ?_⟩
  · rw [hnote']
    exact hparts.inside
  · rw [hnote']
    exact hcall
  · rw [hnote']
    exact ⟨hs.from_le, hs.lt.trans_le hstop, hu⟩

/-- A node that is no call and reaches from one stretch to a later one. -/
theorem placed_between (hnote : t.note = s.join u) (hcall : t.kind ≠ .call) (hs : s.Lies p m)
    (hu : u.Lies m q) (hparts : Spread t.children s.start u.stop) : t.Placed p q := by
  have hle : s.stop ≤ u.start := hs.le_to.trans hu.from_le
  exact placed_join hnote (hs.mono (le_refl _) hu.le) (hs.lt.le.trans hle) (hle.trans hu.lt.le)
    hu.le_to hparts fun h => absurd h hcall

/-- A node with two parts that reaches from the first to the second. -/
theorem placed_pair {l r : Tree Span} (hnote : t.note = l.note.join r.note)
    (hparts : t.children = [l, r]) (hcall : t.kind = .call → l.children = []) (hl : l.Placed p m)
    (hr : r.Placed m q) : t.Placed p q := by
  have hle : l.note.stop ≤ r.note.start := hl.lies.le_to.trans hr.lies.from_le
  refine placed_join hnote (hl.lies.mono (le_refl _) hr.lies.le) (hl.lies.lt.le.trans hle)
    (hle.trans hr.lies.lt.le) hr.lies.le_to ?_ fun h => ?_
  · rw [hparts]
    exact hl.tight.spread.append (hr.tight.spread.mono hle (le_refl _))
  · exact ⟨l, r, hparts, hcall h, hl.lies.lt.trans_le hle, hr.lies.lt.ne⟩

/-- A node that reaches from its first part to a later stretch. -/
theorem placed_from {l : Tree Span} (hnote : t.note = l.note.join u)
    (hparts : t.children = l :: ts) (hcall : t.kind ≠ .call) (hl : l.Placed p m)
    (hmore : Spread ts m u.stop) (hu : u.Lies m q) : t.Placed p q := by
  refine placed_between hnote hcall hl.lies hu ?_
  rw [hparts]
  exact hl.tight.spread.append (hmore.mono hl.lies.le_to (le_refl _))

/-- A node without parts. -/
theorem placed_leaf (hlies : t.note.Lies p q) (hparts : t.children = [])
    (hcall : t.kind ≠ .call) : t.Placed p q := by
  refine ⟨.intro ?_ ?_ ?_ fun h => absurd h hcall, hlies⟩
  · rw [hparts]
    exact nofun
  · rw [hparts]
    exact nofun
  · rw [hparts]
    exact .nil

theorem laid_malformed (s : Span) (fault : Fault) : (Tree.malformed s fault).Laid :=
  .intro nofun nofun .nil nofun

end Tree

/-! ### The cursor -/

namespace Cursor

/-- Where the text that was passed ends. -/
def front (c : Cursor) : Position := c.lastSpan.stop

/-- The stretch of the next token, empty at the end of the text. -/
def next (c : Cursor) : Span := (c.rest.head?.map Lexeme.span).getD (Span.empty c.eof)

/-- What was passed last and what is still to be read stand in order. -/
structure Ordered (c : Cursor) : Prop where
  last : c.lastSpan.start ≤ c.lastSpan.stop
  rest : Lexeme.InOrder c.front c.rest c.eof

/-- From the first cursor to the second some lexemes are passed. -/
def Onward (c c' : Cursor) : Prop :=
  c'.eof = c.eof ∧
    ∃ passed, c.rest = passed ++ c'.rest ∧ c'.last = passed.getLast?.or c.last

variable {a b c : Cursor}

theorem Onward.refl (c : Cursor) : Onward c c := ⟨rfl, [], rfl, rfl⟩

theorem Onward.trans (h : Onward a b) (h' : Onward b c) : Onward a c := by
  obtain ⟨heof, passed, hrest, hlast⟩ := h
  obtain ⟨heof', passed', hrest', hlast'⟩ := h'
  refine ⟨heof'.trans heof, passed ++ passed', ?_, ?_⟩
  · rw [hrest, hrest', List.append_assoc]
  · rw [hlast', hlast, List.getLast?_append, Option.or_assoc]

/-- One lexeme is passed. -/
theorem Onward.one {l : Lexeme} {c c' : Cursor} (hrest : c.rest = l :: c'.rest)
    (hlast : c'.last = some l) (heof : c'.eof = c.eof) : Onward c c' :=
  ⟨heof, [l], hrest, hlast⟩

/-- Nothing was passed, or one lexeme was passed last. -/
theorem Onward.cases {c c' : Cursor} (h : Onward c c') :
    (c'.rest = c.rest ∧ c'.last = c.last) ∨
    ∃ before l, c.rest = before ++ l :: c'.rest ∧ c'.last = some l := by
  obtain ⟨-, passed, hrest, hlast⟩ := h
  rcases List.eq_nil_or_concat' passed with rfl | ⟨before, l, rfl⟩
  · exact .inl ⟨hrest.symm, hlast⟩
  · refine .inr ⟨before, l, ?_, ?_⟩
    · rw [hrest, List.append_assoc, List.singleton_append]
    · rw [hlast, List.getLast?_concat, Option.some_or]

theorem lastSpan_of_last {l : Lexeme} (h : c.last = some l) : c.lastSpan = l.span := by
  rw [lastSpan, h]
  rfl

theorem Onward.ordered {c c' : Cursor} (h : Onward c c') (hc : c.Ordered) :
    c'.Ordered ∧ c.front ≤ c'.front ∧ c.lastSpan.start ≤ c'.lastSpan.start := by
  have heof := h.1
  obtain ⟨hrest, hlast⟩ | ⟨before, l, hrest, hlast⟩ := h.cases
  · have hsame : c'.lastSpan = c.lastSpan := by rw [lastSpan, hlast]; rfl
    refine ⟨⟨hsame ▸ hc.last, ?_⟩, ?_, ?_⟩
    · rw [front, hsame, hrest, heof]
      exact hc.rest
    · rw [front, front, hsame]
    · rw [hsame]
  · -- The lexeme that was passed last lies behind all that was passed before.
    have hspan := lastSpan_of_last hlast
    have horder := hc.rest
    rw [hrest] at horder
    obtain ⟨hle, hlt, hafter⟩ := horder.split
    refine ⟨⟨?_, ?_⟩, ?_, ?_⟩
    · rw [hspan]
      exact hlt.le
    · rw [front, hspan, heof]
      exact hafter
    · rw [front.eq_1 c', hspan]
      exact hle.trans hlt.le
    · rw [hspan]
      exact hc.last.trans hle

theorem Onward.front_le {c c' : Cursor} (h : Onward c c') (hc : c.Ordered) : c.front ≤ c'.front :=
  (h.ordered hc).2.1

/-- Inside brackets only line ends are passed by looking at the next token. -/
theorem passLines_eq (last : Option Lexeme) (ls : List Lexeme) : ∃ passed,
    ls = passed ++ (passLines last ls).2 ∧ (passLines last ls).1 = passed.getLast?.or last ∧
      ∀ l ∈ passed, l.token = .newline := by
  induction ls generalizing last with
  | nil => exact ⟨[], rfl, rfl, nofun⟩
  | cons l ls ih =>
    by_cases hl : l.token = .newline
    · obtain ⟨passed, hrest, hlast, hlines⟩ := ih (some l)
      refine ⟨l :: passed, ?_, ?_, List.forall_mem_cons.mpr ⟨hl, hlines⟩⟩
      · simp only [passLines, hl, if_true, List.cons_append]
        rw [← hrest]
      · simp only [passLines, hl, if_true]
        rw [hlast, List.getLast?_cons]
        cases passed.getLast? with
        | none => rfl
        | some _ => rfl
    · exact ⟨[], by simp [passLines, hl], by simp [passLines, hl], nofun⟩

theorem onward_settle (c : Cursor) : Onward c c.settle := by
  unfold settle
  split
  · exact .refl c
  · obtain ⟨passed, hrest, hlast, -⟩ := passLines_eq c.last c.rest
    exact ⟨rfl, passed, hrest, hlast⟩

theorem onward_pass (c : Cursor) : Onward c c.pass := by
  unfold pass
  cases hrest : c.rest with
  | nil => exact .refl c
  | cons l ls => exact .one hrest rfl rfl

theorem onward_unstuck (c : Cursor) (ahead : Nat) : Onward c (c.unstuck ahead) := by
  unfold unstuck
  split
  · exact onward_pass c
  · exact .refl c

theorem onward_skipLine (c : Cursor) : Onward c c.skipLine :=
  ⟨rfl, c.rest.takeWhile (·.token ≠ .newline), (List.takeWhile_append_dropWhile ..).symm, rfl⟩

end Cursor

namespace Parse

theorem onward_report (fault : Fault) (span : Span) (c : Cursor) :
    Cursor.Onward c ((report fault span).run c).2 := ⟨rfl, [], rfl, rfl⟩

open Cursor MesonLens.Tree

variable {α β : Type} {c c' : Cursor} {l : Lexeme} {ls : List Lexeme}

/-! ### Steps -/

/-- From an ordered cursor the step goes onward, and if it succeeds then `Q` holds of its result
and the cursor after it. -/
def Yields (m : Parse α) (c : Cursor) (Q : α → Cursor → Prop) : Prop :=
  c.Ordered → Onward c (m.on c).2 ∧ ∀ a, (m.on c).1 = .ok a → Q a (m.on c).2

section Yields

variable {Q : α → Cursor → Prop} {R : β → Cursor → Prop}

theorem Yields.pure {a : α} (h : Q a c) : Yields (pure a) c Q :=
  fun _ => ⟨.refl c, fun _ ha => Except.ok.inj ha ▸ h⟩

/-- What would come after a failure does not matter. -/
theorem yields_throw (e : SyntaxError) (f : α → Parse β) : Yields (throw e >>= f) c R :=
  fun _ => ⟨.refl c, nofun⟩

/-- Steps in a row. -/
theorem Yields.bind {m : Parse α} {f : α → Parse β} (hm : Yields m c Q)
    (hf : ∀ a mid, c.Ordered → Onward c mid → Q a mid → Yields (f a) mid R) :
    Yields (m >>= f) c R := by
  intro hc
  obtain ⟨hon, hresult⟩ := hm hc
  rw [on_bind]
  -- After a failure the cursor stays where the first step left it.
  rcases hrun : m.on c with ⟨e | a, mid⟩
  · rw [hrun] at hon
    exact ⟨hon, nofun⟩
  · rw [hrun] at hon hresult
    obtain ⟨hon', hresult'⟩ := hf a mid hc hon (hresult a rfl) (hon.ordered hc).1
    exact ⟨hon.trans hon', hresult'⟩

theorem Yields.mono {Q' : α → Cursor → Prop} {m : Parse α} (hm : Yields m c Q)
    (h : ∀ a c', c.Ordered → Onward c c' → Q a c' → Q' a c') : Yields m c Q' :=
  fun hc => ⟨(hm hc).1, fun a ha => h a _ hc (hm hc).1 ((hm hc).2 a ha)⟩

/-- A step that cannot fail, before another one. -/
theorem yields_lift {m : Reading α} {f : α → Parse β} (hon : Onward c (m.run c).2)
    (h : c.front ≤ (m.run c).2.front → Yields (f (m.run c).1) (m.run c).2 R) :
    Yields (liftM m >>= f) c R := by
  intro hc
  obtain ⟨hon', hresult⟩ := h (hon.front_le hc) (hon.ordered hc).1
  exact ⟨hon.trans hon', hresult⟩

/-- Looking at the next token. -/
theorem yields_peek {f : Option Lexeme → Parse β}
    (h : c.Ordered → Yields (f c.settle.rest.head?) c.settle R) :
    Yields (liftM peek >>= f) c R := by
  intro hc
  obtain ⟨hon, hresult⟩ := h hc ((onward_settle c).ordered hc).1
  exact ⟨(onward_settle c).trans hon, hresult⟩

/-- The next token, when it is read, lies after what was passed before. -/
theorem lies_of_rest (hc : c.Ordered) (hrest : c.settle.rest = l :: ls) :
    l.span.Lies c.front l.span.stop ∧ Onward c (after c l ls) := by
  obtain ⟨hsettled, hle, -⟩ := (onward_settle c).ordered hc
  have horder := hsettled.rest
  rw [hrest] at horder
  exact ⟨⟨hle.trans horder.1, horder.2.1, le_refl _⟩,
    (onward_settle c).trans (.one hrest rfl rfl)⟩

/-- Reading a token that was looked at. -/
theorem yields_read {f : Unit → Parse β} (hhead : c.settle.rest.head? = some l)
    (h : ∀ ls, l.span.Lies c.settle.front l.span.stop → Yields (f ()) (after c.settle l ls) R) :
    Yields (discard (liftM advance : Parse (Option Lexeme)) >>= f) c.settle R := by
  intro hc
  obtain ⟨ls, hrest⟩ := List.head?_eq_some_iff.mp hhead
  obtain ⟨hlies, hon⟩ := lies_of_rest hc (settle_rest_settle hrest)
  obtain ⟨hon', hresult⟩ := h ls hlies (hon.ordered hc).1
  rw [on_discard_bind, advance_run_cons (settle_rest_settle hrest)]
  exact ⟨hon.trans hon', hresult⟩

/-- The next token is read if it is the given one. -/
theorem eat_cases (t : Token) (c : Cursor) :
    (eat t).run c = (none, c.settle) ∨
    ∃ l ls, c.settle.rest = l :: ls ∧ l.token = t ∧
      (eat t).run c = (some l.span, after c l ls) := by
  cases hrest : c.settle.rest with
  | nil => exact .inl (eat_run_none (by simp [hrest]))
  | cons l ls =>
    by_cases hl : l.token = t
    · exact .inr ⟨l, ls, rfl, hl, eat_run_some hrest hl⟩
    · exact .inl (eat_run_none (by simpa [hrest] using hl))

/-- Reading the next token if it is the given one. -/
theorem yields_eat {t : Token} {f : Option Span → Parse β}
    (hnone : c.Ordered → Yields (f none) c.settle R)
    (hsome : ∀ l ls, l.span.Lies c.front l.span.stop →
      Yields (f (some l.span)) (after c l ls) R) : Yields (liftM (eat t) >>= f) c R := by
  intro hc
  rw [on_lift_bind]
  obtain hrun | ⟨l, ls, hrest, -, hrun⟩ := eat_cases t c
  · obtain ⟨hon, hresult⟩ := hnone hc ((onward_settle c).ordered hc).1
    rw [hrun]
    exact ⟨(onward_settle c).trans hon, hresult⟩
  · obtain ⟨hlies, hon⟩ := lies_of_rest hc hrest
    obtain ⟨hon', hresult⟩ := hsome l ls hlies (hon.ordered hc).1
    rw [hrun]
    exact ⟨hon.trans hon', hresult⟩

theorem unexpected_run (wanted : Wanted) (c : Cursor) :
    (unexpected wanted).run c =
      (⟨.expected wanted (c.settle.rest.head?.map Lexeme.token), c.settle.next⟩, c.settle) := by
  change (SyntaxError.mk (.expected wanted (c.settle.settle.rest.head?.map _)) c.settle.next,
    c.settle.settle) = _
  rw [c.settle_settle]

theorem onward_unexpected (wanted : Wanted) (c : Cursor) :
    Onward c ((unexpected wanted).run c).2 := by
  rw [unexpected_run]
  exact onward_settle c

/-- A step that fails looks at the next token at most. -/
theorem failWanting_on (wanted : Wanted) (c : Cursor) :
    (failWanting wanted : Parse α).on c =
      (.error ⟨.expected wanted (c.settle.rest.head?.map Lexeme.token), c.settle.next⟩,
        c.settle) := by
  change (Except.error ((unexpected wanted).run c).1, ((unexpected wanted).run c).2) = _
  rw [unexpected_run]

theorem yields_failWanting (wanted : Wanted) (c : Cursor) : Yields (failWanting wanted) c Q := by
  intro _
  rw [failWanting_on]
  exact ⟨onward_settle c, nofun⟩

/-- Reading a token that has to be there. -/
theorem yields_expectAs (t : Token) (wanted : Wanted) (c : Cursor) :
    Yields (expectAs t wanted) c fun s c' => s.Lies c.front c'.front ∧ c'.front = s.stop := by
  refine yields_eat (fun hc => ?_) fun l ls hlies => ?_
  · exact yields_failWanting wanted c.settle
  · exact .pure ⟨hlies, rfl⟩

theorem yields_discard_expect (t : Token) (c : Cursor) :
    Yields (discard (expect t)) c fun _ c' => c.front ≤ c'.front :=
  (yields_expectAs t _ c).bind fun _ _ _ _ h => .pure h.1.le

end Yields

/-! ### Expressions -/

/-- The tree that a rule gives lies in the text that the rule passes. -/
def Places (m : Parse (Tree Span)) : Prop :=
  ∀ c, Yields m c fun t c' => t.Placed c.front c'.front

/-- What is read one level further in lies in the text that is passed. -/
structure Level.Places (inner : Level) : Prop where
  conditional : Parse.Places inner.conditional
  unary : Parse.Places inner.unary

variable {inner : Level}

theorem Level.Places.expression (h : inner.Places) : Parse.Places inner.expression := by
  intro c
  refine (h.conditional c).bind fun e c₁ hc hon he => ?_
  split
  · exact yields_throw _ _
  · exact .pure he

/-- Items with commas between them lie between the brackets. -/
theorem yields_commaList {item : Parse (Tree Span)} (hitem : Places item) (close : Token)
    (rounds : Nat) (c : Cursor) :
    Yields (commaList item close rounds) c fun r c' =>
      Spread r.1 c.front r.2.start ∧ r.2.Lies r.2.start c'.front := by
  induction rounds generalizing c with
  | zero => exact yields_failWanting _ c
  | succ rounds ih =>
    unfold commaList
    -- The closing bracket may also stand after a comma, so each round looks for it first.
    refine yields_eat (fun hc => ?_) fun l ls hlies => ?_
    · have hle := (onward_settle c).front_le hc
      refine (hitem _).bind fun first c₁ hc hon hfirst => ?_
      have hfirst := (hfirst.mono hle (le_refl _)).spread
      refine yields_eat (fun hc₁ => ?_) fun comma ls hcomma => ?_
      · refine (yields_expectAs close _ _).bind fun stop c₂ hc₂ hon₂ ⟨hstop, _⟩ => .pure ⟨?_, ?_⟩
        · exact hfirst.mono (le_refl _) (((onward_settle c₁).front_le hc₁).trans hstop.from_le)
        · exact ⟨le_refl _, hstop.lt, hstop.le_to⟩
      · refine (ih _).bind fun r c₂ hc₂ hon₂ ⟨hmore, hstop⟩ => .pure ⟨?_, hstop⟩
        exact hfirst.append (hmore.mono hcomma.le (le_refl _))
    · exact .pure ⟨spread_nil hlies.from_le, le_refl _, hlies.lt, hlies.le_to⟩

theorem yields_untilClose {item : Parse (Tree Span)} (hitem : Places item) (close : Token)
    (c : Cursor) :
    Yields (untilClose item close) c fun r c' =>
      Spread r.1 c.front r.2.start ∧ r.2.Lies r.2.start c'.front :=
  yields_commaList hitem close _ c

/-- A node that reaches from its opening bracket to its closing one. -/
theorem placed_brackets {t : Tree Span} {s u : Span} {p q : Position} (hs : s.Lies p s.stop)
    (hu : u.Lies u.start q) (hitems : Spread t.children s.stop u.start) (hnote : t.note = s.join u)
    (hcall : t.kind ≠ .call) : t.Placed p q :=
  placed_between hnote hcall (hs.mono (le_refl _) hitems.le) hu (hitems.mono hs.lt.le hu.lt.le)

theorem places_argument (hinner : inner.Places) : Places (argument inner) := by
  intro c
  refine (hinner.expression c).bind fun key c₁ hc hon hkey => ?_
  refine yields_eat (fun hc₁ => ?_) fun colon ls hcolon => ?_
  · exact .pure (hkey.mono (le_refl _) ((onward_settle c₁).front_le hc₁))
  · dsimp only
    split
    · exact yields_throw _ _
    · refine (hinner.expression _).bind fun value c₂ hc₂ hon₂ hvalue => .pure ?_
      exact placed_pair rfl rfl nofun hkey (hvalue.mono hcolon.le (le_refl _))

theorem places_arguments (hinner : inner.Places) : Places (arguments inner) := by
  intro c
  refine (yields_expectAs _ _ c).bind fun start c₁ hc hon ⟨hstart, hfront⟩ => ?_
  refine (yields_untilClose (places_argument hinner) _ _).bind
    fun r c₂ hc₁ hon₁ ⟨hitems, hstop⟩ => .pure ?_
  rw [hfront] at hstart hitems
  exact placed_brackets hstart hstop hitems rfl nofun

theorem places_entry (hinner : inner.Places) : Places (entry inner) := by
  intro c
  refine (hinner.expression c).bind fun key c₁ hc hon hkey => ?_
  refine (yields_discard_expect _ c₁).bind fun _ c₂ hc₁ hon₁ hle => ?_
  refine (hinner.expression c₂).bind fun value c₃ hc₂ hon₂ hvalue => .pure ?_
  exact placed_pair rfl rfl nofun hkey (hvalue.mono hle (le_refl _))

/-- What a token that was just read starts. -/
theorem yields_startedBy (hinner : inner.Places) {p : Position} (hlies : l.span.Lies p c.front)
    (hlast : c.front = l.span.stop) :
    Yields (startedBy inner l) c fun t c' => t.Placed p c'.front := by
  unfold startedBy
  split
  case h_1 | h_2 | h_3 => exact .pure (placed_leaf hlies rfl nofun)
  case h_4 name htoken =>
    refine yields_peek fun hc => ?_
    have hle := (onward_settle c).front_le hc
    have hcallee : (Tree.identifier l.span name).Placed p c.settle.front :=
      placed_leaf (hlies.mono (le_refl _) hle) rfl nofun
    split
    · refine (places_arguments hinner _).bind fun args c₁ hc₁ hon₁ hargs => .pure ?_
      exact placed_pair rfl rfl (fun _ => rfl) hcallee hargs
    · exact .pure hcallee
  case h_5 =>
    -- Parentheses leave no node of their own.
    refine (hinner.expression c).bind fun e c₁ hc hon he => ?_
    refine (yields_discard_expect _ c₁).bind fun _ c₂ hc₁ hon₁ hle => .pure ?_
    exact he.mono hlies.le hle
  case h_6 =>
    refine (yields_untilClose hinner.expression _ _).bind
      fun r c₁ hc hon ⟨hitems, hstop⟩ => .pure ?_
    rw [hlast] at hlies hitems
    exact placed_brackets hlies hstop hitems rfl nofun
  case h_7 =>
    refine (yields_untilClose (places_entry hinner) _ _).bind
      fun r c₁ hc hon ⟨hitems, hstop⟩ => .pure ?_
    rw [hlast] at hlies hitems
    exact placed_brackets hlies hstop hitems rfl nofun
  case h_8 => exact fun _ => ⟨.refl c, nofun⟩

theorem places_primary (hinner : inner.Places) : Places (primary inner) := by
  intro c
  refine yields_peek fun hc => ?_
  have hle := (onward_settle c).front_le hc
  cases hhead : c.settle.rest.head? with
  | none => exact yields_failWanting _ _
  | some l =>
    dsimp only
    split
    · exact (yields_failWanting (Q := fun _ _ => False) _ _).bind fun _ _ _ _ h => h.elim
    · refine yields_read hhead fun ls hlies => ?_
      exact yields_startedBy hinner (hlies.mono hle (le_refl _)) rfl

/-- A method call reaches from its object to its arguments, as far as they are there. -/
theorem yields_method (hinner : inner.Places) {object : Tree Span} {dot : Span} {p m : Position}
    (hobject : object.Placed p m) (hdot : dot.Lies m c.front) :
    Yields (method inner object dot) c fun t c' => t.Placed p c'.front := by
  refine yields_peek fun hc => ?_
  have hle := (onward_settle c).front_le hc
  split
  · next name span raw hhead =>
    refine yields_read hhead fun ls hspan => yields_peek fun hc₁ => ?_
    have hle₁ := (onward_settle _).front_le hc₁
    have hobject := hobject.mono (le_refl _) (hdot.le.trans hle)
    have hname : (Tree.identifier span name).Placed c.settle.front _ :=
      placed_leaf (hspan.mono (le_refl _) hle₁) rfl nofun
    split
    · refine (places_arguments hinner _).bind fun args c₂ hc₂ hon₂ hargs => .pure ?_
      refine placed_from rfl rfl nofun hobject ?_ (hargs.lies.mono hname.lies.le (le_refl _))
      exact hname.spread.append hargs.upTo.spread
    · refine yields_lift (onward_unexpected ..) fun hle₂ => ?_
      refine yields_lift (onward_report ..) fun _ => .pure ?_
      refine placed_from rfl rfl nofun hobject hname.upTo.spread ?_
      exact hname.lies.mono (le_refl _) hle₂
  · -- Without a name there is an empty node where the name is missing.
    refine yields_lift (onward_report ..) fun _ => .pure ?_
    refine placed_from rfl rfl nofun hobject ?_ (hdot.mono (le_refl _) hle)
    exact spread_singleton hdot.upTo.le (laid_malformed _ _) (.inl rfl)

/-- What follows an operand is placed after it. -/
theorem yields_suffixes (hinner : inner.Places) (rounds : Nat) {object : Tree Span} {p : Position}
    (c : Cursor) (hobject : object.Placed p c.front) :
    Yields (suffixes inner rounds object) c fun t c' => t.Placed p c'.front := by
  induction rounds generalizing c object with
  | zero => exact .pure hobject
  | succ rounds ih =>
    refine yields_peek fun hc => ?_
    have hobject := hobject.mono (le_refl p) ((onward_settle c).front_le hc)
    split
    · next dot raw hhead =>
      refine yields_read hhead fun ls hdot => ?_
      exact (yields_method hinner hobject hdot).bind fun t c₁ _ _ ht => ih c₁ ht
    · next span raw hhead =>
      refine yields_read hhead fun ls hspan => ?_
      refine (hinner.expression _).bind fun index c₁ _ _ hindex => ?_
      refine (yields_expectAs _ _ c₁).bind fun stop c₂ _ _ ⟨hstop, _⟩ => ih c₂ ?_
      have hindex := hindex.mono hspan.le (le_refl _)
      refine placed_from rfl rfl nofun hobject ?_ (hstop.mono hindex.lies.le (le_refl _))
      exact hindex.spread.mono (le_refl _) hstop.upTo.le
    · exact .pure hobject

theorem places_operand (hinner : inner.Places) : Places (operand inner) := fun c =>
  (places_primary hinner c).bind fun _ c₁ _ _ he => yields_suffixes hinner _ c₁ he

theorem places_unary (hinner : inner.Places) : Places (unary inner) := by
  intro c
  refine yields_peek fun hc => ?_
  have hle := (onward_settle c).front_le hc
  have hoperand : Yields (operand inner) c.settle fun t c' => t.Placed c.front c'.front :=
    (places_operand hinner _).mono fun t c' _ _ ht => ht.mono hle (le_refl _)
  split
  · next l hhead =>
    split
    · refine yields_read hhead fun ls hop => ?_
      refine (hinner.unary _).bind fun e c₁ _ _ he => .pure ?_
      refine placed_between rfl nofun (hop.mono hle (le_refl _)) he.lies ?_
      exact he.upTo.spread.mono hop.lt.le (le_refl _)
    · exact hoperand
  · exact hoperand

/-! ### Operators -/

theorem onward_advance (c : Cursor) : Onward c (advance.run c).2 := by
  cases hrest : c.settle.rest with
  | nil =>
    rw [advance_run_nil hrest]
    exact onward_settle c
  | cons l ls =>
    rw [advance_run_cons hrest]
    exact (onward_settle c).trans (.one hrest rfl rfl)

theorem onward_operator (op? : Token → Option BinaryOp) (c : Cursor) :
    Onward c ((operator op?).run c).2 := by
  unfold operator
  rw [run_bind]
  split
  · exact (onward_settle c).trans (onward_advance _)
  · exact onward_settle c

theorem onward_comparisonOperator (c : Cursor) : Onward c (comparisonOperator.run c).2 := by
  unfold comparisonOperator
  rw [run_bind]
  split
  · rw [run_bind]
    have hsecond : Onward c (peekSecond.run c.settle).2 :=
      (onward_settle c).trans (onward_settle _)
    split
    · exact (hsecond.trans (onward_advance _)).trans (onward_advance _)
    · exact hsecond
  · exact (onward_settle c).trans (onward_operator _ _)

/-- Operands with operators between them, from the first to the last. -/
theorem yields_chain {op : Reading (Option BinaryOp)} (hop : ∀ c, Onward c (op.run c).2)
    {next : Parse (Tree Span)} (hnext : Places next) (rounds : Nat) {left : Tree Span}
    {p : Position} (c : Cursor) (hleft : left.Placed p c.front) :
    Yields (chain op next rounds left) c fun t c' => t.Placed p c'.front := by
  induction rounds generalizing c left with
  | zero => exact .pure hleft
  | succ rounds ih =>
    refine yields_lift (hop c) fun hle => ?_
    have hleft := hleft.mono (le_refl _) hle
    split
    · exact .pure hleft
    · exact (hnext _).bind fun right c₁ _ _ hright =>
        ih c₁ (placed_pair rfl rfl nofun hleft hright)

theorem places_leftGrouped {op : Reading (Option BinaryOp)} (hop : ∀ c, Onward c (op.run c).2)
    {next : Parse (Tree Span)} (hnext : Places next) : Places (leftGrouped op next) := fun c =>
  (hnext c).bind fun _ c₁ _ _ hfirst => yields_chain hop hnext _ c₁ hfirst

theorem places_disjunction (hinner : inner.Places) : Places (disjunction inner) :=
  places_leftGrouped (onward_operator _) <| places_leftGrouped (onward_operator _) <|
    places_leftGrouped onward_comparisonOperator <| places_leftGrouped (onward_operator _) <|
      places_leftGrouped (onward_operator _) (places_unary hinner)

theorem places_conditional (hinner : inner.Places) : Places (conditional inner) := by
  intro c
  refine (places_disjunction hinner c).bind fun condition c₁ _ _ hcondition => ?_
  refine yields_eat (fun hc₁ => ?_) fun question ls hquestion => ?_
  · exact .pure (hcondition.mono (le_refl _) ((onward_settle c₁).front_le hc₁))
  · refine (hinner.conditional _).bind fun ifTrue c₂ _ _ htrue => ?_
    refine (yields_discard_expect _ c₂).bind fun _ c₃ _ _ hle => ?_
    refine (hinner.conditional c₃).bind fun ifFalse c₄ _ _ hfalse => .pure ?_
    have htrue := htrue.mono hquestion.le hle
    refine placed_from rfl rfl nofun hcondition ?_ (hfalse.lies.mono htrue.lies.le (le_refl _))
    exact htrue.spread.append hfalse.upTo.spread

theorem yields_tooDeep {Q : α → Cursor → Prop} (c : Cursor) : Yields tooDeep c Q :=
  fun _ => ⟨onward_settle c, nofun⟩

/-- What is read with any number of levels left is placed. -/
theorem places_level (room : Nat) : (level room).Places := by
  induction room with
  | zero => exact ⟨fun c => yields_tooDeep c, fun c => yields_tooDeep c⟩
  | succ room ih => exact ⟨places_conditional ih, places_unary ih⟩

end Parse

end MesonLens
