import MesonLens.Proofs.Syntax.Layout

/-!
# `MesonLens.Proofs.Syntax.Rows`: the parts of a node in the order of the text

What a rule gives starts where the next token stands (`Cursor.ahead`), and the cursor only goes on.
So the trees that are read one after the other stand in a row: every node of the first starts before
every node of the second (`Tree.Precedes`). This is told by the starts of the nodes alone, because a
node for something missing covers nothing and may stand behind the last token that was passed.

* `Tree.Arranged`: what is known of one node. Of a selection it is less than of the others, because
  an `elif` may follow an `else`;
* `Tree.Stands`, `Tree.Row`: trees between two places, in any order or in the order of the text. A
  node stands in a row when its parts do (`Tree.row_node`);
* `Parse.Rows`: the tree that a rule gives stands in the text that the rule passes. It holds of
  every rule for expressions, with any number of levels left: `Parse.rows_level`.
-/

set_option autoImplicit false

namespace MesonLens

namespace Tree

/-- Every node of the first tree starts before every node of the second one, or where it does. -/
def Precedes (a b : Tree Span) : Prop :=
  ∀ m ∈ a.preorder, ∀ n ∈ b.preorder, m.note.start ≤ n.note.start

/-- An `elif` after an `else` was found in the stretch. -/
def LateBranch (errors : List SyntaxError) (s : Span) : Prop :=
  ∃ e ∈ errors, e.fault = .elifAfterElse ∧ s.start ≤ e.span.start ∧ e.span.stop ≤ s.stop

/-- The parts of a node stand in the order of the text. In a selection the conditions do and the
statements do, and all of them together when no `elif` comes after an `else`. The blocks after the
first one start on later lines than the selection. -/
structure Arranged (errors : List SyntaxError) (t : Tree Span) : Prop where
  start_le : ∀ n ∈ t.preorder, t.note.start ≤ n.note.start
  parts : (t.kind = .selection → ¬ LateBranch errors t.note) → t.children.Pairwise Precedes
  branches : ∀ s b, t = .selection s b →
    b.conditions.Pairwise Precedes ∧ b.blocks.flatten.Pairwise Precedes ∧
      ∀ body ∈ b.blocks.drop 1, ∀ u ∈ body,
        s.start.line < u.note.start.line ∧ u.note.start ≤ s.stop

/-- Trees whose nodes are arranged and start between two places. -/
structure Stands (errors : List SyntaxError) (ts : List (Tree Span)) (p q : Position) : Prop where
  le : p ≤ q
  from_le : ∀ t ∈ ts, ∀ n ∈ t.preorder, p ≤ n.note.start
  le_to : ∀ t ∈ ts, ∀ n ∈ t.preorder, n.note.start ≤ q
  arranged : ∀ t ∈ ts, ∀ n ∈ t.preorder, n.Arranged errors

/-- Trees between two places, one after the other. -/
structure Row (errors : List SyntaxError) (ts : List (Tree Span)) (p q : Position) : Prop
    extends Stands errors ts p q where
  order : ts.Pairwise Precedes

variable {errors errors' : List SyntaxError} {t l r : Tree Span} {ts us : List (Tree Span)}
  {p p' m m' q q' : Position} {s u : Span}

theorem LateBranch.mono (h : LateBranch errors s) (herrors : errors ⊆ errors') :
    LateBranch errors' s := by
  obtain ⟨e, he, hspan⟩ := h
  exact ⟨e, herrors he, hspan⟩

theorem Arranged.mono (h : t.Arranged errors) (herrors : errors ⊆ errors') :
    t.Arranged errors' :=
  ⟨h.start_le, fun hlate => h.parts fun hkind hold => hlate hkind (hold.mono herrors), h.branches⟩

namespace Stands

theorem mono (h : Stands errors ts p q) (hp : p' ≤ p) (hq : q ≤ q') : Stands errors ts p' q' :=
  ⟨(hp.trans h.le).trans hq, fun t ht n hn => hp.trans (h.from_le t ht n hn),
    fun t ht n hn => (h.le_to t ht n hn).trans hq, h.arranged⟩

theorem errors_mono (h : Stands errors ts p q) (herrors : errors ⊆ errors') :
    Stands errors' ts p q :=
  ⟨h.le, h.from_le, h.le_to, fun t ht n hn => (h.arranged t ht n hn).mono herrors⟩

theorem nil (h : p ≤ q) : Stands errors [] p q := ⟨h, nofun, nofun, nofun⟩

theorem append (h : Stands errors ts p m) (h' : Stands errors us m' q) (hm : m ≤ m') :
    Stands errors (ts ++ us) p q := by
  refine ⟨(h.le.trans hm).trans h'.le, ?_, ?_, ?_⟩
  · intro t ht n hn
    rcases List.mem_append.mp ht with ht | ht
    · exact h.from_le t ht n hn
    · exact (h.le.trans hm).trans (h'.from_le t ht n hn)
  · intro t ht n hn
    rcases List.mem_append.mp ht with ht | ht
    · exact (h.le_to t ht n hn).trans (hm.trans h'.le)
    · exact h'.le_to t ht n hn
  · intro t ht n hn
    exact (List.mem_append.mp ht).elim (h.arranged t · n hn) (h'.arranged t · n hn)

/-- The order of the trees does not matter. -/
theorem subset (h : Stands errors ts p q) (hsub : us ⊆ ts) : Stands errors us p q :=
  ⟨h.le, fun t ht => h.from_le t (hsub ht), fun t ht => h.le_to t (hsub ht),
    fun t ht => h.arranged t (hsub ht)⟩

/-- Trees before a place precede those after it. -/
theorem precedes (h : Stands errors ts p m) (h' : Stands errors us m' q) (hm : m ≤ m') :
    ∀ a ∈ ts, ∀ b ∈ us, a.Precedes b :=
  fun a ha b hb k hk n hn => ((h.le_to a ha k hk).trans hm).trans (h'.from_le b hb n hn)

end Stands

namespace Row

theorem mono (h : Row errors ts p q) (hp : p' ≤ p) (hq : q ≤ q') : Row errors ts p' q' :=
  ⟨h.toStands.mono hp hq, h.order⟩

theorem errors_mono (h : Row errors ts p q) (herrors : errors ⊆ errors') : Row errors' ts p q :=
  ⟨h.toStands.errors_mono herrors, h.order⟩

theorem nil (h : p ≤ q) : Row errors [] p q := ⟨.nil h, .nil⟩

/-- Trees before a place and trees after it stand in a row. -/
theorem append (h : Row errors ts p m) (h' : Row errors us m' q) (hm : m ≤ m') :
    Row errors (ts ++ us) p q :=
  ⟨h.toStands.append h'.toStands hm,
    List.pairwise_append.mpr ⟨h.order, h'.order, h.toStands.precedes h'.toStands hm⟩⟩

/-- Nothing of a tree starts before the tree. -/
theorem tight (h : Row errors [t] p q) : Row errors [t] t.note.start q := by
  refine ⟨⟨h.le_to t List.mem_cons_self t (mem_preorder_self t), ?_, h.le_to, h.arranged⟩, h.order⟩
  intro t' ht n hn
  obtain rfl := List.mem_singleton.mp ht
  exact (h.arranged _ List.mem_cons_self _ (mem_preorder_self _)).start_le n hn

theorem start_le (h : Row errors [t] p q) : p ≤ t.note.start :=
  h.from_le t List.mem_cons_self t (mem_preorder_self t)

theorem le_start (h : Row errors [t] p q) : t.note.start ≤ q :=
  h.le_to t List.mem_cons_self t (mem_preorder_self t)

end Row

/-- A node whose parts stand somewhere after its start. -/
theorem row_of_arranged (hp : p ≤ t.note.start) (hparts : Stands errors t.children t.note.start q)
    (ht : (∀ n ∈ t.preorder, t.note.start ≤ n.note.start) → t.Arranged errors) :
    Row errors [t] p q := by
  -- No node below the parts starts before them, and so none starts before the node.
  have hstart : ∀ n ∈ t.preorder, t.note.start ≤ n.note.start ∧ n.note.start ≤ q := by
    intro n hn
    rw [preorder_eq, List.mem_cons, List.mem_flatMap] at hn
    rcases hn with rfl | ⟨c, hc, hn⟩
    · exact ⟨le_refl _, hparts.le⟩
    · exact ⟨hparts.from_le c hc n hn, hparts.le_to c hc n hn⟩
  refine ⟨⟨hp.trans hparts.le, ?_, ?_, ?_⟩, List.pairwise_singleton _ _⟩
  · rw [List.forall_mem_singleton]
    exact fun n hn => hp.trans (hstart n hn).1
  · rw [List.forall_mem_singleton]
    exact fun n hn => (hstart n hn).2
  · rw [List.forall_mem_singleton]
    intro n hn
    rw [preorder_eq, List.mem_cons, List.mem_flatMap] at hn
    rcases hn with rfl | ⟨c, hc, hn⟩
    · exact ht fun n hn => (hstart n hn).1
    · exact hparts.arranged c hc n hn

/-- A node that is no selection stands where its parts stand in a row after its start. -/
theorem row_node (hstart : t.note.start = m) (hkind : t.kind ≠ .selection) (hp : p ≤ m)
    (hparts : Row errors t.children m q) : Row errors [t] p q := by
  subst hstart
  refine row_of_arranged hp hparts.toStands fun hle => ⟨hle, fun _ => hparts.order, ?_⟩
  rintro s b rfl
  exact absurd rfl hkind

theorem row_leaf (hparts : t.children = []) (hkind : t.kind ≠ .selection) (hp : p ≤ t.note.start)
    (hq : t.note.start ≤ q) : Row errors [t] p q := by
  refine row_node rfl hkind hp ?_
  rw [hparts]
  exact .nil hq

theorem join_start {a b : Span} (h : a.start ≤ b.start) : (a.join b).start = a.start :=
  if_pos (Position.offset_le_of_le h)

/-- A node that reaches from one stretch to a later one, with its parts after the start of the
first. -/
theorem row_between (hnote : t.note = s.join u) (hkind : t.kind ≠ .selection) (hp : p ≤ s.start)
    (hu : s.start ≤ u.start) (hparts : Row errors t.children s.start q) : Row errors [t] p q := by
  refine row_node ?_ hkind hp hparts
  rw [hnote, join_start hu]

/-- A node that reaches from its first part to a later stretch. -/
theorem row_from (hnote : t.note = l.note.join u) (hparts : t.children = l :: ts)
    (hkind : t.kind ≠ .selection) (hl : Row errors [l] p m) (hmore : Row errors ts m' q)
    (hm : m ≤ m') (hu : m ≤ u.start) : Row errors [t] p q := by
  refine row_between hnote hkind hl.start_le (hl.le_start.trans hu) ?_
  rw [hparts]
  exact hl.tight.append hmore hm

/-- A node with two parts that reaches from the first to the second. -/
theorem row_pair (hnote : t.note = l.note.join r.note) (hparts : t.children = [l, r])
    (hkind : t.kind ≠ .selection) (hl : Row errors [l] p m) (hr : Row errors [r] m' q)
    (hm : m ≤ m') : Row errors [t] p q :=
  row_from hnote hparts hkind hl hr hm (hm.trans hr.start_le)

end Tree

/-! ### The next token -/

namespace Cursor

/-- Where the next token stands, or the end of the text. -/
def ahead (c : Cursor) : Position := c.next.start

variable {c c' : Cursor} {l : Lexeme} {ls : List Lexeme}

theorem ahead_of_rest (h : c.rest = l :: ls) : c.ahead = l.span.start := by
  rw [ahead, next_of_rest h]

theorem ahead_of_nil (h : c.rest = []) : c.ahead = c.eof := by
  simp [ahead, next, h, Span.empty]

theorem ahead_congr (hrest : c'.rest = c.rest) (heof : c'.eof = c.eof) : c'.ahead = c.ahead := by
  simp [ahead, next, hrest, heof]

theorem Ordered.front_le_ahead (hc : c.Ordered) : c.front ≤ c.ahead := by
  have horder := hc.rest
  cases hrest : c.rest with
  | nil =>
    rw [hrest] at horder
    rw [ahead_of_nil hrest]
    exact horder
  | cons l ls =>
    rw [hrest] at horder
    rw [ahead_of_rest hrest]
    exact horder.1

theorem Ordered.ahead_le_eof (hc : c.Ordered) : c.ahead ≤ c.eof := by
  have horder := hc.rest
  cases hrest : c.rest with
  | nil => exact (ahead_of_nil hrest).le
  | cons l ls =>
    rw [hrest] at horder
    rw [ahead_of_rest hrest]
    exact horder.2.1.le.trans horder.2.2.le

/-- What is passed stands before what is still ahead. -/
theorem Onward.ahead_le (h : Onward c c') (hc : c.Ordered) : c.ahead ≤ c'.ahead := by
  obtain ⟨hrest, -⟩ | ⟨before, l, hrest, hlast⟩ := h.cases
  · rw [ahead_congr hrest h.1]
  · have horder := hc.rest
    rw [hrest] at horder
    obtain ⟨first, hfirst, -, hlt, -, hstop⟩ := horder.first
    rw [← hrest] at hfirst
    obtain ⟨ls, hls⟩ := List.head?_eq_some_iff.mp hfirst
    have hfront : c'.front = l.span.stop := congrArg Span.stop (lastSpan_of_last hlast)
    rw [ahead_of_rest hls]
    exact (hlt.le.trans hstop).trans (hfront ▸ (h.ordered hc).1.front_le_ahead)

theorem Ordered.le_settle (hc : c.Ordered) : c.ahead ≤ c.settle.ahead :=
  (onward_settle c).ahead_le hc

end Cursor

namespace Parse

open Cursor MesonLens.Tree

variable {α β : Type} {c : Cursor} {l : Lexeme} {ls : List Lexeme} {R : β → Cursor → Prop}
  {errors : List SyntaxError}

/-! ### Steps -/

/-- A step that cannot fail, before another one. -/
theorem yields_onward {m : Reading α} {f : α → Parse β} (hon : Onward c (m.run c).2)
    (h : c.ahead ≤ (m.run c).2.ahead → Yields (f (m.run c).1) (m.run c).2 R) :
    Yields (liftM m >>= f) c R :=
  fun hc => yields_lift hon (fun _ => h (hon.ahead_le hc)) hc

/-- The next token stands before what is ahead once it is read. -/
theorem ahead_after (hc : c.Ordered) (hrest : c.settle.rest = l :: ls) :
    c.ahead ≤ l.span.start ∧ l.span.start ≤ l.span.stop ∧ l.span.stop ≤ (after c l ls).ahead := by
  obtain ⟨hlies, hon⟩ := lies_of_rest hc hrest
  exact ⟨ahead_of_rest hrest ▸ hc.le_settle, hlies.lt.le, (hon.ordered hc).1.front_le_ahead⟩

/-- Reading a token that was looked at. -/
theorem yields_next {f : Unit → Parse β} (hhead : c.settle.rest.head? = some l)
    (h : ∀ ls, c.settle.ahead ≤ l.span.start → l.span.start ≤ l.span.stop →
      l.span.stop ≤ (after c.settle l ls).ahead → Yields (f ()) (after c.settle l ls) R) :
    Yields (discard (liftM advance : Parse (Option Lexeme)) >>= f) c.settle R := by
  intro hc
  obtain ⟨ls, hrest⟩ := List.head?_eq_some_iff.mp hhead
  have hsettled := settle_rest_settle hrest
  obtain ⟨hstart, hlies, hstop⟩ := ahead_after hc hsettled
  obtain ⟨-, hon⟩ := lies_of_rest hc hsettled
  obtain ⟨hon', hresult⟩ := h ls hstart hlies hstop (hon.ordered hc).1
  rw [on_discard_bind, advance_run_cons hsettled]
  exact ⟨hon.trans hon', hresult⟩

/-- Reading the next token if it is the given one. -/
theorem yields_taken {t : Token} {f : Option Span → Parse β}
    (hnone : c.ahead ≤ c.settle.ahead → Yields (f none) c.settle R)
    (hsome : ∀ l ls, c.ahead ≤ l.span.start → l.span.start ≤ l.span.stop →
      l.span.stop ≤ (after c l ls).ahead → Yields (f (some l.span)) (after c l ls) R) :
    Yields (liftM (eat t) >>= f) c R := by
  intro hc
  rw [on_lift_bind]
  obtain hrun | ⟨l, ls, hrest, -, hrun⟩ := eat_cases t c
  · obtain ⟨hon, hresult⟩ := hnone hc.le_settle ((onward_settle c).ordered hc).1
    rw [hrun]
    exact ⟨(onward_settle c).trans hon, hresult⟩
  · obtain ⟨hstart, hlies, hstop⟩ := ahead_after hc hrest
    obtain ⟨-, hon⟩ := lies_of_rest hc hrest
    obtain ⟨hon', hresult⟩ := hsome l ls hstart hlies hstop (hon.ordered hc).1
    rw [hrun]
    exact ⟨hon.trans hon', hresult⟩

/-- Reading a token that has to be there. -/
theorem yields_required (t : Token) (wanted : Wanted) (c : Cursor) :
    Yields (expectAs t wanted) c fun s c' =>
      c.ahead ≤ s.start ∧ s.start ≤ s.stop ∧ s.stop ≤ c'.ahead := by
  refine yields_taken (fun _ => yields_failWanting wanted c.settle)
    fun l ls hstart hlies hstop => ?_
  exact .pure ⟨hstart, hlies, hstop⟩

theorem yields_discard_required (t : Token) (c : Cursor) :
    Yields (discard (expect t)) c fun _ c' => c.ahead ≤ c'.ahead :=
  (yields_required t _ c).bind fun _ _ _ _ ⟨hstart, hlies, hstop⟩ =>
    .pure ((hstart.trans hlies).trans hstop)

/-! ### Expressions -/

/-- The tree that a rule gives stands in the text that the rule passes. -/
def Rows (m : Parse (Tree Span)) : Prop :=
  ∀ errors c, Yields m c fun t c' => Row errors [t] c.ahead c'.ahead

/-- What is read one level further in stands in the text that is passed. -/
structure Level.Rows (inner : Level) : Prop where
  conditional : Parse.Rows inner.conditional
  unary : Parse.Rows inner.unary

variable {inner : Level}

theorem Level.Rows.expression (h : inner.Rows) : Parse.Rows inner.expression := by
  intro errors c
  refine (h.conditional errors c).bind fun e c₁ _ _ he => ?_
  split
  · exact yields_throw _ _
  · exact .pure he

/-- Items with commas between them stand in a row before the closing bracket. -/
theorem yields_row_commaList {item : Parse (Tree Span)} (hitem : Rows item) (close : Token)
    (rounds : Nat) (errors : List SyntaxError) (c : Cursor) :
    Yields (commaList item close rounds) c fun r c' =>
      Row errors r.1 c.ahead r.2.start ∧ r.2.start ≤ c'.ahead := by
  induction rounds generalizing c with
  | zero => exact yields_failWanting _ c
  | succ rounds ih =>
    unfold commaList
    refine yields_taken (fun hle => ?_) fun l ls hstart hlies hstop => ?_
    · refine (hitem errors _).bind fun first c₁ _ _ hfirst => ?_
      have hfirst := hfirst.mono hle (le_refl _)
      refine yields_taken (fun hle₁ => ?_) fun comma ls hcomma hlies hnext => ?_
      · refine (yields_required close _ _).bind fun stop c₂ _ _ hstop => .pure ?_
        obtain ⟨hstop, hlies, hend⟩ := hstop
        exact ⟨hfirst.mono (le_refl _) (hle₁.trans hstop), hlies.trans hend⟩
      · refine (ih _).bind fun r c₂ _ _ hmore => .pure ⟨?_, hmore.2⟩
        exact hfirst.append hmore.1 ((hcomma.trans hlies).trans hnext)
    · exact .pure ⟨.nil hstart, hlies.trans hstop⟩

theorem yields_row_untilClose {item : Parse (Tree Span)} (hitem : Rows item) (close : Token)
    (errors : List SyntaxError) (c : Cursor) :
    Yields (untilClose item close) c fun r c' =>
      Row errors r.1 c.ahead r.2.start ∧ r.2.start ≤ c'.ahead :=
  yields_row_commaList hitem close _ errors c

/-- A node that reaches from its opening bracket to its closing one. -/
theorem row_brackets {t : Tree Span} {s u : Span} {p m q : Position} (hnote : t.note = s.join u)
    (hkind : t.kind ≠ .selection) (hp : p ≤ s.start) (hs : s.start ≤ m)
    (hitems : Row errors t.children m u.start) (hq : u.start ≤ q) : Row errors [t] p q :=
  row_between hnote hkind hp (hs.trans hitems.le) (hitems.mono hs hq)

theorem rows_argument (hinner : inner.Rows) : Rows (argument inner) := by
  intro errors c
  refine (hinner.expression errors c).bind fun key c₁ _ _ hkey => ?_
  refine yields_taken (fun hle => ?_) fun colon ls hstart hlies hstop => ?_
  · exact .pure (hkey.mono (le_refl _) hle)
  · dsimp only
    split
    · exact yields_throw _ _
    · refine (hinner.expression errors _).bind fun value c₂ _ _ hvalue => .pure ?_
      exact row_pair rfl rfl nofun hkey hvalue ((hstart.trans hlies).trans hstop)

theorem rows_arguments (hinner : inner.Rows) : Rows (arguments inner) := by
  intro errors c
  refine (yields_required _ _ c).bind fun start c₁ _ _ ⟨hstart, hlies, hnext⟩ => ?_
  refine (yields_row_untilClose (rows_argument hinner) _ errors _).bind
    fun r c₂ _ _ ⟨hitems, hstop⟩ => .pure ?_
  exact row_brackets rfl nofun hstart (hlies.trans hnext) hitems hstop

theorem rows_entry (hinner : inner.Rows) : Rows (entry inner) := by
  intro errors c
  refine (hinner.expression errors c).bind fun key c₁ _ _ hkey => ?_
  refine (yields_discard_required _ c₁).bind fun _ c₂ _ _ hle => ?_
  refine (hinner.expression errors c₂).bind fun value c₃ _ _ hvalue => .pure ?_
  exact row_pair rfl rfl nofun hkey hvalue hle

/-- What a token that was just read starts. -/
theorem yields_row_startedBy (hinner : inner.Rows) {p : Position} (hp : p ≤ l.span.start)
    (hahead : l.span.start ≤ c.ahead) :
    Yields (startedBy inner l) c fun t c' => Row errors [t] p c'.ahead := by
  unfold startedBy
  split
  -- A number, a boolean or a string.
  case h_1 | h_2 | h_3 => exact .pure (row_leaf rfl nofun hp hahead)
  -- A name, or a call of it.
  case h_4 name htoken =>
    refine yields_peek fun hc => ?_
    have hcallee : Row errors [Tree.identifier l.span name] p c.settle.ahead :=
      row_leaf rfl nofun hp (hahead.trans hc.le_settle)
    split
    · refine (rows_arguments hinner errors _).bind fun args c₁ _ _ hargs => .pure ?_
      exact row_pair rfl rfl nofun hcallee hargs (le_refl _)
    · exact .pure hcallee
  -- An expression in parentheses, which starts behind the first one.
  case h_5 =>
    refine (hinner.expression errors c).bind fun e c₁ _ _ he => ?_
    refine (yields_discard_required _ c₁).bind fun _ c₂ _ _ hle => .pure ?_
    exact he.mono (hp.trans hahead) hle
  -- A list.
  case h_6 =>
    refine (yields_row_untilClose hinner.expression _ errors _).bind
      fun r c₁ _ _ ⟨hitems, hstop⟩ => .pure ?_
    exact row_brackets rfl nofun hp hahead hitems hstop
  -- A dictionary.
  case h_7 =>
    refine (yields_row_untilClose (rows_entry hinner) _ errors _).bind
      fun r c₁ _ _ ⟨hitems, hstop⟩ => .pure ?_
    exact row_brackets rfl nofun hp hahead hitems hstop
  -- No other token starts an operand.
  case h_8 => exact fun _ => ⟨.refl c, nofun⟩

theorem rows_primary (hinner : inner.Rows) : Rows (primary inner) := by
  intro errors c
  refine yields_peek fun hc => ?_
  cases hhead : c.settle.rest.head? with
  | none => exact yields_failWanting _ _
  | some l =>
    dsimp only
    split
    · exact (yields_failWanting (Q := fun _ _ => False) _ _).bind fun _ _ _ _ h => h.elim
    · refine yields_next hhead fun ls hstart hlies hstop => ?_
      exact yields_row_startedBy hinner (hc.le_settle.trans hstart) (hlies.trans hstop)

/-- The node for a missing name stands right behind the dot. -/
theorem yields_row_method (hinner : inner.Rows) {object : Tree Span} {dot : Span} {p m : Position}
    (hobject : Row errors [object] p m) (hdot : m ≤ dot.start) (hlies : dot.start ≤ dot.stop)
    (hahead : dot.stop ≤ c.ahead) :
    Yields (method inner object dot) c fun t c' => Row errors [t] p c'.ahead := by
  refine yields_peek fun hc => ?_
  have hdotted : m ≤ c.settle.ahead :=
    ((hdot.trans hlies).trans hahead).trans hc.le_settle
  split
  · next name span raw hhead =>
    refine yields_next hhead fun ls hstart hspan hstop => yields_peek fun hc₁ => ?_
    have hname : Row errors [Tree.identifier span name] c.settle.ahead
        (after c.settle ⟨.name name, span, raw⟩ ls).settle.ahead :=
      row_leaf rfl nofun hstart ((hspan.trans hstop).trans hc₁.le_settle)
    split
    · refine (rows_arguments hinner errors _).bind fun args c₂ _ _ hargs => .pure ?_
      refine row_from rfl rfl nofun hobject (hname.append hargs (le_refl _)) hdotted ?_
      exact (hdotted.trans hname.le).trans hargs.start_le
    · refine yields_onward (onward_unexpected ..) fun hle₁ => ?_
      refine yields_onward (onward_report ..) fun hle₂ => .pure ?_
      exact row_from rfl rfl nofun hobject (hname.mono (le_refl _) (hle₁.trans hle₂)) hdotted
        (hdotted.trans hstart)
  · -- Without a name there is an empty node behind the dot.
    refine yields_onward (onward_report ..) fun hle => .pure ?_
    have hmissing : Row errors [Tree.malformed (Span.empty dot.stop) .noMethodName] dot.stop
        ((report .noMethodName (Span.empty dot.stop)).run c.settle).2.ahead :=
      row_leaf rfl nofun (le_refl _) ((hahead.trans hc.le_settle).trans hle)
    exact row_from rfl rfl nofun hobject hmissing (hdot.trans hlies) hdot

theorem yields_row_suffixes (hinner : inner.Rows) (rounds : Nat) {object : Tree Span} {p : Position}
    (c : Cursor) (hobject : Row errors [object] p c.ahead) :
    Yields (suffixes inner rounds object) c fun t c' => Row errors [t] p c'.ahead := by
  induction rounds generalizing c object with
  | zero => exact .pure hobject
  | succ rounds ih =>
    refine yields_peek fun hc => ?_
    have hobject := hobject.mono (le_refl p) hc.le_settle
    split
    · next dot raw hhead =>
      refine yields_next hhead fun ls hstart hlies hstop => ?_
      exact (yields_row_method hinner hobject hstart hlies hstop).bind fun t c₁ _ _ ht => ih c₁ ht
    · next span raw hhead =>
      refine yields_next hhead fun ls hstart hlies hstop => ?_
      refine (hinner.expression errors _).bind fun index c₁ _ _ hindex => ?_
      refine (yields_required _ _ c₁).bind fun stop c₂ _ _ ⟨hclose, hwidth, hend⟩ => ih c₂ ?_
      have hopened := (hstart.trans hlies).trans hstop
      have hindex' := hindex.mono (le_refl _) ((hclose.trans hwidth).trans hend)
      exact row_from rfl rfl nofun hobject hindex' hopened ((hopened.trans hindex.le).trans hclose)
    · exact .pure hobject

theorem rows_operand (hinner : inner.Rows) : Rows (operand inner) := fun errors c =>
  (rows_primary hinner errors c).bind fun _ c₁ _ _ he => yields_row_suffixes hinner _ c₁ he

theorem rows_unary (hinner : inner.Rows) : Rows (unary inner) := by
  intro errors c
  refine yields_peek fun hc => ?_
  have hoperand : Yields (operand inner) c.settle fun t c' => Row errors [t] c.ahead c'.ahead :=
    (rows_operand hinner errors _).mono fun t c' _ _ ht => ht.mono hc.le_settle (le_refl _)
  split
  · next l hhead =>
    split
    · refine yields_next hhead fun ls hstart hlies hstop => ?_
      refine (hinner.unary errors _).bind fun e c₁ _ _ he => .pure ?_
      have hopened := hlies.trans hstop
      exact row_between rfl nofun (hc.le_settle.trans hstart) (hopened.trans he.start_le)
        (he.mono hopened (le_refl _))
    · exact hoperand
  · exact hoperand

/-- Operands with operators between them stand in a row. -/
theorem yields_row_chain {op : Reading (Option BinaryOp)} (hop : ∀ c, Onward c (op.run c).2)
    {next : Parse (Tree Span)} (hnext : Rows next) (rounds : Nat) {left : Tree Span}
    {p : Position} (c : Cursor) (hleft : Row errors [left] p c.ahead) :
    Yields (chain op next rounds left) c fun t c' => Row errors [t] p c'.ahead := by
  induction rounds generalizing c left with
  | zero => exact .pure hleft
  | succ rounds ih =>
    refine yields_onward (hop c) fun hle => ?_
    split
    · exact .pure (hleft.mono (le_refl _) hle)
    · exact (hnext errors _).bind fun right c₁ _ _ hright =>
        ih c₁ (row_pair rfl rfl nofun hleft hright hle)

theorem rows_leftGrouped {op : Reading (Option BinaryOp)} (hop : ∀ c, Onward c (op.run c).2)
    {next : Parse (Tree Span)} (hnext : Rows next) : Rows (leftGrouped op next) := fun errors c =>
  (hnext errors c).bind fun _ c₁ _ _ hfirst => yields_row_chain hop hnext _ c₁ hfirst

theorem rows_disjunction (hinner : inner.Rows) : Rows (disjunction inner) :=
  rows_leftGrouped (onward_operator _) <| rows_leftGrouped (onward_operator _) <|
    rows_leftGrouped onward_comparisonOperator <| rows_leftGrouped (onward_operator _) <|
      rows_leftGrouped (onward_operator _) (rows_unary hinner)

theorem rows_conditional (hinner : inner.Rows) : Rows (conditional inner) := by
  intro errors c
  refine (rows_disjunction hinner errors c).bind fun condition c₁ _ _ hcondition => ?_
  refine yields_taken (fun hle => ?_) fun question ls hstart hlies hstop => ?_
  · exact .pure (hcondition.mono (le_refl _) hle)
  · refine (hinner.conditional errors _).bind fun ifTrue c₂ _ _ htrue => ?_
    refine (yields_discard_required _ c₂).bind fun _ c₃ _ _ hle => ?_
    refine (hinner.conditional errors c₃).bind fun ifFalse c₄ _ _ hfalse => .pure ?_
    have hasked := (hstart.trans hlies).trans hstop
    exact row_from rfl rfl nofun hcondition (htrue.append hfalse hle) hasked
      (((hasked.trans htrue.le).trans hle).trans hfalse.start_le)

/-- What is read with any number of levels left stands in the text that is passed. -/
theorem rows_level (room : Nat) : (level room).Rows := by
  induction room with
  | zero => exact ⟨fun _ c => yields_tooDeep c, fun _ c => yields_tooDeep c⟩
  | succ room ih => exact ⟨rows_conditional ih, rows_unary ih⟩

end Parse

end MesonLens
