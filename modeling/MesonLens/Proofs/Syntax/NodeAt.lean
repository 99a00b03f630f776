import MesonLens.Proofs.Syntax.Layout

/-!
# `MesonLens.Proofs.Syntax.NodeAt`: the innermost node around a place

Going down from the root, `Tree.descend` takes the first part around the place. It finds the right
node because the nodes are laid out in the text (`Tree.Nested`): a place in a part is in the node
(`Tree.Nested.contains_of_mem`), and no place is in two parts (`Tree.Nested.part_unique`). So the
nodes around a place are the innermost one and those above it, for every text:
`SourceFile.nodeAt_deepest`.

`Tree.Nested.call_unique` is for those who find a call again by the stretch that it covers.
-/

set_option autoImplicit false

namespace MesonLens

namespace Span

variable {s u : Span} {line column : Nat}

theorem IsVoid.contains_eq_false (h : s.IsVoid) : s.contains line column = false := by
  have heq : s.start = s.stop := h
  simp [contains, heq]

/-- A place in a stretch is in what the stretch lies inside of. -/
theorem Inside.contains (h : s.Inside u.start u.stop) (hs : s.contains line column = true) :
    u.contains line column = true := by
  rcases h with h | h
  · rw [h.contains_eq_false] at hs
    cases hs
  · exact contains_of_le h.from_le h.le_to hs

/-- No place is in two stretches that are apart. -/
theorem Apart.contains_eq_false (h : s.Apart u) (hs : s.contains line column = true) :
    u.contains line column = false := by
  rcases h with h | h | h | h
  · rw [h.contains_eq_false] at hs
    cases hs
  · exact h.contains_eq_false
  · exact contains_eq_false_of_le h hs
  · by_contra hu
    rw [contains_eq_false_of_le h (by simpa using hu)] at hs
    cases hs

end Span

namespace Tree

/-- A node below another one lies inside of it. -/
theorem Nested.inside_of_mem {α : Type} {place : α → Span} {t m : Tree α} (h : t.Nested place)
    (hm : m ∈ t.preorder) :
    m = t ∨ (place m.note).Inside (place t.note).start (place t.note).stop := by
  induction h with
  | @intro t _ inside _ _ ih =>
    rw [preorder_eq, List.mem_cons, List.mem_flatMap] at hm
    rcases hm with rfl | ⟨c, hc, hm⟩
    · exact .inl rfl
    refine .inr ?_
    rcases ih c hc hm with rfl | hvoid | hlies
    · exact inside m hc
    · exact .inl hvoid
    · -- The part is not empty, for there is something inside of it.
      rcases inside c hc with hvoid | hpart
      · exact absurd hvoid (hlies.from_le.trans_lt (hlies.lt.trans_le hlies.le_to)).ne
      · exact .inr (hlies.mono hpart.from_le hpart.le_to)

theorem Nested.of_mem {α : Type} {place : α → Span} {t m : Tree α} (h : t.Nested place)
    (hm : m ∈ t.preorder) : m.Nested place := by
  induction h with
  | @intro t parts inside apart call ih =>
    rw [preorder_eq, List.mem_cons, List.mem_flatMap] at hm
    rcases hm with rfl | ⟨c, hc, hm⟩
    · exact .intro parts inside apart call
    · exact ih c hc hm

section Place

variable {t a b c m : Tree Mark} {line column : Nat}

/-- A place in a node is in every node above it. -/
theorem Nested.contains_of_mem (h : t.Nested Mark.span) (hm : m ∈ t.preorder)
    (hplace : m.span.contains line column = true) : t.span.contains line column = true := by
  rcases h.inside_of_mem hm with rfl | hinside
  · exact hplace
  · exact hinside.contains hplace

/-- Only one part is around a place. -/
theorem Nested.part_unique (h : t.Nested Mark.span) (ha : a ∈ t.children) (hb : b ∈ t.children)
    (hplace : a.span.contains line column = true)
    (hplace' : b.span.contains line column = true) : a = b := by
  obtain ⟨-, -, apart, -⟩ := h
  by_contra hne
  have : Std.Symm fun a b : Tree Mark => a.note.span.Apart b.note.span := ⟨fun _ _ h => h.symm⟩
  have hnot := (apart.forall ha hb hne).contains_eq_false hplace
  rw [show b.note.span.contains line column = true from hplace'] at hnot
  cases hnot

/-- Of two nodes around one place, one is below the other. -/
theorem Nested.mem_or_mem (h : t.Nested Mark.span) (ha : a ∈ t.preorder) (hb : b ∈ t.preorder)
    (hplace : a.span.contains line column = true)
    (hplace' : b.span.contains line column = true) : a ∈ b.preorder ∨ b ∈ a.preorder := by
  induction t using inductionOnParts with
  | node t ih =>
    have ha' := ha
    have hb' := hb
    rw [preorder_eq, List.mem_cons, List.mem_flatMap] at ha' hb'
    rcases ha' with rfl | ⟨c, hc, hac⟩
    · exact .inr hb
    rcases hb' with rfl | ⟨d, hd, hbd⟩
    · exact .inl ha
    have hparts : ∀ c ∈ t.children, c.Nested Mark.span := fun c hc =>
      h.of_mem (mem_preorder_of_mem_children hc (mem_preorder_self c))
    obtain rfl := h.part_unique hc hd ((hparts c hc).contains_of_mem hac hplace)
      ((hparts d hd).contains_of_mem hbd hplace')
    exact ih c hc (hparts c hc) hac hbd

theorem descend_eq (line column : Nat) (t : Tree Mark) :
    t.descend line column =
      match t.children.find? fun c => c.span.contains line column with
      | some c => c.descend line column
      | none => t := by
  have hparts : t.children.find? (fun c => c.span.contains line column) =
      (t.children.attach.find? fun c => c.val.span.contains line column).map Subtype.val := by
    conv => lhs; rw [← List.attach_map_subtype_val t.children, List.find?_map]
    rfl
  rw [descend, hparts]
  cases t.children.attach.find? fun c => c.val.span.contains line column with
  | none => rfl
  | some c => rfl

/-- Going down from a node around a place leads to the innermost one around it. -/
theorem Nested.descend_spec (h : t.Nested Mark.span)
    (hplace : t.span.contains line column = true) :
    let n := t.descend line column
    n ∈ t.preorder ∧ n.span.contains line column = true ∧
      (∀ c ∈ n.children, c.span.contains line column = false) ∧
      ∀ m ∈ t.preorder, m.span.contains line column = true → n ∈ m.preorder := by
  induction h with
  | @intro t parts inside apart call ih =>
    have hnested : t.Nested Mark.span := .intro parts inside apart call
    rw [descend_eq]
    -- The way down ends where no part is around the place. At most one part is, so nothing is
    -- missed on another way.
    cases hfind : t.children.find? fun c => c.span.contains line column with
    | none =>
      have hnone : ∀ c ∈ t.children, c.span.contains line column = false := by
        simpa using List.find?_eq_none.mp hfind
      refine ⟨mem_preorder_self t, hplace, hnone, fun m hm hcontains => ?_⟩
      rw [preorder_eq, List.mem_cons, List.mem_flatMap] at hm
      rcases hm with rfl | ⟨c, hc, hm⟩
      · exact mem_preorder_self m
      · have hc' := hnone c hc
        rw [(parts c hc).contains_of_mem hm hcontains] at hc'
        cases hc'
    | some c =>
      have hc := List.mem_of_find?_eq_some hfind
      have hpart : c.span.contains line column = true := by simpa using List.find?_some hfind
      obtain ⟨hmem, hcontains, hnone, hall⟩ := ih c hc hpart
      refine ⟨mem_preorder_of_mem_children hc hmem, hcontains, hnone, fun m hm hcontains' => ?_⟩
      have hm' := hm
      rw [preorder_eq, List.mem_cons, List.mem_flatMap] at hm'
      rcases hm' with rfl | ⟨d, hd, hmd⟩
      · exact mem_preorder_of_mem_children hc hmem
      · obtain rfl := hnested.part_unique hc hd hpart ((parts d hd).contains_of_mem hmd hcontains')
        exact hall m hmd hcontains'

/-- A call covers some text, and what is below it and a call too starts after its name. -/
theorem Nested.call_spec (h : b.Nested Mark.span) (hb : b.kind = .call) :
    b.span.start < b.span.stop ∧ ∀ a ∈ b.preorder, a.Nested Mark.span → a.kind = .call →
      a.span = b.span → a = b := by
  obtain ⟨parts, inside, apart, call⟩ := h
  obtain ⟨name, args, hparts, hname, hstart, hvoid⟩ := call hb
  have hargs : args.span.Lies b.span.start b.span.stop :=
    (inside args (by simp [hparts])).resolve_left hvoid
  have hlt : b.span.start < b.span.stop := hargs.from_le.trans_lt (hargs.lt.trans_le hargs.le_to)
  refine ⟨hlt, fun a ha hnested hcall hspan => ?_⟩
  rw [preorder_eq, List.mem_cons, hparts, List.flatMap_cons, List.flatMap_cons, List.flatMap_nil,
    List.append_nil, List.mem_append] at ha
  rcases ha with rfl | ha | ha
  · rfl
  · -- The name has no parts, and so is no call.
    rw [preorder_eq, hname, List.flatMap_nil, List.mem_singleton] at ha
    obtain ⟨-, -, -, call'⟩ := hnested
    obtain ⟨_, _, hparts', -⟩ := call' hcall
    rw [ha, hname] at hparts'
    cases hparts'
  · -- What is below the arguments starts after the name.
    rcases (parts args (by simp [hparts])).inside_of_mem ha with rfl | hbelow | hbelow
    · exact absurd (congrArg Span.start hspan) hstart.ne'
    · have hvoid' : b.span.IsVoid := hspan ▸ hbelow
      exact absurd hvoid' hlt.ne
    · exact absurd (congrArg Span.start hspan) (hstart.trans_le hbelow.from_le).ne'

/-- Two calls do not cover the same stretch. -/
theorem Nested.call_unique (h : t.Nested Mark.span) (ha : a ∈ t.preorder) (hb : b ∈ t.preorder)
    (hcall : a.kind = .call) (hcall' : b.kind = .call) (hspan : a.span = b.span) : a = b := by
  have hplace := Span.contains_start ((h.of_mem ha).call_spec hcall).1
  have hplace' := hplace
  rw [hspan] at hplace'
  rcases h.mem_or_mem ha hb hplace (hspan ▸ hplace') with hab | hba
  · exact ((h.of_mem hb).call_spec hcall').2 a hab (h.of_mem ha) hcall hspan
  · exact (((h.of_mem ha).call_spec hcall).2 b hba (h.of_mem hb) hcall' hspan.symm).symm

end Place

end Tree

namespace SourceFile

/-- The innermost node around a place, for every text, line and column. There is one exactly when
the file covers the place. The place is in none of its parts, and the nodes around the place are
this one and those above it. -/
theorem nodeAt_deepest (text : String) (line column : Nat) :
    let f := parse text
    (f.nodeAt line column = none ↔ f.root.span.contains line column = false) ∧
    (f.root.span.contains line column = true → ∃ n ∈ f.nodes,
      f.nodeAt line column = some n ∧ n.span.contains line column = true ∧
      (∀ c ∈ n.children, c.span.contains line column = false) ∧
      ∀ m ∈ f.nodes, m.span.contains line column = true ↔ m = n ∨ m ∈ f.ancestors n.id) := by
  intro f
  have hnested : f.root.Nested Mark.span := nested_root text
  constructor
  · rw [nodeAt, Tree.nodeAt]
    split
    · next h => simp [h]
    · next h => simpa using h
  · intro hroot
    obtain ⟨hmem, hcontains, hparts, hall⟩ := hnested.descend_spec hroot
    refine ⟨_, mem_nodes.mpr hmem, if_pos hroot, hcontains, hparts, fun m hm => ?_⟩
    have habove := (ancestors_spec (mem_nodes.mpr hmem)).2.2 m
    rw [← List.mem_cons, habove]
    constructor
    · exact fun hm' => ⟨hm, hall m (mem_nodes.mp hm) hm'⟩
    · exact fun hm' => (hnested.of_mem (mem_nodes.mp hm)).contains_of_mem hm'.2 hcontains

end SourceFile

end MesonLens
