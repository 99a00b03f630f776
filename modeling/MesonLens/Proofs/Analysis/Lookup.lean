import MesonLens.Proofs.Analysis.Indexing
import MesonLens.Proofs.Syntax.NodeAt

/-!
# `MesonLens.Proofs.Analysis.Lookup`: an entry is found where its node is

To find what stands at a place, the index takes the shortest entry around the place from a flat
list. The tree goes down from the root instead. Both lead to the same node:

* `SourceFile.filter_contains_eq_around`: the nodes around a place, taken from the list of all
  nodes, are the innermost one and those above it, in this order;
* `SourceFile.pairwise_length_around`: they do not get shorter on the way up;
* `Index.leastBy_eq_head?`: so the shortest of them that has a property is the first one.

Of stretches that are equally long the index takes the one that was listed first. So it matters that
calls and strings are listed in the order of the nodes (`Listing.inOrder`). Names are not, but a
name has no parts, and no two of them are around one place.

`SourceFile.lookups_agree` puts these together for a text without errors.
-/

set_option autoImplicit false

namespace MesonLens

/-! ### The least of a list -/

namespace Index

variable {α : Type} {node : α → Nat} {span : α → Span} {items : List α}

/-- Where the weights grow, the first item is the least. -/
theorem leastBy_eq_head? {weight : α → Nat} {l : List α}
    (h : l.Pairwise fun x y => weight x ≤ weight y) : leastBy weight l = l.head? := by
  induction l with
  | nil => rfl
  | cons x l ih =>
    obtain ⟨hx, hl⟩ := List.pairwise_cons.mp h
    rw [leastBy, ih hl]
    cases l with
    | nil => rfl
    | cons y l => exact if_pos (hx y List.mem_cons_self)

/-- An item with a number of its own is the only one with this number. -/
theorem filter_node_eq_singleton (hnodup : (items.map node).Nodup) {u : α} (hu : u ∈ items) :
    items.filter (node · = node u) = [u] := by
  induction items with
  | nil => cases hu
  | cons v items ih =>
    rw [List.map_cons, List.nodup_cons] at hnodup
    rcases List.mem_cons.mp hu with rfl | hu
    · rw [List.filter_cons_of_pos (by simp), List.filter_eq_nil_iff.mpr]
      intro w hw heq
      exact hnodup.1 (of_decide_eq_true heq ▸ List.mem_map_of_mem hw)
    · rw [List.filter_cons_of_neg, ih hnodup.2 hu]
      intro heq
      exact hnodup.1 (of_decide_eq_true heq ▸ List.mem_map_of_mem hu)

/-- What was found in the list is the entry of the node, and the only one it has there. Nothing was
found where there is no node. -/
def IsEntryOf (node : α → Nat) (items : List α) (n : Option (Tree Mark)) (found : Option α) :
    Prop :=
  match n with
  | some n => ∃ u, found = some u ∧ items.filter (node · = n.id) = [u]
  | none => found = none

end Index

namespace IndexEntry

/-- The place of a string, a use of a variable or a call. -/
def place? : IndexEntry → Option Mark
  | .identifier mark _ | .call mark _ _ _ | .method mark _ _ | .string mark _ => some mark
  | .keyword .. | .inclusion .. | .assignment .. | .typed .. => none

/-- The place of a call of a function that is known. -/
def knownPlace? : IndexEntry → Option Mark
  | .call mark _ _ (some _) => some mark
  | _ => none

end IndexEntry

/-- Whether the node is a call of a function that is known. -/
def Tree.isKnownCall (n : Tree Mark) (catalog : Catalog) : Bool :=
  n.kind == .call && (catalog.function? (n.callName?.getD "")).isSome

/-- A node is below another one, and has a smaller number. -/
def Tree.Below (a b : Tree Mark) : Prop := a ∈ b.preorder ∧ a.id < b.id

instance : Trans Tree.Below Tree.Below Tree.Below :=
  ⟨fun hab hbc => ⟨Tree.mem_preorder_trans hbc.1 hab.1, hab.2.trans hbc.2⟩⟩

namespace SourceFile

open Index

/-- The nodes around a place, from the innermost one up to the root. -/
def around (f : SourceFile) (line column : Nat) : List (Tree Mark) :=
  match f.nodeAt line column with
  | some n => n :: f.ancestors n.id
  | none => []

variable {text : String} {line column : Nat}

/-- Of a node and those above it, each is below those that come after it. -/
theorem pairwise_below {n : Tree Mark} (hn : n ∈ (parse text).nodes) :
    (n :: (parse text).ancestors n.id).Pairwise Tree.Below := by
  obtain ⟨hchain, -, hmem⟩ := ancestors_spec hn
  refine List.isChain_iff_pairwise.mp (hchain.imp_of_mem_imp fun a b _ hb hpart => ⟨?_, ?_⟩)
  · exact Tree.mem_preorder_of_mem_children hpart (Tree.mem_preorder_self a)
  · exact (part_before ((hmem b).mp hb).1 hpart).2

/-- There are nodes around a place when the file covers it. -/
theorem around_cases (text : String) (line column : Nat) :
    (∃ n ∈ (parse text).nodes, (parse text).around line column = n :: (parse text).ancestors n.id ∧
      n.span.contains line column = true ∧
      ∀ m ∈ (parse text).nodes, m.span.contains line column = true → n ∈ m.preorder) ∨
    (parse text).around line column = [] ∧ ∀ m ∈ (parse text).nodes,
      m.span.contains line column = false := by
  have hnested := nested_root text
  unfold around nodeAt Tree.nodeAt
  split
  · next n hat =>
    split at hat
    · next hroot =>
      obtain ⟨hmem, hplace, -, hall⟩ := hnested.descend_spec hroot
      rw [Option.some.inj hat] at hmem hplace hall
      exact .inl ⟨n, mem_nodes.mpr hmem, rfl, hplace, fun m hm => hall m (mem_nodes.mp hm)⟩
    · cases hat
  · next hat =>
    refine .inr ⟨rfl, fun m hm => ?_⟩
    -- A node around the place would make the whole file one, too.
    by_contra hplace
    rw [if_pos (hnested.contains_of_mem (mem_nodes.mp hm) (eq_true_of_ne_false hplace))] at hat
    cases hat

theorem pairwise_around (text : String) (line column : Nat) :
    ((parse text).around line column).Pairwise Tree.Below := by
  rcases around_cases text line column with ⟨n, hn, heq, -⟩ | ⟨heq, -⟩
  · rw [heq]
    exact pairwise_below hn
  · rw [heq]
    exact .nil

theorem mem_around {n : Tree Mark} :
    n ∈ (parse text).around line column ↔
      n ∈ (parse text).nodes ∧ n.span.contains line column = true := by
  rcases around_cases text line column with ⟨m, hm, heq, hplace, hall⟩ | ⟨heq, hnone⟩
  · rw [heq, (ancestors_spec hm).2.2 n]
    refine and_congr_right fun hn => ⟨fun hbelow => ?_, hall n hn⟩
    exact ((nested_root text).of_mem (mem_nodes.mp hn)).contains_of_mem hbelow hplace
  · rw [heq]
    refine ⟨fun hn => absurd hn List.not_mem_nil, fun hn => ?_⟩
    exact absurd hn.2 (ne_true_of_eq_false (hnone n hn.1))

/-- The nodes around a place, in the order of their numbers. -/
theorem filter_contains_eq_around (text : String) (line column : Nat) :
    (parse text).nodes.filter (·.span.contains line column) = (parse text).around line column := by
  have hnodes : (parse text).nodes.Pairwise (·.id < ·.id) := by
    rw [← List.pairwise_map, map_id_nodes]
    exact List.pairwise_lt_range
  have haround := (pairwise_around text line column).imp And.right
  have hfilter := hnodes.filter (·.span.contains line column)
  have hne : ∀ {a b : Tree Mark}, a.id < b.id → a ≠ b := fun h hab => (hab ▸ h).ne rfl
  have hperm := (List.perm_ext_iff_of_nodup (hfilter.imp hne) (haround.imp hne)).mpr
    fun n => List.mem_filter.trans mem_around.symm
  exact hperm.eq_of_pairwise (fun a b _ _ hab hba => absurd hab hba.asymm) hfilter haround

/-- The nodes around a place get longer. -/
theorem pairwise_length_around (text : String) (line column : Nat) :
    ((parse text).around line column).Pairwise fun a b => a.span.length ≤ b.span.length := by
  refine (pairwise_around text line column).imp_of_mem fun {a b} ha hb hbelow => ?_
  have hnested := (nested_root text).of_mem (mem_nodes.mp (mem_around.mp hb).1)
  rcases hnested.inside_of_mem hbelow.1 with rfl | hvoid | hlies
  · exact Nat.le_refl _
  · exact absurd (mem_around.mp ha).2 (by simp [Tree.span, hvoid.contains_eq_false])
  · have hstart := Position.offset_le_of_le hlies.from_le
    have hstop := Position.offset_le_of_le hlies.le_to
    unfold Span.length Tree.span
    omega

/-- The innermost item is the entry of the first node around the place that has one. -/
theorem isEntryOf_innermost {α : Type} {node : α → Nat} {span : α → Span} {items all : List α}
    {p : Tree Mark → Bool} (hall : items.Sublist all) (hnodup : (all.map node).Nodup)
    (hitems : (items.filter fun u => (span u).contains line column).map
        (fun u => (⟨node u, span u⟩ : Mark)) =
      (((parse text).around line column).filter p).map Tree.note) :
    IsEntryOf node all (((parse text).around line column).find? p)
      (innermost span line column items) := by
  have hweights : (items.filter fun u => (span u).contains line column).Pairwise
      fun u v => (span u).length ≤ (span v).length := by
    have hnotes : ((((parse text).around line column).filter p).map Tree.note).Pairwise
        fun a b => a.span.length ≤ b.span.length :=
      List.pairwise_map.mpr ((pairwise_length_around text line column).filter p)
    rwa [← hitems, List.pairwise_map] at hnotes
  have hfound := congrArg List.head? hitems
  rw [List.head?_map, List.head?_map] at hfound
  -- The nodes around a place come from the inside out, so the shortest stretch is the first one.
  rw [innermost, leastBy_eq_head? hweights, ← List.head?_filter]
  cases hnearest : (((parse text).around line column).filter p).head? with
  | none =>
    rw [hnearest, Option.map_none, Option.map_eq_none_iff] at hfound
    exact hfound
  | some n =>
    rw [hnearest, Option.map_some, Option.map_eq_some_iff] at hfound
    obtain ⟨u, hu, hnote⟩ := hfound
    have hmem : u ∈ all := hall.subset (List.mem_filter.mp (List.mem_of_head? hu)).1
    refine ⟨u, hu, ?_⟩
    rw [show n.id = node u from congrArg Mark.id hnote.symm]
    exact filter_node_eq_singleton hnodup hmem

/-! ### The lists -/

open Analyze IndexEntry

variable {f : SourceFile} {catalog : Catalog} {l : Listing} {mark? : IndexEntry → Option Mark}
  {p : Tree Mark → Bool}

/-- What is picked from the entries of every node is picked from the entries of a list. -/
theorem filterMap_due
    (h : ∀ n, (on l (f.due catalog n)).filterMap mark? = if p n then [n.note] else []) :
    (on l (f.nodes.flatMap (f.due catalog))).filterMap mark? =
      (f.nodes.filter p).map Tree.note := by
  rw [on, List.filter_flatMap, List.filterMap_flatMap]
  induction f.nodes with
  | nil => rfl
  | cons n ns ih =>
    rw [List.flatMap_cons, ih]
    rw [show (List.filter _ (f.due catalog n)).filterMap mark? = _ from h n, List.filter_cons]
    split <;> rfl

/-- Whether the list has an entry at the place of the node. -/
def isListed (f : SourceFile) (n : Tree Mark) : Listing → Bool
  | .identifiers => n.kind == .identifier && f.namesVariable n.id
  | .calls => n.kind == .call
  | .methodCalls => n.kind == .method
  | .strings => n.kind == .string
  | .keywords | .includes | .assignments | .types => false

theorem place?_due (f : SourceFile) (catalog : Catalog) (l : Listing) (n : Tree Mark) :
    (on l (f.due catalog n)).filterMap place? = if f.isListed n l then [n.note] else [] := by
  cases n with
  | identifier m name =>
    rw [due]
    cases h : f.namesVariable m.id <;> cases l <;>
      simp [on, listing, place?, isListed, Tree.id, Tree.note, Tree.kind, h]
  | call m callee args =>
    rw [due, callEntries]
    split <;> cases l <;> rfl
  | iteration m names iterable body =>
    have hnone : (on l (names.map (ofTarget m))).filterMap place? = [] := by
      refine List.filterMap_eq_nil_iff.mpr fun e he => ?_
      obtain ⟨t, -, rfl⟩ := List.mem_map.mp (List.mem_filter.mp he).1
      rfl
    rw [due, hnone]
    cases l <;> rfl
  | _ => cases l <;> rfl

theorem knownPlace?_due (f : SourceFile) (catalog : Catalog) (n : Tree Mark) :
    (on .calls (f.due catalog n)).filterMap knownPlace? =
      if n.isKnownCall catalog then [n.note] else [] := by
  cases n with
  | identifier m name =>
    rw [due]
    split <;> rfl
  | call m callee args =>
    rw [due, callEntries, Tree.isKnownCall, Tree.callName?]
    cases catalog.function? (callee.identifier?.getD "") <;> split <;> rfl
  | iteration m names iterable body =>
    refine List.filterMap_eq_nil_iff.mpr fun e he => ?_
    obtain ⟨t, -, rfl⟩ := List.mem_map.mp (List.mem_filter.mp he).1
    rfl
  | _ => rfl

/-- The nodes around a place that have a property. -/
theorem filter_notes_around (p : Tree Mark → Bool) :
    (((parse text).nodes.filter p).map Tree.note).filter (·.span.contains line column) =
      (((parse text).around line column).filter p).map Tree.note := by
  rw [List.filter_map, ← filter_contains_eq_around, List.filter_comm]
  rfl

/-- The lookup in a list of entries that are in the order of the nodes. -/
theorem isEntryOf_ordered {α : Type} {node : α → Nat} {span : α → Span} {items all : List α}
    (hall : items.Sublist all) (hnodup : (all.map node).Nodup)
    (hitems : items.map (fun u => (⟨node u, span u⟩ : Mark)) =
      ((parse text).nodes.filter p).map Tree.note) :
    IsEntryOf node all (((parse text).around line column).find? p)
      (innermost span line column items) := by
  refine isEntryOf_innermost hall hnodup ?_
  rw [← filter_notes_around, ← hitems, List.filter_map]
  rfl

/-- A name has no parts, so only the innermost node around a place can be one. -/
theorem filter_around_identifier (text : String) (line column : Nat)
    (hp : ∀ n, p n = true → n.kind = .identifier) :
    ((parse text).around line column).filter p =
      (((parse text).nodeAt line column).filter p).toList := by
  have hbelow := pairwise_around text line column
  unfold around at hbelow ⊢
  generalize (parse text).nodeAt line column = innermost at hbelow ⊢
  cases innermost with
  | none => rfl
  | some n =>
    have habove : ((parse text).ancestors n.id).filter p = [] := by
      refine List.filter_eq_nil_iff.mpr fun b hb hpb => ?_
      obtain ⟨hmem, hlt⟩ := (List.pairwise_cons.mp hbelow).1 b hb
      have hkind := hp b hpb
      -- A node above another one has parts, and a name has none.
      cases b with
      | identifier m name =>
        rw [Tree.preorder_eq] at hmem
        rw [List.mem_singleton.mp hmem] at hlt
        exact hlt.ne rfl
      | _ => cases hkind
    rw [List.filter_cons, habove, Option.filter_some]
    split <;> rfl

/-- The lookup in a list of names, which need not be in order. -/
theorem isEntryOf_identifier {α : Type} {node : α → Nat} {span : α → Span} {items : List α}
    (hnodup : (items.map node).Nodup) (hp : ∀ n, p n = true → n.kind = .identifier)
    (hitems : (items.map (fun u => (⟨node u, span u⟩ : Mark))).Perm
      (((parse text).nodes.filter p).map Tree.note)) :
    IsEntryOf node items (((parse text).nodeAt line column).filter p)
      (innermost span line column items) := by
  have hone := filter_around_identifier text line column hp
  have hperm := hitems.filter (·.span.contains line column)
  rw [List.filter_map, filter_notes_around, hone] at hperm
  have hfound : (items.filter fun u => (span u).contains line column).map
      (fun u => (⟨node u, span u⟩ : Mark)) =
      (((parse text).around line column).filter p).map Tree.note := by
    rw [hone]
    cases hname : ((parse text).nodeAt line column).filter p with
    | none =>
      rw [hname] at hperm
      exact List.perm_nil.mp hperm
    | some n =>
      rw [hname] at hperm
      exact List.perm_singleton.mp hperm
  have hentry := isEntryOf_innermost (.refl items) hnodup hfound
  rwa [← List.head?_filter, hone, Option.head?_toList] at hentry

/-- What is picked from a list of the analysis is at the nodes that the entries are due for. -/
theorem notes_listed (h : (parse text).errors = []) (ctx : Context) (scope : Scope)
    (hdue : ∀ n, (on l ((parse text).due ctx.catalog n)).filterMap mark? =
      if p n then [n.note] else []) :
    let a := (parse text).analyze ctx.catalog ctx.file scope
    ((a.listed l).filterMap mark?).Perm (((parse text).nodes.filter p).map Tree.note) ∧
      (l.inOrder = true →
        (a.listed l).filterMap mark? = ((parse text).nodes.filter p).map Tree.note) := by
  intro a
  obtain ⟨hperm, horder⟩ := matches_listed text h ctx scope l
  rw [← filterMap_due hdue]
  exact ⟨hperm.symm.filterMap mark?, fun hl => by rw [horder hl]⟩

/-- The lookup in a list of the index that is in the order of the nodes. -/
theorem isEntryOf_listed {α : Type} {node : α → Nat} {span : α → Span} {items : List α}
    (h : (parse text).errors = []) (ctx : Context) (scope : Scope) (entry : α → IndexEntry)
    (hentries : ((parse text).analyze ctx.catalog ctx.file scope).listed l = items.map entry)
    (horder : l.inOrder = true)
    (hplace : place? ∘ entry = some ∘ fun u => ⟨node u, span u⟩)
    (hnode : IndexEntry.node ∘ entry = node) :
    IsEntryOf node items (((parse text).around line column).find? ((parse text).isListed · l))
      (innermost span line column items) := by
  have hids := nodup_listed text h ctx scope l
  have hnotes := (notes_listed h ctx scope (place?_due _ _ l)).2 horder
  rw [hentries, List.map_map, hnode] at hids
  rw [hentries, List.filterMap_map, hplace, List.filterMap_eq_map] at hnotes
  exact isEntryOf_ordered (.refl items) hids hnotes

/-- Finding entries in the index finds the nodes around the place, for every text without errors and
every place. `SourceFile.around` is the innermost node with those above it, and is empty where no
node is around the place.

* A use of a variable is found if and only if the innermost node is the name of a variable, and then
  it is the entry of this node.
* The call of a function, the call of a method and the string that are found are the entries of the
  nearest such nodes around the place.
* The call of a known function that is found is the entry of the nearest call whose function is in
  the catalog. -/
theorem lookups_agree (text : String) (h : (parse text).errors = []) (catalog : Catalog)
    (file : Path) (scope : Scope) (line column : Nat) :
    let f := parse text
    let i := (f.analyze catalog file scope).index
    let around := f.around line column
    IsEntryOf (·.node) i.identifiers
      ((f.nodeAt line column).filter fun n => n.kind == .identifier && f.namesVariable n.id)
      (i.identifierAt line column) ∧
    IsEntryOf (·.node) i.calls (around.find? (·.kind == .call)) (i.callAt line column) ∧
    IsEntryOf (·.node) i.methodCalls (around.find? (·.kind == .method))
      (i.methodCallAt line column) ∧
    IsEntryOf (·.node) i.strings (around.find? (·.kind == .string)) (i.stringAt line column) ∧
    IsEntryOf (·.node) i.calls (around.find? (·.isKnownCall catalog))
      (i.knownCallAt line column) := by
  intro f i around
  have hids := nodup_listed text h ⟨catalog, file⟩ scope
  refine ⟨?_, ?_, ?_, ?_, ?_⟩
  · have hnames := (notes_listed h ⟨catalog, file⟩ scope (place?_due f catalog .identifiers)).1
    have hnodup := hids .identifiers
    rw [Analysis.listed, List.filterMap_map] at hnames
    rw [Analysis.listed, List.map_map] at hnodup
    refine isEntryOf_identifier hnodup (fun n hn => ?_) ?_
    · exact beq_iff_eq.mp (Bool.and_eq_true_iff.mp hn).1
    · rw [← List.filterMap_eq_map]
      exact hnames
  · exact isEntryOf_listed (l := .calls) h ⟨catalog, file⟩ scope _ rfl rfl rfl rfl
  · exact isEntryOf_listed (l := .methodCalls) h ⟨catalog, file⟩ scope _ rfl rfl rfl rfl
  · exact isEntryOf_listed (l := .strings) h ⟨catalog, file⟩ scope _ rfl rfl rfl rfl
  · have hknown := (notes_listed h ⟨catalog, file⟩ scope (knownPlace?_due f catalog)).2 rfl
    have hnodup := hids .calls
    rw [Analysis.listed, List.filterMap_map] at hknown
    rw [Analysis.listed, List.map_map] at hnodup
    refine isEntryOf_ordered List.filter_sublist hnodup ?_
    rw [← hknown, ← List.filterMap_eq_map, List.filterMap_filter]
    refine List.filterMap_congr fun u _ => ?_
    cases hfunction : u.function <;> simp [hfunction, knownPlace?]

/-- Two calls of methods that start at the same place, and a call of a function that is not known
inside one that is. The place is the name `x`. -/
theorem lookups_agree_chain :
    let text := "a.b(f(g(x))).c('s')\n"
    let catalog : Catalog := { functions := [{ name := "f", returns := {} }] }
    let f := parse text
    let i := (f.analyze catalog (Path.ofString "meson.build") {}).index
    f.errors = [] ∧
      ((i.identifierAt 0 8).map (·.name), (i.callAt 0 8).map (·.name),
        (i.methodCallAt 0 8).map (·.name), (i.knownCallAt 0 8).map (·.name)) =
        (some "x", some "g", some "b", some "f") ∧
      IsEntryOf (·.node) i.identifiers
        ((f.nodeAt 0 8).filter fun n => n.kind == .identifier && f.namesVariable n.id)
        (i.identifierAt 0 8) ∧
      IsEntryOf (·.node) i.calls ((f.around 0 8).find? (·.kind == .call)) (i.callAt 0 8) ∧
      IsEntryOf (·.node) i.methodCalls ((f.around 0 8).find? (·.kind == .method))
        (i.methodCallAt 0 8) ∧
      IsEntryOf (·.node) i.strings ((f.around 0 8).find? (·.kind == .string)) (i.stringAt 0 8) ∧
      IsEntryOf (·.node) i.calls ((f.around 0 8).find? (·.isKnownCall catalog))
        (i.knownCallAt 0 8) := by
  intro text catalog f i
  have h : f.errors = [] := by decide +kernel
  exact ⟨h, by decide +kernel,
    lookups_agree text h catalog (Path.ofString "meson.build") {} 0 8⟩

end SourceFile

end MesonLens
