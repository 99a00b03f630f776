import MesonLens.Proofs.Types.Canonical
import Mathlib.Data.List.Perm.Basic

/-!
# `MesonLens.Proofs.Types.Union`: sets of types are joined like sets

A list that is added to a set disappears into the list that is there, at any depth. What can
still be said of the result is what does not look at how things are grouped: a property of types
is additive (`Ty.Additive`) if a holder of joined types has it exactly when the holder of the one
or of the other types has it.

* `Ty.Additive.addAllTo`: some member of a union has an additive property exactly when some member
  of either part has it;
* `Ty.Feature`, `Ty.additive_has`: the features of types, such as "holds a list that holds a
  string", are additive;
* `Ty.cmpAll_eq_of_features`: sets of the canonical form with the same features are equal;
* `TypeSet.canonical_semilattice`: so unions of sets obey the laws of unions.

Sets are compared by `==`, for which objects of one number are one object.
-/

set_option autoImplicit false

namespace MesonLens

namespace Ty

/-! ### Additive properties -/

/-- The property is one of joined types exactly when it is one of either part. -/
structure Additive (G : Ty → Prop) : Prop where
  congr : ∀ {t u : Ty}, t.cmp u = .eq → G t → G u
  join : ∀ (k : Holder) (es there : List Ty),
    G (k.of (addAllTo es there)) ↔ G (k.of there) ∨ G (k.of es)

variable {G : Ty → Prop}

theorem cmp_eq_symm {t u : Ty} (h : t.cmp u = .eq) : u.cmp t = .eq := by
  rw [cmp_swap, h]
  rfl

theorem Additive.insertSorted (hG : Additive G) (t : Ty) (ts : List Ty) :
    (∃ u ∈ insertSorted t ts, G u) ↔ G t ∨ ∃ u ∈ ts, G u := by
  rcases insertSorted_cases t ts with ⟨⟨u, hu, hequal⟩, heq⟩ | ⟨before, after, rfl, heq, -⟩
  · rw [heq]
    refine ⟨Or.inr, fun h => ?_⟩
    rcases h with h | h
    · exact ⟨u, hu, hG.congr hequal h⟩
    · exact h
  · rw [heq]
    simp only [List.mem_append, List.mem_cons, or_and_right, exists_or, exists_eq_left]
    exact or_left_comm

/-- A type that is added adds its properties. -/
theorem Additive.addTo (hG : Additive G) (t : Ty) (ts : List Ty) :
    (∃ u ∈ addTo t ts, G u) ↔ G t ∨ ∃ u ∈ ts, G u := by
  rcases addTo_cases t ts with ⟨k, es, before, there, after, rfl, rfl, heq⟩ | ⟨heq, -⟩
  · rw [heq]
    simp only [List.mem_append, List.mem_cons, or_and_right, exists_or, exists_eq_left,
      hG.join k es there]
    constructor
    · rintro (h | (h | h) | h)
      · exact .inr (.inl h)
      · exact .inr (.inr (.inl h))
      · exact .inl h
      · exact .inr (.inr (.inr h))
    · rintro (h | h | h | h)
      · exact .inr (.inl (.inr h))
      · exact .inl h
      · exact .inr (.inl (.inl h))
      · exact .inr (.inr h)
  · rw [heq]
    exact hG.insertSorted t ts

theorem Additive.addAllTo (hG : Additive G) (es ts : List Ty) :
    (∃ u ∈ addAllTo es ts, G u) ↔ (∃ u ∈ es, G u) ∨ ∃ u ∈ ts, G u := by
  induction es generalizing ts with
  | nil => simp [Ty.addAllTo]
  | cons e es ih =>
    rw [Ty.addAllTo, ih, hG.addTo]
    simp only [List.mem_cons, or_and_right, exists_or, exists_eq_left]
    rw [or_left_comm, or_assoc]

/-! ### Features -/

/-- Something that a type can be or hold. -/
inductive Feature where
  /-- It is of a family. -/
  | family (rank : Nat)
  /-- It is the object of a number. -/
  | number (id : Nat)
  /-- It is a holder of a kind, and something in it has a feature. -/
  | inside (k : Holder) (f : Feature)

/-- Whether a type has a feature. -/
def Has : Feature → Ty → Prop
  | .family n, t => t.rank = n
  | .number id, t => ∃ name, t = object id name
  | .inside k f, t => ∃ ts, k.open? t = some ts ∧ ∃ u ∈ ts, Has f u

theorem has_inside_of {k : Holder} {f : Feature} {ts : List Ty} :
    Has (.inside k f) (k.of ts) ↔ ∃ u ∈ ts, Has f u := by
  simp [Has]

/-- Equal types are of one family. -/
theorem rank_eq_of_cmp {t u : Ty} (h : t.cmp u = .eq) : t.rank = u.rank := by
  have hcode : ∀ w : Ty, w.code.head? = some w.rank := by
    intro w
    cases w <;> rfl
  have hhead := congrArg List.head? (cmp_eq_iff.mp h)
  rw [hcode, hcode] at hhead
  exact Option.some.inj hhead

/-- Equal holders are of one kind and hold equal sequences. -/
theorem open?_of_cmp {k : Holder} {t u : Ty} {ts : List Ty} (h : t.cmp u = .eq)
    (ht : k.open? t = some ts) : ∃ us, k.open? u = some us ∧ cmpAll ts us = .eq := by
  rw [Holder.open?_eq_some_iff] at ht
  subst ht
  have hrank := rank_eq_of_cmp h
  obtain ⟨us, rfl⟩ : ∃ us, u = k.of us := by
    cases k <;> cases u <;> simp_all [Holder.of, rank]
  exact ⟨us, Holder.open?_of k us, by rwa [Holder.cmp_of] at h⟩

/-- Equal sequences hold equal types. -/
theorem exists_of_cmpAll {ts us : List Ty} (h : cmpAll ts us = .eq) {t : Ty} (ht : t ∈ ts) :
    ∃ u ∈ us, t.cmp u = .eq := by
  induction ts generalizing us with
  | nil => cases ht
  | cons w ts ih =>
    cases us with
    | nil => simp [cmpAll] at h
    | cons u us =>
      rw [cmpAll, Ordering.then_eq_eq] at h
      rcases List.mem_cons.mp ht with rfl | ht
      · exact ⟨u, List.mem_cons_self, h.1⟩
      · obtain ⟨v, hv, heq⟩ := ih h.2 ht
        exact ⟨v, List.mem_cons_of_mem u hv, heq⟩

theorem has_congr (f : Feature) {t u : Ty} (h : t.cmp u = .eq) (ht : Has f t) : Has f u := by
  induction f generalizing t u with
  | family n =>
    rw [Has] at ht ⊢
    rw [← rank_eq_of_cmp h, ht]
  | number id =>
    obtain ⟨name, rfl⟩ := ht
    cases u <;> simp [cmp, rank] at h
    obtain rfl := h
    exact ⟨_, rfl⟩
  | inside k f ih =>
    obtain ⟨ts, hopen, w, hw, hf⟩ := ht
    obtain ⟨us, hopen', hall⟩ := open?_of_cmp h hopen
    obtain ⟨v, hv, heq⟩ := exists_of_cmpAll hall hw
    exact ⟨us, hopen', v, hv, ih heq hf⟩

/-- A feature of joined types is one of either part. -/
theorem additive_has (f : Feature) : Additive (Has f) := by
  induction f with
  | family n => exact ⟨has_congr _, fun k _ _ => by cases k <;> simp [Has, Holder.of, rank]⟩
  | number id => exact ⟨has_congr _, fun k _ _ => by cases k <;> simp [Has, Holder.of]⟩
  | inside l f ih =>
    refine ⟨has_congr _, fun k es there => ?_⟩
    by_cases hl : l = k
    · subst hl
      rw [has_inside_of, has_inside_of, has_inside_of, ih.addAllTo]
      exact or_comm
    · simp [Has, Holder.open?_of_of_ne hl]

/-! ### Sets with the same features -/

/-- In an ordered set, what is inside of some holder of a kind is inside of this one. -/
theorem has_inside_iff {k : Holder} {f : Feature} {es ts : List Ty} (h : Ordered ts)
    (hes : k.of es ∈ ts) : (∃ u ∈ ts, Has (.inside k f) u) ↔ ∃ u ∈ es, Has f u := by
  constructor
  · rintro ⟨u, hu, fs, hopen, hf⟩
    rw [Holder.open?_eq_some_iff] at hopen
    subst hopen
    rwa [h.holder_unique hes hu]
  · exact fun hf => ⟨k.of es, hes, has_inside_of.mpr hf⟩

/-- Increasing sequences with equal types are equal. -/
theorem cmpAll_eq_of_members {ts us : List Ty} (hts : Increasing ts) (hus : Increasing us)
    (hle : ∀ t ∈ ts, ∃ u ∈ us, t.cmp u = .eq) (hge : ∀ u ∈ us, ∃ t ∈ ts, u.cmp t = .eq) :
    cmpAll ts us = .eq := by
  have hcodes : ∀ {ws : List Ty}, Increasing ws →
      (ws.map code).Pairwise fun a b => compare a b = .lt := by
    intro ws hws
    refine List.pairwise_map.mpr (hws.imp fun hlt => ?_)
    rwa [← cmp_eq_compare]
  have hnodup : ∀ {ws : List Ty}, Increasing ws → (ws.map code).Nodup := by
    intro ws hws
    refine (hcodes hws).imp fun {a b} hlt heq => ?_
    have hself : compare b b = .eq := Std.ReflCmp.compare_self
    rw [heq, hself] at hlt
    cases hlt
  have hmem : ∀ {vs ws : List Ty}, (∀ v ∈ vs, ∃ w ∈ ws, v.cmp w = .eq) →
      ∀ c ∈ vs.map code, c ∈ ws.map code := by
    intro vs ws hall c hc
    obtain ⟨v, hv, rfl⟩ := List.mem_map.mp hc
    obtain ⟨w, hw, heq⟩ := hall v hv
    exact List.mem_map.mpr ⟨w, hw, (cmp_eq_iff.mp heq).symm⟩
  -- Both sequences have the same codes, each once and in order.
  have hperm := (List.perm_ext_iff_of_nodup (hnodup hts) (hnodup hus)).mpr fun c =>
    ⟨hmem hle c, hmem hge c⟩
  rw [cmpAll_eq_iff]
  refine codeAll_congr (hperm.eq_of_pairwise (fun a b _ _ hab hba => ?_) (hcodes hts) (hcodes hus))
  have hswap : compare a b = (compare b a).swap := Std.OrientedCmp.eq_swap
  rw [hswap, hba] at hab
  cases hab

/-- Sets of the form with the same features are equal. -/
theorem cmpAll_eq_of_features {ts us : List Ty} (hts : CanonicalAll ts) (hus : CanonicalAll us)
    (h : ∀ f, (∃ t ∈ ts, Has f t) ↔ ∃ u ∈ us, Has f u) : cmpAll ts us = .eq := by
  -- Both directions are the same argument; holders go by what they hold, which is smaller.
  have hside : ∀ {vs ws : List Ty}, sizeOf vs + sizeOf ws = sizeOf ts + sizeOf us →
      CanonicalAll vs → CanonicalAll ws → (∀ f, (∃ v ∈ vs, Has f v) ↔ ∃ w ∈ ws, Has f w) →
      ∀ v ∈ vs, ∃ w ∈ ws, v.cmp w = .eq := by
    intro vs ws hsize hvs hws hfeatures v hv
    obtain ⟨w, hw, hrank⟩ := (hfeatures (.family v.rank)).mp ⟨v, hv, rfl⟩
    rcases holder_cases v with ⟨k, es, rfl⟩ | hplain
    · obtain ⟨fs, rfl⟩ : ∃ fs, w = k.of fs := by
        cases k <;> cases w <;> simp_all [Holder.of, rank, Has]
      refine ⟨k.of fs, hw, ?_⟩
      rw [Holder.cmp_of]
      have hes := canonical_of.mp (hvs.members _ hv)
      have hfs := canonical_of.mp (hws.members _ hw)
      have hlt : sizeOf es + sizeOf fs < sizeOf ts + sizeOf us := by
        have := List.sizeOf_lt_of_mem hv
        have := List.sizeOf_lt_of_mem hw
        have := sizeOf_lt_of k es
        have := sizeOf_lt_of k fs
        omega
      refine cmpAll_eq_of_features hes hfs fun f => ?_
      rw [← has_inside_iff hvs.ordered hv, hfeatures, has_inside_iff hws.ordered hw]
    · cases v with
      | object id name =>
        obtain ⟨w, hw, name', rfl⟩ := (hfeatures (.number id)).mp ⟨_, hv, name, rfl⟩
        exact ⟨_, hw, by simp [cmp]⟩
      | list es => cases hplain .list
      | dict es => cases hplain .dict
      | _ => exact ⟨w, hw, by cases w <;> simp_all [Has, rank, cmp]⟩
  refine cmpAll_eq_of_members hts.ordered.increasing hus.ordered.increasing ?_ ?_
  · exact hside rfl hts hus h
  · exact hside (Nat.add_comm _ _) hus hts fun f => (h f).symm
  termination_by sizeOf ts + sizeOf us
  decreasing_by exact hlt

end Ty

/-! ### The laws of unions -/

namespace TypeSet

open Ty (Feature)

/-- Some member has the feature. -/
def Has (s : TypeSet) (f : Feature) : Prop := ∃ t ∈ s.members, Ty.Has f t

theorem beq_iff {a b : TypeSet} : (a == b) = true ↔ Ty.cmpAll a.members b.members = .eq := by
  show (Ty.cmpAll a.members b.members == .eq) = true ↔ _
  simp

/-- Sets are equal if they have the same features. -/
theorem Canonical.beq {a b : TypeSet} (ha : a.Canonical) (hb : b.Canonical)
    (h : ∀ f, a.Has f ↔ b.Has f) : (a == b) = true :=
  beq_iff.mpr (Ty.cmpAll_eq_of_features ha hb h)

theorem canonical_empty : Canonical {} := Ty.canonicalAll_nil

theorem has_empty (f : Feature) : ¬ Has {} f := by
  simp [Has]

theorem has_union (a b : TypeSet) (f : Feature) : (a.union b).Has f ↔ a.Has f ∨ b.Has f :=
  ((Ty.additive_has f).addAllTo b.members a.members).trans or_comm

theorem has_ofList (ts : List Ty) (f : Feature) : (ofList ts).Has f ↔ ∃ t ∈ ts, Ty.Has f t := by
  refine ((Ty.additive_has f).addAllTo ts []).trans ?_
  simp

/-- What a union of many sets has, one of them has. -/
theorem has_unionAll (sets : List TypeSet) (f : Feature) :
    (unionAll sets).Has f ↔ ∃ s ∈ sets, s.Has f := by
  have hfold : ∀ start : TypeSet,
      (sets.foldl union start).Has f ↔ start.Has f ∨ ∃ s ∈ sets, s.Has f := by
    induction sets with
    | nil => simp
    | cons s sets ih =>
      intro start
      rw [List.foldl_cons, ih, has_union]
      simp [or_assoc]
  rw [unionAll, hfold]
  simp [has_empty]

theorem canonical_unionAll {sets : List TypeSet} (h : ∀ s ∈ sets, s.Canonical) :
    (unionAll sets).Canonical := by
  have hfold : ∀ start : TypeSet, start.Canonical → (sets.foldl union start).Canonical := by
    induction sets with
    | nil => exact fun _ hstart => hstart
    | cons s sets ih =>
      intro start hstart
      exact ih (fun u hu => h u (List.mem_cons_of_mem s hu)) _
        (hstart.union (h s List.mem_cons_self))
  exact hfold {} canonical_empty

/-- What the holders of a kind hold is what the set has inside of them. -/
theorem has_contents (k : Holder) (s : TypeSet) (f : Feature) :
    (s.contents k).Has f ↔ s.Has (.inside k f) := by
  rw [contents, has_unionAll]
  simp only [List.mem_map, List.mem_filterMap, Has]
  constructor
  · rintro ⟨_, ⟨ts, ⟨t, ht, hopen⟩, rfl⟩, u, hu, hf⟩
    exact ⟨t, ht, ts, hopen, u, hu, hf⟩
  · rintro ⟨t, ht, ts, hopen, u, hu, hf⟩
    exact ⟨⟨ts⟩, ⟨ts, ⟨t, ht, hopen⟩, rfl⟩, u, hu, hf⟩

theorem Canonical.contents {s : TypeSet} (h : s.Canonical) (k : Holder) :
    (s.contents k).Canonical := by
  refine canonical_unionAll fun u hu => ?_
  obtain ⟨ts, hts, rfl⟩ := List.mem_map.mp hu
  obtain ⟨t, ht, hopen⟩ := List.mem_filterMap.mp hts
  rw [Holder.open?_eq_some_iff] at hopen
  subst hopen
  exact Ty.canonical_of.mp (h.members _ ht)

variable {a b c s : TypeSet}

theorem Canonical.union_comm (ha : a.Canonical) (hb : b.Canonical) :
    (a.union b == b.union a) = true := by
  refine (ha.union hb).beq (hb.union ha) fun f => ?_
  rw [has_union, has_union, or_comm]

theorem Canonical.union_assoc (ha : a.Canonical) (hb : b.Canonical) (hc : c.Canonical) :
    ((a.union b).union c == a.union (b.union c)) = true := by
  refine ((ha.union hb).union hc).beq (ha.union (hb.union hc)) fun f => ?_
  simp only [has_union, or_assoc]

theorem Canonical.union_self (ha : a.Canonical) : (a.union a == a) = true := by
  refine (ha.union ha).beq ha fun f => ?_
  rw [has_union, or_self]

theorem Canonical.union_empty (ha : a.Canonical) : (a.union {} == a) = true := by
  refine (ha.union canonical_empty).beq ha fun f => ?_
  simp [has_union, has_empty]

theorem Canonical.empty_union (ha : a.Canonical) : (TypeSet.union {} a == a) = true := by
  refine (canonical_empty.union ha).beq ha fun f => ?_
  simp [has_union, has_empty]

/-- The order in which types are collected does not matter. -/
theorem ofList_beq_of_perm {ts us : List Ty} (h : ∀ t ∈ ts, t.Canonical) (hperm : ts.Perm us) :
    (ofList ts == ofList us) = true := by
  have hus : ∀ u ∈ us, u.Canonical := fun u hu => h u (hperm.mem_iff.mpr hu)
  refine (canonical_ofList h).beq (canonical_ofList hus) fun f => ?_
  simp only [has_ofList, hperm.mem_iff]

/-- A set of the form contains exactly its members. -/
theorem Canonical.contains_iff (hs : s.Canonical) (t : Ty) :
    s.contains t = true ↔ ∃ u ∈ s.members, (u == t) = true := by
  rw [contains, Ty.search_isOk_iff hs.ordered.increasing]
  simp only [Ty.beq_iff]
  exact exists_congr fun u => and_congr_right fun _ => ⟨Ty.cmp_eq_symm, Ty.cmp_eq_symm⟩

theorem Canonical.contents_union (k : Holder) (ha : a.Canonical) (hb : b.Canonical) :
    ((a.union b).contents k == (a.contents k).union (b.contents k)) = true := by
  refine ((ha.union hb).contents k).beq ((ha.contents k).union (hb.contents k)) fun f => ?_
  simp only [has_union, has_contents]

/-- **Sets of types form a semilattice in canonical form.** Every set that the operations build is
in canonical form, at every depth. On these sets `union` is commutative, associative and
idempotent, and the empty set is its identity; types give the same set in whatever order they are
collected; a set contains exactly its members; and what the lists and what the dictionaries of a
union hold is the union of what they hold in either set. -/
theorem canonical_semilattice :
    (∀ s : TypeSet, s.Built → s.Canonical) ∧
    (∀ a b : TypeSet, a.Built → b.Built → a.union b == b.union a) ∧
    (∀ a b c : TypeSet, a.Built → b.Built → c.Built →
      (a.union b).union c == a.union (b.union c)) ∧
    (∀ a : TypeSet, a.Built → a.union a == a) ∧
    (∀ a : TypeSet, a.Built → a.union {} == a ∧ union {} a == a) ∧
    (∀ ts us : List Ty, (∀ t ∈ ts, t.Built) → ts.Perm us → ofList ts == ofList us) ∧
    (∀ (s : TypeSet) (t : Ty), s.Built → (s.contains t ↔ ∃ u ∈ s.members, u == t)) ∧
    (∀ a b : TypeSet, a.Built → b.Built →
      (a.union b).elements == a.elements.union b.elements ∧
      (a.union b).values == a.values.union b.values) := by
  refine ⟨fun s hs => hs.canonical, ?_, ?_, ?_, ?_, ?_, ?_, ?_⟩
  · exact fun a b ha hb => ha.canonical.union_comm hb.canonical
  · exact fun a b c ha hb hc => ha.canonical.union_assoc hb.canonical hc.canonical
  · exact fun a ha => ha.canonical.union_self
  · exact fun a ha => ⟨ha.canonical.union_empty, ha.canonical.empty_union⟩
  · exact fun ts us hts hperm => ofList_beq_of_perm (fun t ht => (hts t ht).canonical) hperm
  · exact fun s t hs => hs.canonical.contains_iff t
  · exact fun a b ha hb => ⟨ha.canonical.contents_union .list hb.canonical,
      ha.canonical.contents_union .dict hb.canonical⟩

/-- The sets `int | list(str)` and `list(list(str))`: their lists become one, which holds a list
again. -/
theorem canonical_semilattice_nested :
    ∃ a b : TypeSet, a = ofList [.int, (single .str).listType] ∧
      b = single (single (single .str).listType).listType ∧ a.Built ∧ b.Built ∧ b.Canonical ∧
      a.union b = ⟨[.int, .list [.str, .list [.str]]]⟩ ∧ a.union b == b.union a ∧
      (a.union b).union a == a.union (b.union a) ∧ a.union a == a ∧
      (a.union {} == a ∧ union {} a == a) ∧
      ofList [.int, (single .str).listType] == ofList [(single .str).listType, .int] ∧
      (a.contains .int ↔ ∃ u ∈ a.members, u == .int) ∧
      (a.union b).elements == a.elements.union b.elements := by
  have hstr : TypeSet.Built (single .str) := .single (.plain fun k => by cases k <;> rfl)
  have hint : Ty.Built .int := .plain fun k => by cases k <;> rfl
  have hmembers : ∀ t ∈ [.int, (single .str).listType], Ty.Built t := by
    simpa using ⟨hint, .listType hstr⟩
  have ha : Built (ofList [.int, (single .str).listType]) := .ofList hmembers
  have hb : Built (single (single (single .str).listType).listType) :=
    .single (.listType (.single (.listType hstr)))
  obtain ⟨hform, hcomm, hassoc, hself, hempty, hperm, hcontains, helements⟩ := canonical_semilattice
  exact ⟨_, _, rfl, rfl, ha, hb, hform _ hb, rfl, hcomm _ _ ha hb, hassoc _ _ _ ha hb ha,
    hself _ ha, hempty _ ha, hperm _ _ hmembers (.swap _ _ _), hcontains _ _ ha,
    (helements _ _ ha hb).1⟩

end TypeSet

end MesonLens
