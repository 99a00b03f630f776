import MesonLens.Proofs.Catalog.Hierarchy
import MesonLens.Proofs.Types.Union

/-!
# `MesonLens.Proofs.Catalog.Acceptance`: what is accepted where

`Catalog.accepts` goes into the accepted types and into the type itself, whichever lets it: a list
stands for its elements, and a value for a list of it. `Catalog.Fits` states each of these as a
rule, so that a fact about all that is accepted can be proved by induction on why it is.

There is one order for both sides (`Catalog.Refines`). The type may become a narrower one, and the
accepted types may become wider ones: an object may be put for one below it, and what a list holds
may be joined with what another list holds.

* `Catalog.acceptsType_iff_fits`: the rules are those of `Catalog.accepts`;
* `Catalog.within_addAllTo`: what is in a set is within every union with it, also if its lists and
  dictionaries are joined with others;
* `Catalog.Fits.mono`: what fits still fits when it is narrowed and what is wanted is widened. The
  empty set is an exception: it accepts anything, and a union with it need not;
* `Catalog.fits_self`: every member of a set fits where the set is wanted;
* `Catalog.accepts_mono`: acceptance respects both orders.
-/

set_option autoImplicit false

namespace MesonLens

/-- Whether a type is neither an object nor holds types. -/
def Ty.isSimple : Ty → Bool
  | .list _ | .dict _ | .object _ _ => false
  | _ => true

theorem Ty.isSimple_of_isAnyLike {t : Ty} (h : t.isAnyLike = true) : t.isSimple = true := by
  cases t <;> first | rfl | cases h

theorem Ty.isList_eq_false_iff {t : Ty} : t.isList = false ↔ Holder.list.open? t = none := by
  cases t <;> simp [isList, Holder.open?]

namespace Catalog

/-! ### The rules of acceptance -/

/-- When a type fits where one of the accepted types is wanted. -/
inductive Fits (c : Catalog) : List Ty → Ty → Prop where
  /-- Nothing is wanted in particular. -/
  | unconstrained {t : Ty} : Fits c [] t
  | any {accepted : List Ty} {t : Ty} : TypeSet.contains ⟨accepted⟩ .any = true → Fits c accepted t
  | anyLike {accepted : List Ty} {t : Ty} : t.isAnyLike = true → Fits c accepted t
  | simple {accepted : List Ty} {t : Ty} :
    t.isSimple = true → TypeSet.contains ⟨accepted⟩ t = true → Fits c accepted t
  | object {accepted : List Ty} {id expected : Nat} {name name' : String} :
    .object expected name' ∈ accepted → c.isSubtype id expected = true →
      Fits c accepted (.object id name)
  /-- What it holds fits what a holder of its kind holds. -/
  | inside {accepted inner ts : List Ty} (k : Holder) :
    k.of inner ∈ accepted → (∀ t ∈ ts, Fits c inner t) → Fits c accepted (k.of ts)
  /-- A list stands for its elements. -/
  | elements {accepted ts : List Ty} : (∀ t ∈ ts, Fits c accepted t) → Fits c accepted (.list ts)
  /-- A value stands for a list of it. -/
  | value {accepted inner : List Ty} {t : Ty} :
    .list inner ∈ accepted → inner ≠ [] → t.isList = false → Fits c inner t → Fits c accepted t

variable {c : Catalog}

theorem sizeOf_inner (k : Holder) {accepted inner : List Ty} (h : k.of inner ∈ accepted) :
    sizeOf inner < sizeOf accepted :=
  Nat.lt_trans (Ty.sizeOf_lt_of k inner) (List.sizeOf_lt_of_mem h)

theorem sizeOf_inside (k : Holder) {accepted inner ts : List Ty} {t : Ty}
    (h : k.of inner ∈ accepted) (ht : t ∈ ts) :
    sizeOf inner + sizeOf t < sizeOf accepted + sizeOf (k.of ts) :=
  Nat.add_lt_add (sizeOf_inner k h) (Ty.sizeOf_lt_of_mem_parts (by rwa [Ty.parts_of]))

theorem fits_of_acceptsType {accepted : List Ty} {t : Ty} (h : c.acceptsType accepted t = true) :
    c.Fits accepted t := by
  rw [acceptsType.eq_def] at h
  simp only [Bool.or_eq_true] at h
  rcases h with (((h | h) | h) | h) | h
  · rw [List.isEmpty_iff.mp h]
    exact .unconstrained
  · exact .any h
  · exact .anyLike h
  · cases t with
    | list ts =>
      simp only [Bool.or_eq_true, List.any_eq_true, List.all_eq_true, List.mem_attach, true_and,
        Subtype.exists, Subtype.forall, forall_const] at h
      -- An empty list, a list whose items go into one of the lists, or a list whose items are each
      -- taken where the list stands.
      rcases h with (h | ⟨u, hu, h⟩) | h
      · rw [List.isEmpty_iff.mp h]
        exact .elements fun t ht => by cases ht
      · cases u with
        | list inner =>
          simp only [Bool.or_eq_true, List.isEmpty_iff, List.all_eq_true, List.mem_attach,
            Subtype.forall, forall_const] at h
          refine .inside .list hu fun t ht => ?_
          rcases h with rfl | h
          · exact .unconstrained
          · have hlt := sizeOf_inside .list hu ht
            exact fits_of_acceptsType (h t ht)
        | _ => cases h
      · refine .elements fun t ht => ?_
        have hlt := Nat.add_lt_add_left (Ty.sizeOf_lt_of_mem_parts (t := .list ts) ht)
          (sizeOf accepted)
        exact fits_of_acceptsType (h t ht)
    | dict ts =>
      simp only [List.any_eq_true, List.mem_attach, true_and, Subtype.exists] at h
      obtain ⟨u, hu, h⟩ := h
      cases u with
      | dict inner =>
        simp only [Bool.or_eq_true, List.isEmpty_iff, List.all_eq_true, List.mem_attach,
          Subtype.forall, forall_const] at h
        refine .inside .dict hu fun t ht => ?_
        rcases h with (rfl | rfl) | h
        · cases ht
        · exact .unconstrained
        · have hlt := sizeOf_inside .dict hu ht
          exact fits_of_acceptsType (h t ht)
      | _ => cases h
    | object id name =>
      simp only [List.any_eq_true] at h
      obtain ⟨u, hu, h⟩ := h
      cases u with
      | object expected name' => exact .object hu h
      | _ => cases h
    | _ => exact .simple rfl h
  · -- A value that is no list is taken where a list of it is wanted.
    simp only [Bool.and_eq_true, List.any_eq_true, List.mem_attach, true_and, Subtype.exists] at h
    obtain ⟨hlist, u, hu, h⟩ := h
    cases u with
    | list inner =>
      have hlt := Nat.add_lt_add_right (sizeOf_inner .list hu) (sizeOf t)
      simp only [Bool.and_eq_true, Bool.not_eq_true', List.isEmpty_eq_false_iff] at h hlist
      exact .value hu h.1 hlist (fits_of_acceptsType h.2)
    | _ => cases h
  termination_by sizeOf accepted + sizeOf t
  decreasing_by all_goals subst_vars; exact hlt

theorem acceptsType_of_fits {accepted : List Ty} {t : Ty} (h : c.Fits accepted t) :
    c.acceptsType accepted t = true := by
  induction h with
  | unconstrained => rw [acceptsType.eq_def]; rfl
  | any h => rw [acceptsType.eq_def, h]; simp
  | anyLike h => rw [acceptsType.eq_def, h]; simp
  | @simple accepted t hsimple h =>
    rw [acceptsType.eq_def]
    simp only [Bool.or_eq_true]
    refine .inl (.inr ?_)
    cases t <;> first | exact h | cases hsimple
  | object hmem hsub =>
    rw [acceptsType.eq_def]
    simp only [Bool.or_eq_true]
    refine .inl (.inr ?_)
    exact List.any_eq_true.mpr ⟨_, hmem, hsub⟩
  | @inside accepted inner ts k hmem _ ih =>
    rw [acceptsType.eq_def]
    simp only [Bool.or_eq_true]
    refine .inl (.inr ?_)
    cases k with
    | list =>
      simp only [Holder.of, Bool.or_eq_true]
      refine .inl (.inr (List.any_eq_true.mpr ⟨⟨_, hmem⟩, List.mem_attach _ _, ?_⟩))
      show (inner.isEmpty || ts.attach.all fun t => c.acceptsType inner t.val) = true
      simp only [Bool.or_eq_true]
      exact .inr (by simpa using ih)
    | dict =>
      refine List.any_eq_true.mpr ⟨⟨_, hmem⟩, List.mem_attach _ _, ?_⟩
      show (ts.isEmpty || inner.isEmpty || ts.attach.all fun t => c.acceptsType inner t.val) = true
      simp only [Bool.or_eq_true]
      exact .inr (by simpa using ih)
  | elements _ ih =>
    rw [acceptsType.eq_def]
    simp only [Bool.or_eq_true]
    refine .inl (.inr (.inr ?_))
    simpa using ih
  | value hmem hne hlist _ ih =>
    rw [acceptsType.eq_def]
    simp only [Bool.or_eq_true]
    refine .inr ?_
    rw [hlist]
    refine List.any_eq_true.mpr ⟨⟨_, hmem⟩, List.mem_attach _ _, ?_⟩
    simpa using ⟨hne, ih⟩

theorem acceptsType_iff_fits {accepted : List Ty} {t : Ty} :
    c.acceptsType accepted t = true ↔ c.Fits accepted t :=
  ⟨fits_of_acceptsType, acceptsType_of_fits⟩

/-! ### Refining a type -/

mutual

/-- The one type is the other, an object type below it, or it holds types of which every one
refines some type that the other holds. -/
inductive Refines (c : Catalog) : Ty → Ty → Prop where
  | same {t u : Ty} : (t == u) = true → Refines c t u
  | object {id above : Nat} {name name' : String} : c.isSubtype id above = true →
    Refines c (.object id name) (.object above name')
  | inside {ts us : List Ty} (k : Holder) : RefinesAll c ts us → Refines c (k.of ts) (k.of us)

/-- Every one of the types refines some of the others. -/
inductive RefinesAll (c : Catalog) : List Ty → List Ty → Prop where
  | nil {us : List Ty} : RefinesAll c [] us
  | cons {t u : Ty} {ts us : List Ty} : u ∈ us → Refines c t u → RefinesAll c ts us →
    RefinesAll c (t :: ts) us

end

/-- Every type of the one set refines some type of the other. -/
abbrev Within (c : Catalog) (ts us : List Ty) : Prop := ∀ t ∈ ts, ∃ u ∈ us, c.Refines t u

theorem refinesAll_iff {ts us : List Ty} : c.RefinesAll ts us ↔ c.Within ts us := by
  induction ts with
  | nil => exact iff_of_true .nil fun t ht => by cases ht
  | cons t ts ih =>
    refine Iff.trans ?_ List.forall_mem_cons.symm
    constructor
    · rintro (_ | ⟨hu, htu, hrest⟩)
      exact ⟨⟨_, hu, htu⟩, ih.mp hrest⟩
    · rintro ⟨⟨u, hu, htu⟩, hrest⟩
      exact .cons hu htu (ih.mpr hrest)

theorem Refines.refl (t : Ty) : c.Refines t t :=
  .same (Ty.beq_iff.mpr t.cmp_self)

/-- A holder and what refines it are of one kind. -/
theorem Refines.open?_cases {t u : Ty} (h : c.Refines t u) (k : Holder) :
    (∃ ts us, k.open? t = some ts ∧ k.open? u = some us ∧ c.Within ts us) ∨
    (k.open? t = none ∧ k.open? u = none) := by
  cases h with
  | same heq =>
    have heq := Ty.beq_iff.mp heq
    cases ht : k.open? t with
    | some ts =>
      obtain ⟨us, hu, hall⟩ := Ty.open?_of_cmp heq ht
      refine .inl ⟨ts, us, rfl, hu, fun w hw => ?_⟩
      obtain ⟨v, hv, hequal⟩ := Ty.exists_of_cmpAll hall hw
      exact ⟨v, hv, .same (Ty.beq_iff.mpr hequal)⟩
    | none =>
      -- Equal types are of one kind, so the other one holds nothing either.
      cases hu : k.open? u with
      | none => exact .inr ⟨rfl, rfl⟩
      | some us =>
        obtain ⟨ts, ht', -⟩ := Ty.open?_of_cmp (Ty.cmp_eq_symm heq) hu
        rw [ht] at ht'
        cases ht'
  | object => exact .inr (by cases k <;> exact ⟨rfl, rfl⟩)
  | @inside ts us l hall =>
    by_cases hl : k = l
    · subst hl
      exact .inl ⟨ts, us, k.open?_of ts, k.open?_of us, refinesAll_iff.mp hall⟩
    · exact .inr ⟨Holder.open?_of_of_ne hl ts, Holder.open?_of_of_ne hl us⟩

theorem Refines.of_holder {k : Holder} {t : Ty} {us : List Ty} (h : c.Refines t (k.of us)) :
    ∃ ts, t = k.of ts ∧ c.Within ts us := by
  rcases h.open?_cases k with ⟨ts, us', ht, hu, hall⟩ | ⟨-, hnone⟩
  · rw [Holder.open?_of] at hu
    cases hu
    exact ⟨ts, Holder.open?_eq_some_iff.mp ht, hall⟩
  · rw [Holder.open?_of] at hnone
    cases hnone

theorem Refines.holder_of {k : Holder} {u : Ty} {ts : List Ty} (h : c.Refines (k.of ts) u) :
    ∃ us, u = k.of us ∧ c.Within ts us := by
  rcases h.open?_cases k with ⟨ts', us, ht, hu, hall⟩ | ⟨hnone, -⟩
  · rw [Holder.open?_of] at ht
    cases ht
    exact ⟨us, Holder.open?_eq_some_iff.mp hu, hall⟩
  · rw [Holder.open?_of] at hnone
    cases hnone

/-- A type that is neither an object nor holds types is refined by itself only. -/
theorem Refines.eq_of_simple {t u : Ty} (h : c.Refines t u)
    (hsimple : t.isSimple = true ∨ u.isSimple = true) : t = u := by
  cases h with
  | same heq =>
    have hrank := Ty.rank_eq_of_cmp (Ty.beq_iff.mp heq)
    cases t <;> cases u <;> simp_all [Ty.rank, Ty.isSimple]
  | object => simp [Ty.isSimple] at hsimple
  | inside k => cases k <;> simp [Holder.of, Ty.isSimple] at hsimple

/-- An object is refined by itself, whatever its name, and by the objects below it. -/
theorem Refines.object_cases {t u : Ty} (h : c.Refines t u)
    (hobject : (TypeSet.objectOf? t).isSome = true ∨ (TypeSet.objectOf? u).isSome = true) :
    ∃ i j name name', t = .object i name ∧ u = .object j name' ∧
      (i = j ∨ c.isSubtype i j = true) := by
  cases h with
  | same heq =>
    have hrank := Ty.rank_eq_of_cmp (Ty.beq_iff.mp heq)
    have heq := Ty.beq_iff.mp heq
    cases t <;> cases u <;> simp_all [Ty.rank, TypeSet.objectOf?, Ty.cmp]
  | object hsub => exact ⟨_, _, _, _, rfl, rfl, .inr hsub⟩
  | inside k => cases k <;> simp [Holder.of, TypeSet.objectOf?] at hobject

theorem Refines.of_objects {i j : Nat} (h : i = j ∨ c.isSubtype i j = true) (name name' : String) :
    c.Refines (.object i name) (.object j name') := by
  rcases h with rfl | h
  · exact .same (Ty.beq_iff.mpr (by simp [Ty.cmp]))
  · exact .object h

/-- The type in the middle decides the case: one that holds types goes with two of its kind, and
an object with two objects on one way up. -/
theorem Refines.trans (hc : c.Sound) {t u v : Ty} (htu : c.Refines t u) (huv : c.Refines u v) :
    c.Refines t v := by
  rcases Ty.holder_cases u with ⟨k, us, rfl⟩ | hplain
  · obtain ⟨ts, rfl, hts⟩ := htu.of_holder
    obtain ⟨vs, rfl, hvs⟩ := huv.holder_of
    refine .inside k (refinesAll_iff.mpr fun w hw => ?_)
    obtain ⟨x, hx, hwx⟩ := hts w hw
    obtain ⟨y, hy, hxy⟩ := hvs x hx
    have hlt : sizeOf w < sizeOf (k.of ts) := Ty.sizeOf_lt_of_mem_parts (by rwa [Ty.parts_of])
    exact ⟨y, hy, hwx.trans hc hxy⟩
  · cases u with
    | list us => cases hplain .list
    | dict us => cases hplain .dict
    | object j name =>
      obtain ⟨i, j', _, _, rfl, heq, hij⟩ := htu.object_cases (.inr rfl)
      cases heq
      obtain ⟨j', k, _, _, heq, rfl, hjk⟩ := huv.object_cases (.inl rfl)
      cases heq
      refine .of_objects ?_ _ _
      rcases hij with rfl | hij
      · exact hjk
      · rcases hjk with rfl | hjk
        · exact .inr hij
        · exact .inr (hc.isSubtype_trans hij hjk)
    | _ => rwa [htu.eq_of_simple (.inr rfl)]
  termination_by sizeOf t
  decreasing_by subst_vars; exact hlt

/-! ### Accepting more -/

theorem Within.refl (ts : List Ty) : c.Within ts ts := fun t ht => ⟨t, ht, .refl t⟩

theorem Within.trans (hc : c.Sound) {ts us vs : List Ty} (htu : c.Within ts us)
    (huv : c.Within us vs) : c.Within ts vs := by
  intro t ht
  obtain ⟨u, hu, h⟩ := htu t ht
  obtain ⟨v, hv, h'⟩ := huv u hu
  exact ⟨v, hv, h.trans hc h'⟩

mutual

/-- What is in a set is within it after a type is added. -/
theorem within_addTo (hc : c.Sound) (t : Ty) (ts : List Ty) : c.Within ts (t.addTo ts) := by
  rcases Ty.addTo_cases t ts with
    ⟨k, es, before, there, after, rfl, rfl, heq⟩ | ⟨heq, -⟩
  · have hlt := Ty.sizeOf_lt_of k es
    have hthere := within_addAllTo hc es there
    rw [heq]
    intro u hu
    simp only [List.mem_append, List.mem_cons] at hu ⊢
    rcases hu with hu | rfl | hu
    · exact ⟨u, .inl hu, .refl u⟩
    · exact ⟨_, .inr (.inl rfl), .inside k (refinesAll_iff.mpr hthere)⟩
    · exact ⟨u, .inr (.inr hu), .refl u⟩
  · rw [heq]
    rcases Ty.insertSorted_cases t ts with ⟨-, heq⟩ | ⟨before, after, rfl, heq, -⟩
    · rw [heq]
      exact .refl ts
    · rw [heq]
      intro u hu
      refine ⟨u, ?_, .refl u⟩
      simp only [List.mem_append, List.mem_cons] at hu ⊢
      exact hu.imp_right .inr
  termination_by sizeOf t

theorem within_addAllTo (hc : c.Sound) (es ts : List Ty) : c.Within ts (Ty.addAllTo es ts) := by
  match es with
  | [] => simpa [Ty.addAllTo] using Within.refl ts
  | e :: es =>
    rw [Ty.addAllTo]
    exact (within_addTo hc e ts).trans hc (within_addAllTo hc es (e.addTo ts))
  termination_by sizeOf es

end

/-- A type that is neither an object nor holds types stays a member. -/
theorem contains_of_within {ts us : List Ty} {t : Ty} (hus : Ty.CanonicalAll us)
    (h : c.Within ts us) (ht : t.isSimple = true) (hcontains : TypeSet.contains ⟨ts⟩ t = true) :
    TypeSet.contains ⟨us⟩ t = true := by
  have hfound : ∃ u ∈ ts, t.cmp u = .eq := by
    cases hsearch : t.search ts with
    | ok place => exact Ty.searchFrom_ok hsearch
    | error place =>
      rw [TypeSet.contains, hsearch] at hcontains
      cases hcontains
  obtain ⟨u, hu, hequal⟩ := hfound
  obtain ⟨v, hv, href⟩ := h u hu
  have htv := (Refines.same (c := c) (Ty.beq_iff.mpr hequal)).eq_of_simple (.inl ht)
  rw [← htv] at href
  rw [href.eq_of_simple (.inl ht)]
  refine (Ty.search_isOk_iff hus.ordered.increasing).mpr ⟨v, hv, ?_⟩
  exact Ty.cmp_self _

/-- What is accepted where some types are wanted is accepted, and so is what refines it, where
these types and others are wanted. -/
theorem Fits.mono (hc : c.Sound) {accepted : List Ty} {t : Ty} (h : c.Fits accepted t) :
    ∀ {more : List Ty} {t' : Ty}, accepted ≠ [] → (∀ u ∈ accepted, u.Filled) →
      Ty.CanonicalAll more → c.Within accepted more → c.Refines t' t → c.Fits more t' := by
  induction h with
  | unconstrained =>
    -- The empty set is the one whose unions may accept less.
    intro more t' hne
    exact absurd rfl hne
  | any h =>
    intro more t' _ _ hmore hwithin _
    exact .any (contains_of_within hmore hwithin rfl h)
  | anyLike h =>
    intro more t' _ _ _ _ href
    rw [href.eq_of_simple (.inr (Ty.isSimple_of_isAnyLike h))]
    exact .anyLike h
  | simple hsimple h =>
    intro more t' _ _ hmore hwithin href
    rw [href.eq_of_simple (.inr hsimple)]
    exact .simple hsimple (contains_of_within hmore hwithin hsimple h)
  | object hmem hsub =>
    intro more t' _ _ _ hwithin href
    obtain ⟨i, j, name, name', rfl, heq, hij⟩ := href.object_cases (.inr rfl)
    cases heq
    obtain ⟨u, hu, href'⟩ := hwithin _ hmem
    obtain ⟨j', k, _, _, heq, rfl, hjk⟩ := href'.object_cases (.inl rfl)
    cases heq
    refine .object hu ?_
    rcases hij with rfl | hij <;> rcases hjk with rfl | hjk
    · exact hsub
    · exact hc.isSubtype_trans hsub hjk
    · exact hc.isSubtype_trans hij hsub
    · exact hc.isSubtype_trans hij (hc.isSubtype_trans hsub hjk)
  | @inside accepted inner ts k hmem _ ih =>
    intro more t' _ hfilled hmore hwithin href
    obtain ⟨ts', rfl, hts⟩ := href.of_holder
    obtain ⟨u, hu, href'⟩ := hwithin _ hmem
    obtain ⟨inner', rfl, hinner⟩ := href'.holder_of
    refine .inside k hu fun w hw => ?_
    obtain ⟨x, hx, hwx⟩ := hts w hw
    obtain ⟨hne, hfull⟩ := Ty.filled_of_iff.mp (hfilled _ hmem)
    exact ih x hx hne hfull (Ty.canonical_of.mp (hmore.members _ hu)) hinner hwx
  | elements _ ih =>
    intro more t' hne hfilled hmore hwithin href
    obtain ⟨ts', rfl, hts⟩ := href.of_holder (k := .list)
    refine .elements fun w hw => ?_
    obtain ⟨x, hx, hwx⟩ := hts w hw
    exact ih x hx hne hfilled hmore hwithin hwx
  | value hmem hne hlist _ ih =>
    intro more t' _ hfilled hmore hwithin href
    obtain ⟨u, hu, href'⟩ := hwithin _ hmem
    obtain ⟨inner', rfl, hinner⟩ := href'.holder_of (k := .list)
    obtain ⟨-, hfull⟩ := Ty.filled_of_iff.mp (hfilled (Holder.list.of _) hmem)
    -- The wider list is not empty either, and what refines a value is no list.
    refine .value hu ?_ ?_
      (ih hne hfull (Ty.canonical_of (k := .list).mp (hmore.members _ hu)) hinner href)
    · rintro rfl
      obtain ⟨w, hw⟩ := List.exists_mem_of_ne_nil _ hne
      obtain ⟨_, hnone, -⟩ := hinner w hw
      cases hnone
    · rw [Ty.isList_eq_false_iff] at hlist ⊢
      rcases href.open?_cases .list with ⟨ts, us, -, hopen, -⟩ | ⟨hopen, -⟩
      · rw [hlist] at hopen
        cases hopen
      · exact hopen

/-! ### A set accepts itself -/

/-- The objects in the type are objects of the catalog. -/
def Knows (c : Catalog) (t : Ty) : Prop :=
  t.Everywhere fun u => ∀ id name, u = .object id name → ∃ o, c.object? id = some o

/-- Every type of a set fits where the set is wanted. -/
theorem fits_self (hc : c.Sound) {ts : List Ty} (hts : Ty.CanonicalAll ts)
    (hknown : ∀ t ∈ ts, c.Knows t) {t : Ty} (ht : t ∈ ts) : c.Fits ts t := by
  have hcontains : TypeSet.contains ⟨ts⟩ t = true :=
    (Ty.search_isOk_iff hts.ordered.increasing).mpr
      ⟨t, ht, t.cmp_self⟩
  rcases Ty.holder_cases t with ⟨k, us, rfl⟩ | hplain
  · have hlt := sizeOf_inner k ht
    refine .inside k ht fun u hu => ?_
    exact fits_self hc (Ty.canonical_of.mp (hts.members _ ht))
      (Ty.everywhere_of.mp (hknown _ ht)).2 hu
  · cases t with
    | list us => cases hplain .list
    | dict us => cases hplain .dict
    | object id name =>
      obtain ⟨o, ho⟩ := (hknown _ ht).here id name rfl
      exact .object ht (hc.isSubtype_refl ho)
    | _ => exact .simple rfl hcontains
  termination_by sizeOf ts
  decreasing_by exact hlt

/-- **Acceptance respects both orders.** In every catalog that can be built, what a set of types
accepts is accepted by its union with any other set as well, and so is everything that refines it;
and every set of types of the catalog accepts itself. -/
theorem accepts_mono (d : Declarations) (c : Catalog) (hbuild : d.build = .ok c) :
    (∀ (a b : TypeSet) (t t' : Ty), a.Built → b.Built → a.Filled → a.isEmpty = false →
      c.Refines t' t → c.accepts a t = true → c.accepts (a.union b) t' = true) ∧
    ∀ s : TypeSet, s.Built → (∀ t ∈ s.members, c.Knows t) → c.acceptsAll s s = true := by
  have hc := Declarations.sound_build hbuild
  constructor
  · intro a b t t' ha hb hfilled hne href haccepts
    have hfits := acceptsType_iff_fits.mp haccepts
    have hunion : Ty.CanonicalAll (a.union b).members := ha.canonical.union hb.canonical
    have hmembers : a.members ≠ [] := by simpa [TypeSet.isEmpty] using hne
    have hwithin := within_addAllTo hc b.members a.members
    exact acceptsType_iff_fits.mpr (hfits.mono hc hmembers hfilled hunion hwithin href)
  · intro s hs hknown
    refine Bool.or_eq_true_iff.mpr (.inr (List.all_eq_true.mpr fun t ht => ?_))
    exact acceptsType_iff_fits.mpr (fits_self hc hs.canonical hknown ht)

/-- A parameter that takes libraries takes shared libraries as well, also after it is changed to
take strings besides. -/
theorem accepts_mono_libraries :
    ∃ (d : Declarations) (c : Catalog) (a b : TypeSet),
      d = { objects := [("library", none), ("shared", some "library")] } ∧ d.build = .ok c ∧
      a = TypeSet.single (.list [.object 0 "library"]) ∧ b = TypeSet.single (.list [.str]) ∧
      a.Built ∧ b.Built ∧ a.Filled ∧ a.isEmpty = false ∧
      c.Refines (.list [.object 1 "shared"]) (.list [.object 0 "library"]) ∧
      c.accepts a (.list [.object 0 "library"]) = true ∧
      a.union b = ⟨[.list [.str, .object 0 "library"]]⟩ ∧
      c.accepts (a.union b) (.list [.object 1 "shared"]) = true ∧
      (∀ t ∈ a.members, c.Knows t) ∧ c.acceptsAll a a = true := by
  let c : Catalog := { objects := [⟨0, "library", none⟩, ⟨1, "shared", some 0⟩] }
  have hbuild : Declarations.build
      { objects := [("library", none), ("shared", some "library")] } = .ok c := rfl
  obtain ⟨hmono, hself⟩ := accepts_mono _ _ hbuild
  have hlibrary : ∀ k : Holder, k.open? (.object 0 "library") = none := fun k => by cases k <;> rfl
  have hstr : ∀ k : Holder, k.open? .str = none := fun k => by cases k <;> rfl
  have hbuilt {t : Ty} (ht : ∀ k : Holder, k.open? t = none) :
      (TypeSet.single (.list [t])).Built := by
    rw [← TypeSet.single_members t]
    exact .single (.listType (.single (.plain ht)))
  have hfilled : (TypeSet.single (.list [.object 0 "library"])).Filled := by
    intro u hu
    rw [TypeSet.single_members, List.mem_singleton] at hu
    rw [hu]
    refine Ty.filled_of_iff (k := .list).mpr ⟨List.cons_ne_nil _ _, fun w hw => ?_⟩
    rw [List.mem_singleton.mp hw]
    exact Ty.filled_of_plain hlibrary
  have href : c.Refines (.list [.object 1 "shared"]) (.list [.object 0 "library"]) :=
    .inside .list (.cons List.mem_cons_self (.object rfl) .nil)
  have hknows : ∀ t ∈ (TypeSet.single (.list [.object 0 "library"])).members, c.Knows t := by
    intro u hu
    rw [TypeSet.single_members, List.mem_singleton] at hu
    subst hu
    refine .intro (fun id name h => by cases h) fun w hw => ?_
    rw [List.mem_singleton.mp hw]
    refine Ty.everywhere_of_plain hlibrary fun id name h => ?_
    cases h
    exact ⟨_, rfl⟩
  have hfits : c.Fits [.list [.object 0 "library"]] (.list [.object 0 "library"]) := by
    refine .inside .list List.mem_cons_self fun w hw => ?_
    rw [List.mem_singleton.mp hw]
    exact .object List.mem_cons_self rfl
  have haccepts := acceptsType_iff_fits.mpr hfits
  exact ⟨_, _, _, _, rfl, hbuild, rfl, rfl, hbuilt hlibrary, hbuilt hstr, hfilled, rfl, href,
    haccepts, rfl, hmono _ _ _ _ (hbuilt hlibrary) (hbuilt hstr) hfilled rfl href haccepts,
    hknows, hself _ (hbuilt hlibrary) hknows⟩

end Catalog

end MesonLens
