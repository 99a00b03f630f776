import MesonLens.Proofs.Types.Order
import Mathlib.Data.List.Pairwise

/-!
# `MesonLens.Proofs.Types.Canonical`: the form of a type set

A set of types is kept in strictly increasing order and holds at most one list and at most one
dictionary, and so do the sets inside of its members (`TypeSet.Canonical`). Nothing in the type
says so: a list or dictionary that is there already is changed where it stands. The operations
keep the form:

* `Ty.addTo_cases`: what adding a type can do to a set. It changes the holder that is there, or
  puts the type at its place;
* `Ty.addTo_canonical`, `Ty.addAllTo_canonical`: adding keeps the form;
* `TypeSet.built_iff_canonical`: the sets that the operations build are exactly those of the form.
-/

set_option autoImplicit false

namespace MesonLens

/-! ### Lists and dictionaries -/

namespace Holder

variable {k : Holder} {t : Ty} {ts : List Ty}

@[simp] theorem open?_of (k : Holder) (ts : List Ty) : k.open? (k.of ts) = some ts := by
  cases k <;> rfl

theorem open?_eq_some_iff : k.open? t = some ts ↔ t = k.of ts := by
  constructor
  · intro h
    cases k <;> cases t <;> simp_all [open?, of]
  · rintro rfl
    exact open?_of k ts

theorem open?_of_of_ne {k l : Holder} (h : k ≠ l) (ts : List Ty) : k.open? (l.of ts) = none := by
  cases k <;> cases l <;> first | rfl | exact absurd rfl h

/-- Two types of one kind compare as what they hold. -/
@[simp] theorem cmp_of (k : Holder) (ts us : List Ty) :
    (k.of ts).cmp (k.of us) = Ty.cmpAll ts us := by
  cases k <;> simp [of, Ty.cmp]

/-- A type of another kind does not look into it. -/
theorem cmp_of_left (h : k.open? t = none) (ts us : List Ty) :
    (k.of ts).cmp t = (k.of us).cmp t := by
  cases k <;> cases t <;> simp_all [open?, of, Ty.cmp, Ty.rank]

theorem cmp_of_right (h : k.open? t = none) (ts us : List Ty) :
    t.cmp (k.of ts) = t.cmp (k.of us) := by
  rw [Ty.cmp_swap, cmp_of_left h ts us, ← Ty.cmp_swap]

/-- The first type of the kind is changed where it stands. -/
theorem update?_cases (k : Holder) (f : List Ty → List Ty) (ts : List Ty) :
    (k.update? f ts = none ∧ ∀ t ∈ ts, k.open? t = none) ∨
    ∃ before there after, ts = before ++ k.of there :: after ∧
      k.update? f ts = some (before ++ k.of (f there) :: after) := by
  induction ts with
  | nil => exact .inl ⟨rfl, by simp⟩
  | cons t ts ih =>
    unfold update?
    cases hopen : k.open? t with
    | some there =>
      exact .inr ⟨[], there, ts, by rw [open?_eq_some_iff.mp hopen]; rfl, rfl⟩
    | none =>
      rcases ih with ⟨hnone, hall⟩ | ⟨before, there, after, rfl, hsome⟩
      · refine .inl ⟨by simp [hnone], fun u hu => ?_⟩
        rcases List.mem_cons.mp hu with rfl | hu
        · exact hopen
        · exact hall u hu
      · exact .inr ⟨t :: before, there, after, rfl, by simp [hsome]⟩

end Holder

namespace Ty

/-- The types that a type holds. -/
def parts : Ty → List Ty
  | list ts => ts
  | dict ts => ts
  | _ => []

@[simp] theorem parts_of (k : Holder) (ts : List Ty) : (k.of ts).parts = ts := by
  cases k <;> rfl

theorem sizeOf_lt_of_mem_parts {t u : Ty} (h : u ∈ t.parts) : sizeOf u < sizeOf t := by
  cases t with
  | list ts =>
    have hlt := List.sizeOf_lt_of_mem (show u ∈ ts from h)
    rw [list.sizeOf_spec]
    omega
  | dict ts =>
    have hlt := List.sizeOf_lt_of_mem (show u ∈ ts from h)
    rw [dict.sizeOf_spec]
    omega
  | _ => cases h

theorem sizeOf_lt_of (k : Holder) (ts : List Ty) : sizeOf ts < sizeOf (k.of ts) := by
  cases k <;> simp only [Holder.of, list.sizeOf_spec, dict.sizeOf_spec] <;> omega

/-! ### Adding a type -/

theorem addTo_of (k : Holder) (es ts : List Ty) :
    addTo (k.of es) ts =
      (k.update? (fun there => addAllTo es there) ts).getD (insertSorted (k.of es) ts) := by
  cases k <;> simp [Holder.of, addTo]

theorem addTo_of_parts_eq {t : Ty} (h : ∀ k : Holder, k.open? t = none) (ts : List Ty) :
    addTo t ts = insertSorted t ts := by
  cases t with
  | list es => cases h .list
  | dict es => cases h .dict
  | _ => rfl

/-- Every type is a holder of some kind, or a holder of no kind. -/
theorem holder_cases (t : Ty) :
    (∃ k es, t = Holder.of k es) ∨ ∀ k : Holder, k.open? t = none := by
  cases t with
  | list es => exact .inl ⟨.list, es, rfl⟩
  | dict es => exact .inl ⟨.dict, es, rfl⟩
  | _ => exact .inr fun k => by cases k <;> rfl

/-- A type that is added is joined with the first holder of its kind, or it is put at its place
because there is none. -/
theorem addTo_cases (t : Ty) (ts : List Ty) :
    (∃ k es before there after, t = Holder.of k es ∧ ts = before ++ k.of there :: after ∧
      addTo t ts = before ++ k.of (addAllTo es there) :: after) ∨
    (addTo t ts = insertSorted t ts ∧
      ∀ k : Holder, k.open? t = none ∨ ∀ u ∈ ts, k.open? u = none) := by
  rcases holder_cases t with ⟨k, es, rfl⟩ | hplain
  · rw [addTo_of]
    rcases k.update?_cases (fun there => addAllTo es there) ts with
      ⟨hnone, hall⟩ | ⟨before, there, after, hts, hsome⟩
    · refine .inr ⟨by rw [hnone]; rfl, fun l => ?_⟩
      by_cases hl : l = k
      · exact .inr (hl ▸ hall)
      · exact .inl (Holder.open?_of_of_ne hl es)
    · exact .inl ⟨k, es, before, there, after, rfl, hts, by rw [hsome]; rfl⟩
  · exact .inr ⟨addTo_of_parts_eq hplain ts, fun k => .inl (hplain k)⟩

/-! ### The form -/

/-- The property holds of a type and of every type inside of it. -/
inductive Everywhere (P : Ty → Prop) : Ty → Prop where
  | intro {t : Ty} : P t → (∀ u ∈ t.parts, Everywhere P u) → Everywhere P t

theorem Everywhere.here {P : Ty → Prop} {t : Ty} : t.Everywhere P → P t
  | .intro h _ => h

theorem Everywhere.inside {P : Ty → Prop} {t : Ty} : t.Everywhere P → ∀ u ∈ t.parts, u.Everywhere P
  | .intro _ h => h

theorem Everywhere.and_imp {P Q R : Ty → Prop} {t : Ty} (hP : t.Everywhere P)
    (hQ : t.Everywhere Q) (h : ∀ u, P u → Q u → R u) : t.Everywhere R := by
  induction hP with
  | intro hhere hinside ih =>
    exact .intro (h _ hhere hQ.here) fun u hu => ih u hu (hQ.inside u hu)

theorem everywhere_of {P : Ty → Prop} {k : Holder} {ts : List Ty} :
    (k.of ts).Everywhere P ↔ P (k.of ts) ∧ ∀ t ∈ ts, t.Everywhere P := by
  constructor
  · exact fun h => ⟨h.here, fun t ht => h.inside t (by rwa [parts_of])⟩
  · exact fun h => .intro h.1 (by simpa using h.2)

theorem parts_of_plain {t : Ty} (h : ∀ k : Holder, k.open? t = none) : t.parts = [] := by
  cases t with
  | list ts => cases h .list
  | dict ts => cases h .dict
  | _ => rfl

theorem everywhere_of_plain {P : Ty → Prop} {t : Ty} (h : ∀ k : Holder, k.open? t = none)
    (ht : P t) : t.Everywhere P :=
  .intro ht (by simp [parts_of_plain h])

/-- The types are in strictly increasing order, and no two of them are lists and no two are
dictionaries. -/
structure Ordered (ts : List Ty) : Prop where
  increasing : Increasing ts
  apart : ∀ k : Holder, ts.Pairwise fun t u => k.open? t = none ∨ k.open? u = none

/-- The sets inside of the type are ordered. -/
def Canonical (t : Ty) : Prop := t.Everywhere fun u => Ordered u.parts

/-- The types are ordered, and so are the sets inside of them. -/
structure CanonicalAll (ts : List Ty) : Prop where
  ordered : Ordered ts
  members : ∀ t ∈ ts, t.Canonical

theorem ordered_nil : Ordered [] := ⟨.nil, fun _ => .nil⟩

theorem canonicalAll_nil : CanonicalAll [] := ⟨ordered_nil, by simp⟩

theorem canonical_iff {t : Ty} : t.Canonical ↔ CanonicalAll t.parts :=
  ⟨fun h => ⟨h.here, h.inside⟩, fun h => .intro h.ordered h.members⟩

theorem canonical_of {k : Holder} {ts : List Ty} : (k.of ts).Canonical ↔ CanonicalAll ts := by
  rw [canonical_iff, parts_of]

/-- A set has one holder of a kind at most. -/
theorem Ordered.holder_unique {k : Holder} {es fs ts : List Ty} (h : Ordered ts)
    (hes : k.of es ∈ ts) (hfs : k.of fs ∈ ts) : es = fs := by
  by_contra hne
  have hsymm : Std.Symm fun t u => k.open? t = none ∨ k.open? u = none := ⟨fun _ _ => Or.symm⟩
  have hof : k.of es ≠ k.of fs := by
    intro heq
    have := congrArg k.open? heq
    simp only [Holder.open?_of, Option.some.injEq] at this
    exact hne this
  rcases (h.apart k).forall hes hfs hof with hopen | hopen
  · rw [Holder.open?_of] at hopen
    cases hopen
  · rw [Holder.open?_of] at hopen
    cases hopen

/-- A type at its place: no holder of its kind is there. -/
theorem insertSorted_ordered {t : Ty} {ts : List Ty} (h : Ordered ts)
    (happart : ∀ k : Holder, k.open? t = none ∨ ∀ u ∈ ts, k.open? u = none) :
    Ordered (insertSorted t ts) := by
  rcases insertSorted_cases t ts with ⟨-, heq⟩ | ⟨before, after, rfl, heq, hbetween⟩
  · rwa [heq]
  · rw [heq]
    obtain ⟨hbefore, hafter⟩ := hbetween h.increasing
    have hinc := List.pairwise_append.mp h.increasing
    constructor
    · refine List.pairwise_append.mpr ⟨hinc.1, List.pairwise_cons.mpr ⟨hafter, hinc.2.1⟩, ?_⟩
      intro u hu w hw
      rcases List.mem_cons.mp hw with rfl | hw
      · exact hbefore u hu
      · exact hinc.2.2 u hu w hw
    · -- No other holder of its kind is in the set.
      intro k
      have hk := List.pairwise_append.mp (h.apart k)
      refine List.pairwise_append.mpr ⟨hk.1, List.pairwise_cons.mpr ⟨fun u hu => ?_, hk.2.1⟩, ?_⟩
      · exact (happart k).imp_right fun hall => hall u (List.mem_append_right before hu)
      · intro u hu w hw
        rcases List.mem_cons.mp hw with rfl | hw
        · exact (happart k).symm.imp_left fun hall => hall u (List.mem_append_left after hu)
        · exact hk.2.2 u hu w hw

/-- What a holder of the set holds may change: its neighbours are of other kinds. -/
theorem ordered_change {k : Holder} {before there after : List Ty}
    (h : Ordered (before ++ k.of there :: after)) (es : List Ty) :
    Ordered (before ++ k.of es :: after) := by
  have hk := List.pairwise_append.mp (h.apart k)
  have hafter : ∀ u ∈ after, k.open? u = none := by
    intro u hu
    simpa using (List.pairwise_cons.mp hk.2.1).1 u hu
  have hbefore : ∀ u ∈ before, k.open? u = none := by
    intro u hu
    simpa using hk.2.2 u hu (k.of there) List.mem_cons_self
  constructor
  · obtain ⟨hleft, hright, hcross⟩ := List.pairwise_append.mp h.increasing
    obtain ⟨hhead, htail⟩ := List.pairwise_cons.mp hright
    refine List.pairwise_append.mpr ⟨hleft, List.pairwise_cons.mpr ⟨fun u hu => ?_, htail⟩, ?_⟩
    · rw [Holder.cmp_of_left (hafter u hu) es there]
      exact hhead u hu
    · intro u hu w hw
      rcases List.mem_cons.mp hw with rfl | hw
      · rw [Holder.cmp_of_right (hbefore u hu) es there]
        exact hcross u hu _ List.mem_cons_self
      · exact hcross u hu w (List.mem_cons_of_mem _ hw)
  · -- The holder stays the only one of its kind, whatever it holds.
    intro l
    obtain ⟨hleft, hright, hcross⟩ := List.pairwise_append.mp (h.apart l)
    obtain ⟨-, htail⟩ := List.pairwise_cons.mp hright
    by_cases hl : l = k
    · subst hl
      refine List.pairwise_append.mpr
        ⟨hleft, List.pairwise_cons.mpr ⟨fun u hu => .inr (hafter u hu), htail⟩, ?_⟩
      exact fun u hu w _ => .inl (hbefore u hu)
    · have hnone : l.open? (k.of es) = none := Holder.open?_of_of_ne hl es
      refine List.pairwise_append.mpr
        ⟨hleft, List.pairwise_cons.mpr ⟨fun _ _ => .inl hnone, htail⟩, ?_⟩
      intro u hu w hw
      rcases List.mem_cons.mp hw with rfl | hw
      · exact .inr hnone
      · exact hcross u hu w (List.mem_cons_of_mem _ hw)

theorem mem_insertSorted {t u : Ty} {ts : List Ty} (h : u ∈ insertSorted t ts) :
    u = t ∨ u ∈ ts := by
  rcases insertSorted_cases t ts with ⟨-, heq⟩ | ⟨before, after, rfl, heq, -⟩
  · exact .inr (heq ▸ h)
  · rw [heq] at h
    simpa [or_left_comm] using h

mutual

/-- Adding a type of the form keeps the form. -/
theorem addTo_canonical {t : Ty} {ts : List Ty} (ht : t.Canonical) (hts : CanonicalAll ts) :
    CanonicalAll (addTo t ts) := by
  rcases addTo_cases t ts with
    ⟨k, es, before, there, after, htes, hsplit, heq⟩ | ⟨heq, happart⟩
  · have hlt : sizeOf es < sizeOf t := htes ▸ sizeOf_lt_of k es
    subst htes hsplit
    have hthere := canonical_of.mp (hts.members (k.of there) (by simp))
    have hjoined := addAllTo_canonical (canonical_of.mp ht).members hthere
    rw [heq]
    refine ⟨ordered_change hts.ordered _, fun u hu => ?_⟩
    rcases List.mem_append.mp hu with hu | hu
    · exact hts.members u (by simp [hu])
    · rcases List.mem_cons.mp hu with rfl | hu
      · exact canonical_of.mpr hjoined
      · exact hts.members u (by simp [hu])
  · rw [heq]
    refine ⟨insertSorted_ordered hts.ordered happart, fun u hu => ?_⟩
    rcases mem_insertSorted hu with rfl | hu
    · exact ht
    · exact hts.members u hu
  termination_by sizeOf t

/-- Adding types of the form keeps the form. -/
theorem addAllTo_canonical {es ts : List Ty} (hes : ∀ e ∈ es, e.Canonical)
    (hts : CanonicalAll ts) : CanonicalAll (addAllTo es ts) := by
  match es with
  | [] => simpa [addAllTo] using hts
  | e :: es =>
    rw [addAllTo]
    have hadd := addTo_canonical (hes e List.mem_cons_self) hts
    exact addAllTo_canonical (fun u hu => hes u (List.mem_cons_of_mem e hu)) hadd
  termination_by sizeOf es

end

/-- The last type of an ordered set is put behind the others. -/
theorem addTo_last {t : Ty} {ts : List Ty} (h : Ordered (ts ++ [t])) : addTo t ts = ts ++ [t] := by
  have hlt : ∀ u ∈ ts, u.cmp t = .lt := fun u hu =>
    (List.pairwise_append.mp h.increasing).2.2 u hu t (List.mem_singleton_self t)
  rcases addTo_cases t ts with ⟨k, es, before, there, after, rfl, rfl, -⟩ | ⟨heq, -⟩
  · -- A holder of the kind is there, but it would be the second one.
    have hsame : es = there := h.holder_unique (k := k) (by simp) (by simp)
    have := hlt (k.of there) (by simp)
    rw [hsame, cmp_self] at this
    cases this
  · rw [heq]
    have hinc : Increasing ts := (List.pairwise_append.mp h.increasing).1
    rcases insertSorted_cases t ts with ⟨⟨u, hu, hequal⟩, -⟩ | ⟨before, after, rfl, hsplit, hsides⟩
    · have := hlt u hu
      rw [cmp_swap, hequal] at this
      cases this
    · cases after with
      | nil => simpa using hsplit
      | cons u after =>
        have hless := hlt u (by simp)
        rw [cmp_swap, (hsides hinc).2 u List.mem_cons_self] at hless
        cases hless

/-- The types of an ordered set, added one by one, are the set again. -/
theorem addAllTo_append {ts us : List Ty} (h : Ordered (ts ++ us)) : addAllTo us ts = ts ++ us := by
  induction us generalizing ts with
  | nil => simp [addAllTo]
  | cons u us ih =>
    have happend : ts ++ u :: us = ts ++ [u] ++ us := by simp
    rw [happend] at h ⊢
    have hfirst : Ordered (ts ++ [u]) :=
      ⟨(List.pairwise_append.mp h.increasing).1, fun k => (List.pairwise_append.mp (h.apart k)).1⟩
    rw [addAllTo, addTo_last hfirst, ih h]

/-! ### Properties of everything in a set -/

theorem addTo_ne_nil (t : Ty) (ts : List Ty) : addTo t ts ≠ [] := by
  rcases addTo_cases t ts with ⟨k, es, before, there, after, -, -, heq⟩ | ⟨heq, -⟩
  · simp [heq]
  · rw [heq]
    rcases insertSorted_cases t ts with ⟨⟨u, hu, -⟩, heq⟩ | ⟨before, after, -, heq, -⟩
    · rw [heq]
      exact List.ne_nil_of_mem hu
    · simp [heq]

theorem addAllTo_ne_nil (es : List Ty) {ts : List Ty} (h : ts ≠ []) : addAllTo es ts ≠ [] := by
  induction es generalizing ts with
  | nil => rwa [addAllTo]
  | cons e es ih =>
    rw [addAllTo]
    exact ih (addTo_ne_nil e ts)

/-- A holder that has the property keeps it when types are added to what it holds. -/
def Kept (P : Ty → Prop) : Prop :=
  ∀ (k : Holder) (es there : List Ty), P (k.of there) → P (k.of (addAllTo es there))

mutual

/-- A property that is kept is kept everywhere in a set to which types are added. -/
theorem everywhere_addTo {P : Ty → Prop} (hP : Kept P) {t : Ty} {ts : List Ty}
    (ht : t.Everywhere P) (hts : ∀ u ∈ ts, u.Everywhere P) :
    ∀ u ∈ addTo t ts, u.Everywhere P := by
  intro u hu
  rcases addTo_cases t ts with ⟨k, es, before, there, after, htes, rfl, heq⟩ | ⟨heq, -⟩
  · have hlt : sizeOf es < sizeOf t := htes ▸ sizeOf_lt_of k es
    subst htes
    obtain ⟨hhere, hthere⟩ := everywhere_of.mp (hts (k.of there) (by simp))
    rw [heq] at hu
    rcases List.mem_append.mp hu with hu | hu
    · exact hts u (List.mem_append_left _ hu)
    · rcases List.mem_cons.mp hu with rfl | hu
      · exact everywhere_of.mpr
          ⟨hP k es there hhere, everywhere_addAllTo hP (everywhere_of.mp ht).2 hthere⟩
      · exact hts u (List.mem_append_right _ (List.mem_cons_of_mem _ hu))
  · rw [heq] at hu
    rcases mem_insertSorted hu with rfl | hu
    · exact ht
    · exact hts u hu
  termination_by sizeOf t

theorem everywhere_addAllTo {P : Ty → Prop} (hP : Kept P) {es ts : List Ty}
    (hes : ∀ e ∈ es, e.Everywhere P) (hts : ∀ u ∈ ts, u.Everywhere P) :
    ∀ u ∈ addAllTo es ts, u.Everywhere P := by
  match es with
  | [] => simpa [addAllTo] using hts
  | e :: es =>
    rw [addAllTo]
    have hadd := everywhere_addTo hP (hes e List.mem_cons_self) hts
    exact everywhere_addAllTo hP (fun u hu => hes u (List.mem_cons_of_mem e hu)) hadd
  termination_by sizeOf es

end

/-- No list or dictionary in the type holds nothing. -/
def Filled (t : Ty) : Prop := t.Everywhere fun u => ∀ k : Holder, u ≠ k.of []

theorem ne_empty_of_plain {t : Ty} (h : ∀ k : Holder, k.open? t = none) (k : Holder) :
    t ≠ k.of [] := by
  rintro rfl
  have hnone := h k
  rw [Holder.open?_of] at hnone
  cases hnone

theorem of_ne_empty_iff {k : Holder} {ts : List Ty} :
    (∀ l : Holder, k.of ts ≠ l.of []) ↔ ts ≠ [] := by
  constructor
  · rintro h rfl
    exact h k rfl
  · intro h l heq
    have hparts := congrArg parts heq
    rw [parts_of, parts_of] at hparts
    exact h hparts

theorem filled_of_plain {t : Ty} (h : ∀ k : Holder, k.open? t = none) : t.Filled :=
  everywhere_of_plain h (ne_empty_of_plain h)

theorem filled_of_iff {k : Holder} {ts : List Ty} :
    (k.of ts).Filled ↔ ts ≠ [] ∧ ∀ t ∈ ts, t.Filled :=
  everywhere_of.trans (and_congr_left' of_ne_empty_iff)

end Ty

/-! ### The sets that are built -/

namespace TypeSet

/-- No list or dictionary in the set holds nothing. -/
def Filled (s : TypeSet) : Prop := ∀ t ∈ s.members, t.Filled

/-- The members are ordered, and so are the sets inside of them. -/
def Canonical (s : TypeSet) : Prop := Ty.CanonicalAll s.members

theorem single_members (t : Ty) : (single t).members = [t] := by
  cases t <;> rfl

theorem ofList_members {s : TypeSet} (h : s.Canonical) : ofList s.members = s := by
  show mk (Ty.addAllTo s.members []) = s
  rw [Ty.addAllTo_append (by simpa using h.ordered), List.nil_append]

theorem Canonical.insert {s : TypeSet} {t : Ty} (hs : s.Canonical) (ht : t.Canonical) :
    (s.insert t).Canonical := Ty.addTo_canonical ht hs

theorem Canonical.union {a b : TypeSet} (ha : a.Canonical) (hb : b.Canonical) :
    (a.union b).Canonical := Ty.addAllTo_canonical hb.members ha

theorem canonical_ofList {ts : List Ty} (h : ∀ t ∈ ts, t.Canonical) : (ofList ts).Canonical :=
  Ty.addAllTo_canonical h Ty.canonicalAll_nil

end TypeSet

mutual

/-- A type whose sets are built by the operations on sets. -/
inductive Ty.Built : Ty → Prop where
  | plain {t : Ty} : (∀ k : Holder, k.open? t = none) → Ty.Built t
  | listType {s : TypeSet} : TypeSet.Built s → Ty.Built s.listType
  | dictType {s : TypeSet} : TypeSet.Built s → Ty.Built s.dictType

/-- A set that is built by the operations on sets. -/
inductive TypeSet.Built : TypeSet → Prop where
  | empty : TypeSet.Built {}
  | single {t : Ty} : Ty.Built t → TypeSet.Built (TypeSet.single t)
  | any : TypeSet.Built TypeSet.any
  | insert {s : TypeSet} {t : Ty} : TypeSet.Built s → Ty.Built t → TypeSet.Built (s.insert t)
  | union {a b : TypeSet} : TypeSet.Built a → TypeSet.Built b → TypeSet.Built (a.union b)
  | ofList {ts : List Ty} : (∀ t ∈ ts, Ty.Built t) → TypeSet.Built (TypeSet.ofList ts)

end

theorem Ty.canonical_of_plain {t : Ty} (h : ∀ k : Holder, k.open? t = none) : t.Canonical :=
  everywhere_of_plain h (by rw [parts_of_plain h]; exact ordered_nil)

mutual

theorem Ty.Built.canonical : {t : Ty} → t.Built → t.Canonical
  | _, .plain hplain => Ty.canonical_of_plain hplain
  | _, .listType hs => Ty.canonical_of (k := .list).mpr (TypeSet.Built.canonical hs)
  | _, .dictType hs => Ty.canonical_of (k := .dict).mpr (TypeSet.Built.canonical hs)

/-- Every set that the operations build has the form. -/
theorem TypeSet.Built.canonical : {s : TypeSet} → s.Built → s.Canonical
  | _, .empty => Ty.canonicalAll_nil
  | _, .single ht => TypeSet.canonical_ofList (by simpa using Ty.Built.canonical ht)
  | _, .any =>
    TypeSet.canonical_ofList (by
      simpa using Ty.canonical_of_plain (t := .any) fun k => by cases k <;> rfl)
  | _, .insert hs ht => (TypeSet.Built.canonical hs).insert (Ty.Built.canonical ht)
  | _, .union ha hb => (TypeSet.Built.canonical ha).union (TypeSet.Built.canonical hb)
  | _, .ofList hts => TypeSet.canonical_ofList fun t ht => Ty.Built.canonical (hts t ht)

end

/-- What has the form is built from its parts. -/
theorem Ty.built_of_canonical (t : Ty) (h : t.Canonical) : t.Built := by
  rcases holder_cases t with ⟨k, es, htes⟩ | hplain
  · have hset : TypeSet.Built ⟨es⟩ := by
      rw [htes, canonical_of] at h
      rw [← TypeSet.ofList_members (s := ⟨es⟩) h]
      refine .ofList fun u hu => ?_
      have hlt : sizeOf u < sizeOf t := sizeOf_lt_of_mem_parts (by rwa [htes, parts_of])
      exact built_of_canonical u (h.members u hu)
    subst htes
    cases k with
    | list => exact .listType hset
    | dict => exact .dictType hset
  · exact .plain hplain
  termination_by sizeOf t
  decreasing_by exact hlt

/-- The sets that the operations build are exactly those of the form. -/
theorem TypeSet.built_iff_canonical {s : TypeSet} : s.Built ↔ s.Canonical := by
  refine ⟨TypeSet.Built.canonical, fun h => ?_⟩
  rw [← TypeSet.ofList_members h]
  exact .ofList fun t ht => Ty.built_of_canonical t (h.members t ht)

end MesonLens
