import MesonLens.Analysis.Scope
import Mathlib.Data.List.Basic

/-!
# `MesonLens.Proofs.Analysis.Scope`: where a variable comes from

`Scope.originsOf s x` are the origins of the variable `x` in the scope `s`. The lemmas say
what each operation on a scope does to them: `Scope.assign` replaces them, an operation on
another variable keeps them, and `Scope.merge` joins those of both scopes.

A scope lists its variables in pairs, and nothing in the type keeps a name from having two.
`Scope.Tidy x s` says that `x` has at most one pair and that its origins do not repeat.
Every operation keeps it.
-/

set_option autoImplicit false

namespace MesonLens

namespace Binding

theorem mem_addOrigins {known more : List Origin} {o : Origin} :
    o ∈ addOrigins known more ↔ o ∈ known ∨ o ∈ more := by
  unfold addOrigins
  induction more generalizing known with
  | nil => simp
  | cons m more ih =>
    rw [List.foldl_cons, ih]
    by_cases hm : m ∈ known
    · simp only [hm, if_true, List.mem_cons]
      constructor
      · rintro (h | h)
        · exact .inl h
        · exact .inr (.inr h)
      · rintro (h | rfl | h)
        · exact .inl h
        · exact .inl hm
        · exact .inr h
    · simp [hm, or_assoc]

theorem nodup_addOrigins {known : List Origin} (more : List Origin) (h : known.Nodup) :
    (addOrigins known more).Nodup := by
  unfold addOrigins
  induction more generalizing known with
  | nil => exact h
  | cons m more ih =>
    rw [List.foldl_cons]
    apply ih
    split
    · exact h
    · rename_i hm
      rw [List.nodup_append]
      refine ⟨h, by simp, fun a ha b hb => ?_⟩
      rw [List.mem_singleton] at hb
      rintro rfl
      exact hm (hb ▸ ha)

end Binding

namespace Scope

/-! ### Pairs of names and bindings -/

theorem lookup_setIn_self (name : String) (b : Binding) (l : List (String × Binding)) :
    (setIn name b l).lookup name = some b := by
  induction l with
  | nil => simp [setIn]
  | cons p l ih =>
    obtain ⟨n, old⟩ := p
    by_cases h : n = name
    · simp [setIn, h]
    · have hb : (name == n) = false := by simpa using Ne.symm h
      simp [setIn, h, List.lookup_cons, ih, hb]

theorem lookup_setIn_of_ne {name x : String} (h : x ≠ name) (b : Binding)
    (l : List (String × Binding)) : (setIn name b l).lookup x = l.lookup x := by
  have hb : (x == name) = false := by simpa using h
  induction l with
  | nil => simp [setIn, List.lookup_cons, hb]
  | cons p l ih =>
    obtain ⟨n, old⟩ := p
    by_cases hn : n = name
    · simp [setIn, hn, List.lookup_cons, hb]
    · simp [setIn, hn, List.lookup_cons, ih]

theorem keys_setIn (name : String) (b : Binding) (l : List (String × Binding)) :
    (setIn name b l).map Prod.fst =
      if name ∈ l.map Prod.fst then l.map Prod.fst else l.map Prod.fst ++ [name] := by
  induction l with
  | nil => simp [setIn]
  | cons p l ih =>
    obtain ⟨n, old⟩ := p
    by_cases hn : n = name
    · simp [setIn, hn]
    · simp only [setIn, hn, if_false, List.map_cons, ih, List.mem_cons, Ne.symm hn, false_or]
      split <;> simp

/-- A name that no pair has is not found. -/
theorem lookup_eq_none_iff (x : String) (l : List (String × Binding)) :
    l.lookup x = none ↔ x ∉ l.map Prod.fst := by
  rw [List.lookup_eq_none_iff]
  simp only [List.mem_map, not_exists, not_and, bne_iff_ne]
  exact ⟨fun h p hp hx => h p hp hx.symm, fun h p hp hx => h p hp hx.symm⟩

/-! ### Origins -/

/-- Where a variable can come from. -/
def originsOf (s : Scope) (x : String) : List Origin :=
  ((s.get? x).map Binding.origins).getD []

theorem get?_set_self (s : Scope) (x : String) (b : Binding) : (s.set x b).get? x = some b :=
  lookup_setIn_self x b s.bindings

theorem get?_set_of_ne (s : Scope) {x name : String} (h : x ≠ name) (b : Binding) :
    (s.set name b).get? x = s.get? x :=
  lookup_setIn_of_ne h b s.bindings

theorem contains_set {s : Scope} {x name : String} {b : Binding} :
    (s.set name b).contains x = true ↔ x = name ∨ s.contains x = true := by
  unfold contains
  by_cases hx : x = name
  · simp [hx, get?_set_self]
  · simp [hx, get?_set_of_ne s hx]

/-- The variable has at most one pair, and its origins do not repeat. -/
structure Tidy (x : String) (s : Scope) : Prop where
  count_le : (s.bindings.map Prod.fst).count x ≤ 1
  nodup : (s.originsOf x).Nodup

@[simp] theorem originsOf_set_self (s : Scope) (x : String) (b : Binding) :
    (s.set x b).originsOf x = b.origins := by
  simp [originsOf, get?, set, lookup_setIn_self]

theorem originsOf_set_of_ne (s : Scope) {x name : String} (h : x ≠ name) (b : Binding) :
    (s.set name b).originsOf x = s.originsOf x := by
  simp [originsOf, get?, set, lookup_setIn_of_ne h]

/-- Setting a variable leaves at most one pair for every name that had at most one. -/
theorem Tidy.set {s : Scope} {x : String} (h : Tidy x s) (name : String) {b : Binding}
    (hb : x = name → b.origins.Nodup) : Tidy x (s.set name b) := by
  constructor
  · change ((setIn name b s.bindings).map Prod.fst).count x ≤ 1
    rw [keys_setIn]
    split
    · exact h.count_le
    · rename_i hmem
      rw [List.count_append]
      by_cases hx : x = name
      · subst hx
        simp [List.count_eq_zero.mpr hmem]
      · simpa [List.count_singleton, Ne.symm hx] using h.count_le
  · by_cases hx : x = name
    · subst hx
      simpa using hb rfl
    · rw [originsOf_set_of_ne s hx]
      exact h.nodup

/-- A scope without the variable is tidy. -/
theorem tidy_of_contains_eq_false {s : Scope} {x : String} (h : s.contains x = false) :
    Tidy x s ∧ s.originsOf x = [] := by
  have hget : s.get? x = none := by simpa [contains] using h
  have horigins : s.originsOf x = [] := by simp [originsOf, hget]
  refine ⟨⟨?_, by simp [horigins]⟩, horigins⟩
  rw [List.count_eq_zero.mpr ((lookup_eq_none_iff x s.bindings).mp hget)]
  exact Nat.zero_le 1

/-- A change of what another variable holds. -/
theorem originsOf_update_of_ne (s : Scope) {x name : String} (h : x ≠ name) (types : TypeSet)
    (origin : Option Origin) : (s.update name types origin).originsOf x = s.originsOf x := by
  unfold update
  split
  · exact originsOf_set_of_ne s h _
  · exact originsOf_set_of_ne s h _

theorem Tidy.update_of_ne {s : Scope} {x name : String} (hs : Tidy x s) (h : x ≠ name)
    (types : TypeSet) (origin : Option Origin) : Tidy x (s.update name types origin) := by
  unfold update
  split
  · exact hs.set name fun hx => absurd hx h
  · exact hs.set name fun hx => absurd hx h

/-! ### Merging -/

theorem originsOf_mergeOne_of_ne (s : Scope) {x name : String} (h : x ≠ name) (b : Binding) :
    (s.mergeOne name b).originsOf x = s.originsOf x := by
  unfold mergeOne
  split <;> exact originsOf_set_of_ne s h _

theorem mem_originsOf_mergeOne_self (s : Scope) (x : String) (b : Binding) (o : Origin) :
    o ∈ (s.mergeOne x b).originsOf x ↔ o ∈ s.originsOf x ∨ o ∈ b.origins := by
  unfold mergeOne
  split
  · rename_i there hthere
    have hs : s.originsOf x = there.origins := by simp [originsOf, hthere]
    rw [originsOf_set_self, hs]
    exact Binding.mem_addOrigins
  · rename_i hnone
    have hs : s.originsOf x = [] := by simp [originsOf, hnone]
    simp [hs]

theorem Tidy.mergeOne {s : Scope} {x : String} (h : Tidy x s) (name : String) {b : Binding}
    (hb : x = name → b.origins.Nodup) : Tidy x (s.mergeOne name b) := by
  unfold Scope.mergeOne
  split
  · rename_i there hthere
    refine h.set name fun hx => Binding.nodup_addOrigins _ ?_
    subst hx
    simpa [originsOf, hthere] using h.nodup
  · exact h.set name hb

theorem contains_mergeOne {s : Scope} {x name : String} {b : Binding} :
    (s.mergeOne name b).contains x = true ↔ x = name ∨ s.contains x = true := by
  unfold mergeOne
  split <;> exact contains_set

/-- What is known on the one way is known where the ways have come together. -/
theorem contains_merge_left {a : Scope} (b : Scope) {x : String} (h : a.contains x = true) :
    (a.merge b).contains x = true := by
  obtain ⟨l⟩ := b
  unfold merge
  induction l generalizing a with
  | nil => exact h
  | cons p l ih => exact ih (contains_mergeOne.mpr (.inr h))

/-- And so is what is known on the other way. -/
theorem contains_merge_right (a : Scope) {b : Scope} {x : String} (h : b.contains x = true) :
    (a.merge b).contains x = true := by
  obtain ⟨l⟩ := b
  unfold merge
  induction l generalizing a with
  | nil => cases h
  | cons p l ih =>
    obtain ⟨name, binding⟩ := p
    by_cases hx : x = name
    · exact contains_merge_left ⟨l⟩ (contains_mergeOne.mpr (.inl hx))
    · refine ih _ ?_
      have hb : (x == name) = false := by simpa using hx
      simpa [contains, get?, List.lookup_cons, hb] using h

/-- Where a variable comes from on the one way, it comes from where the ways have come together. -/
theorem mem_originsOf_merge_left {a : Scope} (b : Scope) {x : String} {o : Origin}
    (h : o ∈ a.originsOf x) : o ∈ (a.merge b).originsOf x := by
  obtain ⟨l⟩ := b
  unfold merge
  induction l generalizing a with
  | nil => exact h
  | cons p l ih =>
    obtain ⟨name, binding⟩ := p
    refine ih ?_
    by_cases hx : x = name
    · subst hx
      exact (mem_originsOf_mergeOne_self a x binding o).mpr (.inl h)
    · rwa [originsOf_mergeOne_of_ne a hx]

theorem originsOf_cons_self (x : String) (b : Binding) (l : List (String × Binding)) :
    (Scope.mk ((x, b) :: l)).originsOf x = b.origins := by
  simp [originsOf, get?]

theorem originsOf_cons_of_ne {x name : String} (h : x ≠ name) (b : Binding)
    (l : List (String × Binding)) :
    (Scope.mk ((name, b) :: l)).originsOf x = (Scope.mk l).originsOf x := by
  have hb : (x == name) = false := by simpa using h
  simp [originsOf, get?, List.lookup_cons, hb]

/-- And so it does for the other way. -/
theorem mem_originsOf_merge_right (a : Scope) {b : Scope} {x : String} {o : Origin}
    (h : o ∈ b.originsOf x) : o ∈ (a.merge b).originsOf x := by
  obtain ⟨l⟩ := b
  unfold merge
  induction l generalizing a with
  | nil => cases h
  | cons p l ih =>
    obtain ⟨name, binding⟩ := p
    by_cases hx : x = name
    · subst hx
      rw [originsOf_cons_self] at h
      exact mem_originsOf_merge_left ⟨l⟩ ((mem_originsOf_mergeOne_self a x binding o).mpr (.inr h))
    · rw [originsOf_cons_of_ne hx] at h
      exact ih _ h

/-- Without its pair the variable comes from nowhere. -/
theorem Tidy.contains_tail_eq_false {x : String} {b : Binding} {l : List (String × Binding)}
    (h : Tidy x ⟨(x, b) :: l⟩) : (Scope.mk l).contains x = false := by
  have hcount : (l.map Prod.fst).count x = 0 := by simpa using h.count_le
  have hnone := (lookup_eq_none_iff x l).mpr (List.count_eq_zero.mp hcount)
  simp [contains, get?, hnone]

theorem Tidy.tail {x name : String} {b : Binding} {l : List (String × Binding)}
    (h : Tidy x ⟨(name, b) :: l⟩) : Tidy x ⟨l⟩ := by
  by_cases hx : x = name
  · subst hx
    exact (tidy_of_contains_eq_false h.contains_tail_eq_false).1
  · constructor
    · simpa [List.count_cons, Ne.symm hx] using h.count_le
    · simpa [originsOf_cons_of_ne hx] using h.nodup

/-- The one pair of the variable is the one that is found. -/
theorem Tidy.get?_eq_some_iff {x : String} {b : Binding} {s : Scope} (h : Tidy x s) :
    s.get? x = some b ↔ (x, b) ∈ s.bindings := by
  obtain ⟨l⟩ := s
  induction l with
  | nil => simp [get?]
  | cons p l ih =>
    obtain ⟨name, old⟩ := p
    by_cases hx : x = name
    · subst hx
      have hnone : x ∉ l.map Prod.fst := by
        rw [← lookup_eq_none_iff]
        simpa [contains, get?] using h.contains_tail_eq_false
      have hrest : (x, b) ∉ l := fun hb => hnone (List.mem_map_of_mem hb)
      simp [get?, hrest, eq_comm]
    · have hb : (x == name) = false := by simpa using hx
      have htail : l.lookup x = some b ↔ (x, b) ∈ l := ih h.tail
      simp [get?, List.lookup_cons, hb, hx, htail]

/-- Where the second scope is tidy, the variable comes from where it comes from in either. -/
theorem mem_originsOf_merge {a b : Scope} {x : String} (hb : Tidy x b) (o : Origin) :
    o ∈ (a.merge b).originsOf x ↔ o ∈ a.originsOf x ∨ o ∈ b.originsOf x := by
  obtain ⟨l⟩ := b
  unfold merge
  induction l generalizing a with
  | nil => simp [originsOf, get?]
  | cons p l ih =>
    obtain ⟨name, binding⟩ := p
    rw [List.foldl_cons, ih hb.tail]
    by_cases hx : x = name
    · -- The variable has its one pair here, so the rest of the list has none.
      subst hx
      rw [(tidy_of_contains_eq_false hb.contains_tail_eq_false).2, originsOf_cons_self,
        mem_originsOf_mergeOne_self]
      simp
    · rw [originsOf_cons_of_ne hx, originsOf_mergeOne_of_ne a hx]

theorem Tidy.merge {a b : Scope} {x : String} (ha : Tidy x a) (hb : Tidy x b) :
    Tidy x (a.merge b) := by
  obtain ⟨l⟩ := b
  unfold Scope.merge
  induction l generalizing a with
  | nil => exact ha
  | cons p l ih =>
    obtain ⟨name, binding⟩ := p
    rw [List.foldl_cons]
    refine ih (ha.mergeOne name fun hx => ?_) hb.tail
    subst hx
    simpa [originsOf_cons_self] using hb.nodup

end Scope

end MesonLens
