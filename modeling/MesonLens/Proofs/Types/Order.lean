import MesonLens.Types.TypeSet
import Mathlib.Data.List.Basic

/-!
# `MesonLens.Proofs.Types.Order`: the order of types

`Ty.cmp` compares two types from the outside to the inside, sequences of types member by member.
`Ty.code` writes a type as a word of numbers, and no such word is the beginning of another one. So
types are ordered as their words are in a dictionary:

* `Ty.cmp_eq_compare`: the order of types is the order of their codes. That it is total and
  transitive is then a fact about words;
* `Ty.cmp_eq_iff`: types that compare as equal have one code; they differ in the names of objects
  at most;
* `Ty.searchFrom_ok`, `Ty.searchFrom_error`: what a search by halves tells;
* `Ty.insertSorted_cases`: what putting a type at its place can do to a sequence. Everything about
  sets that grow is derived from it.
-/

set_option autoImplicit false

namespace MesonLens

namespace Ty

/-! ### Types as words -/

mutual

/-- A type as a word of numbers. -/
def code : Ty → List Nat
  | list ts => 6 :: codeAll ts
  | dict ts => 7 :: codeAll ts
  | object id _ => [8, id]
  | t => [t.rank]

/-- Types as one word: a 1 before each, and a 0 at the end. -/
def codeAll : List Ty → List Nat
  | [] => [0]
  | t :: ts => 1 :: (code t ++ codeAll ts)

end

/-! The words go on with anything, so that a type in front of others can be told from a longer
one. -/

mutual

theorem compare_code_append (a b : Ty) (r s : List Nat) :
    compare (a.code ++ r) (b.code ++ s) = (a.cmp b).then (compare r s) := by
  -- Words of two families differ in their first number already.
  cases a <;> cases b <;>
    simp [code, cmp, rank, compare_codeAll_append] <;> rfl

theorem compare_codeAll_append (as bs : List Ty) (r s : List Nat) :
    compare (codeAll as ++ r) (codeAll bs ++ s) = (cmpAll as bs).then (compare r s) := by
  match as, bs with
  | [], [] => simp [codeAll, cmpAll]
  | [], b :: bs => simp [codeAll, cmpAll]; rfl
  | a :: as, [] => simp [codeAll, cmpAll]; rfl
  | a :: as, b :: bs =>
    simp [codeAll, cmpAll, compare_code_append, compare_codeAll_append, Ordering.then_assoc]

end

/-- Types are ordered as their codes are. -/
theorem cmp_eq_compare (a b : Ty) : a.cmp b = compare a.code b.code := by
  simpa using (compare_code_append a b [] []).symm

theorem cmpAll_eq_compare (as bs : List Ty) :
    cmpAll as bs = compare (codeAll as) (codeAll bs) := by
  simpa using (compare_codeAll_append as bs [] []).symm

theorem cmp_swap (a b : Ty) : a.cmp b = (b.cmp a).swap := by
  rw [cmp_eq_compare, cmp_eq_compare]
  exact Std.OrientedCmp.eq_swap

/-- The order is total and transitive. -/
instance : Std.TransCmp cmp where
  eq_swap := cmp_swap _ _
  isLE_trans {a b c} hab hbc := by
    rw [cmp_eq_compare] at hab hbc ⊢
    exact Std.TransCmp.isLE_trans hab hbc

theorem cmp_self (t : Ty) : t.cmp t = .eq := Std.ReflCmp.compare_self

/-- Types that compare as equal have one code. -/
theorem cmp_eq_iff {a b : Ty} : a.cmp b = .eq ↔ a.code = b.code := by
  rw [cmp_eq_compare]
  exact Std.LawfulEqCmp.compare_eq_iff_eq

theorem cmpAll_eq_iff {as bs : List Ty} : cmpAll as bs = .eq ↔ codeAll as = codeAll bs := by
  rw [cmpAll_eq_compare]
  exact Std.LawfulEqCmp.compare_eq_iff_eq

theorem beq_iff {a b : Ty} : (a == b) = true ↔ a.cmp b = .eq := by
  show (a.cmp b == .eq) = true ↔ _
  simp

/-- Sequences whose types have the same codes one by one are equal. -/
theorem codeAll_congr {as bs : List Ty} (h : as.map code = bs.map code) :
    codeAll as = codeAll bs := by
  induction as generalizing bs with
  | nil =>
    obtain rfl := List.map_eq_nil_iff.mp h.symm
    rfl
  | cons a as ih =>
    cases bs with
    | nil => simp at h
    | cons b bs =>
      obtain ⟨hhead, htail⟩ := List.cons.inj h
      simp only [codeAll, hhead, ih htail]

/-! ### Searching -/

/-- The types are in strictly increasing order. -/
def Increasing (ts : List Ty) : Prop := ts.Pairwise fun t u => t.cmp u = .lt

/-- A search that finds a place finds an equal type. -/
theorem searchFrom_ok {t : Ty} {rounds start place : Nat} {ts : List Ty}
    (h : searchFrom t rounds start ts = .ok place) : ∃ u ∈ ts, t.cmp u = .eq := by
  induction rounds generalizing start ts with
  | zero => simp [searchFrom] at h
  | succ rounds ih =>
    unfold searchFrom at h
    split at h
    · cases h
    · rename_i u after hdrop
      have hmem : ∀ w ∈ u :: after, w ∈ ts := fun w hw => List.mem_of_mem_drop (hdrop ▸ hw)
      split at h
      · obtain ⟨w, hw, heq⟩ := ih h
        exact ⟨w, List.mem_of_mem_take hw, heq⟩
      · exact ⟨u, hmem u List.mem_cons_self, by assumption⟩
      · obtain ⟨w, hw, heq⟩ := ih h
        exact ⟨w, hmem w (List.mem_cons_of_mem u hw), heq⟩

/-- The type belongs between the two sequences. -/
def Between (t : Ty) (before after : List Ty) : Prop :=
  (∀ u ∈ before, u.cmp t = .lt) ∧ ∀ u ∈ after, t.cmp u = .lt

theorem Between.append_right {t u : Ty} {before after right : List Ty}
    (h : Between t before after) (hlt : t.cmp u = .lt) (hinc : Increasing (u :: right)) :
    Between t before (after ++ u :: right) := by
  refine ⟨h.1, fun w hw => ?_⟩
  rcases List.mem_append.mp hw with hw | hw
  · exact h.2 w hw
  · rcases List.mem_cons.mp hw with rfl | hw
    · exact hlt
    · exact Std.TransCmp.lt_trans hlt ((List.pairwise_cons.mp hinc).1 w hw)

theorem Between.append_left {t u : Ty} {left before after : List Ty}
    (h : Between t before after) (hlt : u.cmp t = .lt) (hinc : ∀ w ∈ left, w.cmp u = .lt) :
    Between t (left ++ u :: before) after := by
  refine ⟨fun w hw => ?_, h.2⟩
  rcases List.mem_append.mp hw with hw | hw
  · exact Std.TransCmp.lt_trans (hinc w hw) hlt
  · rcases List.mem_cons.mp hw with rfl | hw
    · exact hlt
    · exact h.1 w hw

/-- A search that finds nothing divides the sequence. If that is increasing, the type belongs
between the parts. -/
theorem searchFrom_error {t : Ty} {rounds start place : Nat} {ts : List Ty}
    (hrounds : ts.length ≤ rounds) (h : searchFrom t rounds start ts = .error place) :
    ∃ before after, ts = before ++ after ∧ place = start + before.length ∧
      (Increasing ts → Between t before after) := by
  induction rounds generalizing start ts with
  | zero =>
    obtain rfl := List.eq_nil_of_length_eq_zero (Nat.le_zero.mp hrounds)
    obtain rfl : start = place := by simpa [searchFrom] using h
    exact ⟨[], [], rfl, rfl, fun _ => by simp [Between]⟩
  | succ rounds ih =>
    unfold searchFrom at h
    split at h
    · -- Nothing stands in the middle of the empty sequence only.
      rename_i hdrop
      have hlength := congrArg List.length hdrop
      rw [List.length_drop, List.length_nil] at hlength
      obtain rfl := List.eq_nil_of_length_eq_zero (l := ts) (by omega)
      obtain rfl : start = place := by simpa using h
      exact ⟨[], [], rfl, rfl, fun _ => by simp [Between]⟩
    · rename_i u right hdrop
      have hts : ts = ts.take (ts.length / 2) ++ u :: right := by
        rw [← hdrop, List.take_append_drop]
      have htake : (ts.take (ts.length / 2)).length = ts.length / 2 := by
        rw [List.length_take]
        omega
      generalize ts.take (ts.length / 2) = left at h hts htake
      have hlength : ts.length = left.length + (right.length + 1) := by
        rw [hts, List.length_append, List.length_cons]
      have hparts (hinc : Increasing ts) : Increasing left ∧ Increasing (u :: right) ∧
          ∀ w ∈ left, w.cmp u = .lt := by
        rw [Increasing, hts, List.pairwise_append] at hinc
        exact ⟨hinc.1, hinc.2.1, fun w hw => hinc.2.2 w hw u List.mem_cons_self⟩
      split at h
      · -- The type belongs to the left of the middle.
        rename_i hlt
        obtain ⟨before, after, rfl, hplace, hbetween⟩ := ih (by omega) h
        refine ⟨before, after ++ u :: right, by simp [hts], hplace, fun hinc => ?_⟩
        exact (hbetween (hparts hinc).1).append_right hlt (hparts hinc).2.1
      · cases h
      · -- The type belongs to the right of the middle.
        rename_i hgt
        have hlt : u.cmp t = .lt := by rw [cmp_swap, hgt]; rfl
        obtain ⟨before, after, rfl, hplace, hbetween⟩ := ih (by omega) h
        refine ⟨left ++ u :: before, after, by simp [hts], ?_, fun hinc => ?_⟩
        · rw [hplace, List.length_append, List.length_cons, htake]
          omega
        · exact (hbetween (hparts hinc).2.1.of_cons).append_left hlt (hparts hinc).2.2

/-- In an increasing sequence, a search finds exactly what is there. -/
theorem search_isOk_iff {t : Ty} {ts : List Ty} (h : Increasing ts) :
    (t.search ts).isOk = true ↔ ∃ u ∈ ts, t.cmp u = .eq := by
  cases hsearch : t.search ts with
  | ok place => exact ⟨fun _ => searchFrom_ok hsearch, fun _ => rfl⟩
  | error place =>
    refine ⟨fun hok => absurd hok (by simp [Except.isOk, Except.toBool]), ?_⟩
    rintro ⟨u, hu, heq⟩
    obtain ⟨before, after, rfl, -, hbetween⟩ := searchFrom_error (Nat.le_refl _) hsearch
    obtain ⟨hbefore, hafter⟩ := hbetween h
    rcases List.mem_append.mp hu with hu | hu
    · have := hbefore u hu
      rw [cmp_swap, heq] at this
      cases this
    · rw [hafter u hu] at heq
      cases heq

theorem insertIdx_length (t : Ty) (before after : List Ty) :
    (before ++ after).insertIdx before.length t = before ++ t :: after := by
  induction before with
  | nil => rfl
  | cons u before ih => simpa using ih

/-- A type that is put at its place is there already, or it is put between two parts of the
sequence. If that is increasing, it belongs there. -/
theorem insertSorted_cases (t : Ty) (ts : List Ty) :
    ((∃ u ∈ ts, t.cmp u = .eq) ∧ insertSorted t ts = ts) ∨
    ∃ before after, ts = before ++ after ∧ insertSorted t ts = before ++ t :: after ∧
      (Increasing ts → Between t before after) := by
  unfold insertSorted
  cases hsearch : t.search ts with
  | ok place => exact .inl ⟨searchFrom_ok hsearch, rfl⟩
  | error place =>
    obtain ⟨before, after, rfl, rfl, hbetween⟩ := searchFrom_error (Nat.le_refl _) hsearch
    refine .inr ⟨before, after, rfl, ?_, hbetween⟩
    show (before ++ after).insertIdx (0 + before.length) t = before ++ t :: after
    rw [Nat.zero_add, insertIdx_length]

end Ty

end MesonLens
