import MesonLens.Proofs.Types.Canonical
import MesonLens.Types.Expression

/-!
# `MesonLens.Proofs.Types.Expression`: sets of types as text and back

A set is printed member by member, and a holder as a word with what it holds in brackets. What is
printed is read back if three things hold of it. No list or dictionary in it is empty, because a
word without brackets is read as a list of anything. Every object is found by its name
(`Ty.Legible`). And the sets in it are in canonical form, so that the members, which are added one
by one, come to stand where they stood.

* `TypeExpr.term_display`, `TypeExpr.union_display`: a printed type, and printed types, are read
  back with anything after them that ends them;
* `TypeExpr.parse_display`: so a set that can be written is read back;
* `TypeExpr.written_union`: whatever was read can be written;
* `TypeExpr.parse_display_of_parse`: so whatever was read is read back.
-/

set_option autoImplicit false

namespace MesonLens

/-- A computation of two steps gives a result if both steps do. -/
theorem CatalogError.bind_eq_ok {α β : Type} {x : Except CatalogError α}
    {f : α → Except CatalogError β} {b : β} :
    (x >>= f) = .ok b ↔ ∃ a, x = .ok a ∧ f a = .ok b := by
  cases x <;> simp [bind, Except.bind]

namespace TypeExpr

/-- A name that a type expression can hold. -/
def IsWord (name : String) : Prop :=
  name.toList ≠ [] ∧ ∀ c ∈ name.toList, isNameChar c = true

instance : DecidablePred IsWord := fun name =>
  decidable_of_iff (name.toList.isEmpty = false ∧ name.toList.all isNameChar = true)
    (and_congr List.isEmpty_eq_false_iff List.all_eq_true)

/-- The name can stand in a type expression, and there it means the type. -/
structure Names (object? : String → Option Ty) (name : String) (t : Ty) : Prop where
  word : IsWord name
  free : name ∉ primitives
  found : object? name = some t

end TypeExpr

namespace Ty

/-- The type can be written: none of the lists and dictionaries in it is empty, and every object in
it is found by its name. -/
def Legible (object? : String → Option Ty) (t : Ty) : Prop :=
  t.Everywhere fun u => (∀ k : Holder, u ≠ k.of []) ∧
    ∀ id name, u = .object id name → TypeExpr.Names object? name u

variable {object? : String → Option Ty}

theorem legible_of {k : Holder} {ts : List Ty} :
    (k.of ts).Legible object? ↔ ts ≠ [] ∧ ∀ t ∈ ts, t.Legible object? := by
  refine everywhere_of.trans (and_congr_left' ?_)
  rw [of_ne_empty_iff]
  exact and_iff_left fun id name heq => by cases k <;> cases heq

end Ty

/-- The word before the brackets. -/
def Holder.word : Holder → String
  | list => "list"
  | dict => "dict"

namespace TypeExpr

variable {object? : String → Option Ty}

/-- A type that is read back from its text. -/
structure Written (object? : String → Option Ty) (t : Ty) : Prop where
  canonical : t.Canonical
  legible : t.Legible object?

/-- A set with members that is read back from its text. -/
structure WrittenSet (object? : String → Option Ty) (s : TypeSet) : Prop where
  canonical : s.Canonical
  legible : ∀ t ∈ s.members, t.Legible object?
  nonempty : s.members ≠ []

theorem WrittenSet.members {s : TypeSet} (h : WrittenSet object? s) :
    ∀ t ∈ s.members, Written object? t :=
  fun t ht => ⟨h.canonical.members t ht, h.legible t ht⟩

theorem written_of {k : Holder} {ts : List Ty} :
    Written object? (k.of ts) ↔ WrittenSet object? ⟨ts⟩ := by
  constructor
  · rintro ⟨hcanonical, hlegible⟩
    obtain ⟨hne, hall⟩ := Ty.legible_of.mp hlegible
    exact ⟨Ty.canonical_of.mp hcanonical, hall, hne⟩
  · intro h
    exact ⟨Ty.canonical_of.mpr h.canonical, Ty.legible_of.mpr ⟨h.nonempty, h.legible⟩⟩

/-! ### Printing -/

theorem display_of (k : Holder) {ts : List Ty} (h : ts ≠ []) :
    (k.of ts).display.toList = k.word.toList ++ '(' :: ((Ty.displayAll ts).toList ++ [')']) := by
  obtain ⟨t, ts, rfl⟩ := List.exists_cons_of_ne_nil h
  cases k <;> simp [Holder.of, Holder.word, Ty.display]

theorem displayAll_cons (t : Ty) {ts : List Ty} (h : ts ≠ []) :
    (Ty.displayAll (t :: ts)).toList = t.display.toList ++ '|' :: (Ty.displayAll ts).toList := by
  obtain ⟨u, ts, rfl⟩ := List.exists_cons_of_ne_nil h
  simp [Ty.displayAll]

theorem plain?_eq_none {name : String} (h : name ∉ primitives) : plain? name = none := by
  unfold plain?
  split <;> first | rfl | exact absurd (by decide) h

theorem isWord_word (k : Holder) : IsWord k.word := by
  cases k <;> decide

/-- A type that holds nothing is written as a name and is what the name means. -/
theorem isWord_display {t : Ty} (hplain : ∀ k : Holder, k.open? t = none)
    (h : t.Legible object?) (expr : String) :
    IsWord t.display ∧ resolve expr object? t.display none = .ok t := by
  cases t with
  | list ts => cases hplain .list
  | dict ts => cases hplain .dict
  | object id name =>
    obtain ⟨hword, hfree, hfound⟩ := h.here.2 id name rfl
    refine ⟨hword, ?_⟩
    have hlist : name ≠ "list" := fun heq => hfree (heq ▸ by decide)
    have hdict : name ≠ "dict" := fun heq => hfree (heq ▸ by decide)
    simp [Ty.display, resolve, hlist, hdict, plain?_eq_none hfree, hfound]
  | _ => exact ⟨by rw [Ty.display]; decide, rfl⟩

/-! ### Reading what was printed -/

/-- A name ends where no name goes on. -/
theorem scan_word {name : String} (hname : IsWord name) (after : List Char)
    (hafter : ∀ c ∈ after.head?, isNameChar c = false) :
    (name.toList ++ after).takeWhile isNameChar = name.toList ∧
      (name.toList ++ after).dropWhile isNameChar = after := by
  rw [List.takeWhile_append_of_pos hname.2, List.dropWhile_append_of_pos hname.2]
  cases after with
  | nil => exact ⟨List.append_nil _, rfl⟩
  | cons c after => simp [hafter c rfl]

variable {expr : String} {union : List Char → Except CatalogError (TypeSet × List Char)}

/-- Reading a name that has no brackets. -/
theorem term_name {name : String} (hname : IsWord name) {t : Ty}
    (hresolve : resolve expr object? name none = .ok t) {after : List Char}
    (hafter : ∀ c ∈ after.head?, c = ')' ∨ c = '|') :
    term expr object? union (name.toList ++ after) = .ok (t, after) := by
  have hstop : ∀ c ∈ after.head?, isNameChar c = false := by
    intro c hc
    rcases hafter c hc with rfl | rfl <;> decide
  obtain ⟨htake, hdrop⟩ := scan_word hname after hstop
  have hempty : name.toList.isEmpty = false := by simpa using hname.1
  unfold term
  simp only [htake, hdrop, hempty, String.ofList_toList]
  cases after with
  | nil => simp [hresolve]
  | cons c after => rcases hafter c rfl with rfl | rfl <;> simp [hresolve]

/-- Reading a holder with what it holds. -/
theorem term_brackets {k : Holder} {inner after : List Char} {ts : List Ty}
    (hinner : union (inner ++ ')' :: after) = .ok (⟨ts⟩, ')' :: after)) :
    term expr object? union (k.word.toList ++ '(' :: (inner ++ ')' :: after)) =
      .ok (k.of ts, after) := by
  obtain ⟨htake, hdrop⟩ := scan_word (isWord_word k) ('(' :: (inner ++ ')' :: after))
    fun c hc => by cases hc; decide
  have hempty : k.word.toList.isEmpty = false := by simpa using (isWord_word k).1
  unfold term
  simp only [htake, hdrop, hempty, String.ofList_toList]
  cases k <;> simp [hinner] <;> rfl

/-- Reading the last of some types. -/
theorem union_last {rounds : Nat} {set : TypeSet} {t : Ty} {cs after : List Char}
    (hterm : term expr object? (TypeExpr.union expr object? rounds {}) cs = .ok (t, after))
    (hafter : ∀ c ∈ after.head?, c = ')') :
    TypeExpr.union expr object? (rounds + 1) set cs = .ok (set.insert t, after) := by
  rw [TypeExpr.union, hterm]
  cases after with
  | nil => rfl
  | cons c after =>
    obtain rfl := hafter c rfl
    rfl

/-- Reading one of some types that is not the last. -/
theorem union_next {rounds : Nat} {set : TypeSet} {t : Ty} {cs after : List Char}
    (hterm : term expr object? (TypeExpr.union expr object? rounds {}) cs = .ok (t, '|' :: after)) :
    TypeExpr.union expr object? (rounds + 1) set cs =
      TypeExpr.union expr object? rounds (set.insert t) after := by
  rw [TypeExpr.union, hterm]
  rfl

theorem display_length_pos {t : Ty} (h : t.Legible object?) : 1 ≤ t.display.toList.length := by
  rcases Ty.holder_cases t with ⟨k, ts, rfl⟩ | hplain
  · rw [display_of k (Ty.legible_of.mp h).1, List.length_append, List.length_cons]
    omega
  · exact List.length_pos_iff.mpr (isWord_display hplain h "").1.1

theorem displayAll_length_pos {ts : List Ty} (hne : ts ≠ [])
    (h : ∀ t ∈ ts, t.Legible object?) : 1 ≤ (Ty.displayAll ts).toList.length := by
  obtain ⟨t, more, rfl⟩ := List.exists_cons_of_ne_nil hne
  by_cases hmore : more = []
  · subst hmore
    exact display_length_pos (h t List.mem_cons_self)
  · rw [displayAll_cons t hmore, List.length_append, List.length_cons]
    omega

mutual

/-- A type that was printed is read back, if what follows it ends it. -/
theorem term_display (expr : String) {t : Ty} (h : Written object? t) {rounds : Nat}
    (hrounds : t.display.toList.length ≤ rounds + 1) (after : List Char)
    (hafter : ∀ c ∈ after.head?, c = ')' ∨ c = '|') :
    term expr object? (TypeExpr.union expr object? rounds {}) (t.display.toList ++ after) =
      .ok (t, after) := by
  rcases Ty.holder_cases t with ⟨k, ts, htk⟩ | hplain
  · have hlt : sizeOf ts < sizeOf t := htk ▸ Ty.sizeOf_lt_of k ts
    subst htk
    have hset := written_of.mp h
    rw [display_of k hset.nonempty] at hrounds ⊢
    simp only [List.length_append, List.length_cons, List.length_nil] at hrounds
    have hlength : (Ty.displayAll ts).toList.length ≤ rounds := by omega
    have hread := union_display expr hset.nonempty hset.members hlength {} (')' :: after)
      fun c hc => by cases hc; rfl
    -- The types inside are collected from nothing, in the order in which they stood.
    have hinner : TypeSet.mk (Ty.addAllTo ts (TypeSet.members {})) = ⟨ts⟩ :=
      TypeSet.ofList_members hset.canonical
    rw [hinner] at hread
    rw [List.append_assoc, List.cons_append, List.append_assoc]
    exact term_brackets hread
  · obtain ⟨hword, hresolve⟩ := isWord_display hplain h.legible expr
    exact term_name hword hresolve hafter
  termination_by sizeOf t

/-- Types that were printed are read back and are added to the set in their order. -/
theorem union_display (expr : String) {ts : List Ty} (hne : ts ≠ [])
    (h : ∀ t ∈ ts, Written object? t) {rounds : Nat}
    (hrounds : (Ty.displayAll ts).toList.length ≤ rounds) (set : TypeSet)
    (after : List Char) (hafter : ∀ c ∈ after.head?, c = ')') :
    TypeExpr.union expr object? rounds set ((Ty.displayAll ts).toList ++ after) =
      .ok (⟨Ty.addAllTo ts set.members⟩, after) := by
  obtain ⟨t, more, rfl⟩ := List.exists_cons_of_ne_nil hne
  have ht := h t List.mem_cons_self
  have hpos := display_length_pos ht.legible
  rw [Ty.addAllTo]
  -- The last type ends where all of them end, and any other one ends at a bar.
  by_cases hmore : more = []
  · subst hmore
    change t.display.toList.length ≤ rounds at hrounds
    obtain ⟨rounds, rfl⟩ := Nat.exists_eq_add_of_le' (Nat.le_trans hpos hrounds)
    have hterm := term_display expr ht hrounds after fun c hc => .inl (hafter c hc)
    exact union_last hterm hafter
  · rw [displayAll_cons t hmore, List.length_append, List.length_cons] at hrounds
    obtain ⟨rounds, rfl⟩ := Nat.exists_eq_add_of_le' (show 1 ≤ rounds by omega)
    have hfirst : t.display.toList.length ≤ rounds + 1 := by omega
    have hothers : (Ty.displayAll more).toList.length ≤ rounds := by omega
    have hterm := term_display expr ht hfirst ('|' :: ((Ty.displayAll more).toList ++ after))
      fun c hc => by cases hc; exact .inr rfl
    have hrest := union_display expr hmore (fun u hu => h u (List.mem_cons_of_mem t hu)) hothers
      (set.insert t) after hafter
    rw [displayAll_cons t hmore, List.append_assoc, List.cons_append]
    exact (union_next hterm).trans hrest
  termination_by sizeOf ts

end

/-! ### Blanks -/

theorem isBlank_of_isNameChar {c : Char} (h : isNameChar c = true) : isBlank c = false := by
  change (((decide ('A'.val ≤ c.val ∧ c.val ≤ 'Z'.val)) ||
    (decide ('a'.val ≤ c.val) && decide (c.val ≤ 'z'.val))) ||
    (decide ('0'.val ≤ c.val) && decide (c.val ≤ '9'.val)) || c == '_') = true at h
  simp only [Bool.or_eq_true, Bool.and_eq_true, decide_eq_true_eq, beq_iff_eq,
    UInt32.le_iff_toNat_le] at h
  have hcode : 48 ≤ c.toNat ∧ c.toNat ≤ 122 := by
    rcases h with ((⟨hle, hge⟩ | ⟨hle, hge⟩) | ⟨hle, hge⟩) | rfl
    · exact ⟨Nat.le_trans (by decide) hle, Nat.le_trans hge (by decide)⟩
    · exact ⟨Nat.le_trans (by decide) hle, hge⟩
    · exact ⟨hle, Nat.le_trans hge (by decide)⟩
    · decide
  simp only [isBlank, blankRanges, List.any_cons, List.any_nil, Bool.or_eq_false_iff,
    Bool.and_eq_false_iff, decide_eq_false_iff_not, and_true]
  omega

mutual

/-- No blank is printed. -/
theorem isBlank_of_mem_display {t : Ty} (h : t.Legible object?) :
    ∀ c ∈ t.display.toList, isBlank c = false := by
  intro c hc
  rcases Ty.holder_cases t with ⟨k, ts, htk⟩ | hplain
  · have hlt : sizeOf ts < sizeOf t := htk ▸ Ty.sizeOf_lt_of k ts
    subst htk
    obtain ⟨hne, hall⟩ := Ty.legible_of.mp h
    rw [display_of k hne] at hc
    simp only [List.mem_append, List.mem_cons, List.not_mem_nil, or_false] at hc
    rcases hc with hc | rfl | hc | rfl
    · exact isBlank_of_isNameChar ((isWord_word k).2 c hc)
    · decide
    · exact isBlank_of_mem_displayAll hall c hc
    · decide
  · exact isBlank_of_isNameChar ((isWord_display hplain h "").1.2 c hc)
  termination_by sizeOf t

theorem isBlank_of_mem_displayAll {ts : List Ty} (h : ∀ t ∈ ts, t.Legible object?) :
    ∀ c ∈ (Ty.displayAll ts).toList, isBlank c = false := by
  intro c hc
  match ts with
  | [] => cases hc
  | [t] => exact isBlank_of_mem_display (h t List.mem_cons_self) c hc
  | t :: u :: ts =>
    rw [displayAll_cons t (List.cons_ne_nil u ts)] at hc
    simp only [List.mem_append, List.mem_cons] at hc
    rcases hc with hc | rfl | hc
    · exact isBlank_of_mem_display (h t List.mem_cons_self) c hc
    · decide
    · exact isBlank_of_mem_displayAll (fun w hw => h w (List.mem_cons_of_mem t hw)) c hc
  termination_by sizeOf ts

end

/-- A set that can be written is read back. -/
theorem parse_display {s : TypeSet} (hcanonical : s.Canonical)
    (hlegible : ∀ t ∈ s.members, t.Legible object?) : parse object? s.display = .ok s := by
  obtain ⟨members⟩ := s
  show parse object? (Ty.displayAll members) = .ok ⟨members⟩
  by_cases hne : members = []
  · subst hne
    rfl
  · have hset : WrittenSet object? ⟨members⟩ := ⟨hcanonical, hlegible, hne⟩
    have hfilter : (Ty.displayAll members).toList.filter (!isBlank ·) =
        (Ty.displayAll members).toList := by
      refine List.filter_eq_self.mpr fun c hc => ?_
      rw [isBlank_of_mem_displayAll hlegible c hc]
      rfl
    have hempty : (Ty.displayAll members).toList.isEmpty = false := by
      simpa using List.length_pos_iff.mp (displayAll_length_pos hne hlegible)
    have hread := union_display (Ty.displayAll members) hne hset.members (Nat.le_succ _) {} []
      fun c hc => by cases hc
    have hmembers : TypeSet.mk (Ty.addAllTo members (TypeSet.members {})) = ⟨members⟩ :=
      TypeSet.ofList_members hcanonical
    rw [List.append_nil, hmembers] at hread
    simp only [parse, hfilter, hempty, hread]
    rfl

/-! ### What is read can be printed -/

theorem written_of_plain {t : Ty} (hplain : ∀ k : Holder, k.open? t = none)
    (h : ∀ id name, t = .object id name → Names object? name t) : Written object? t :=
  ⟨Ty.canonical_of_plain hplain, Ty.everywhere_of_plain hplain ⟨Ty.ne_empty_of_plain hplain, h⟩⟩

/-- Types that are added leave no list or dictionary empty. -/
theorem writtenSet_insert {s : TypeSet} {t : Ty} (hs : s.Canonical)
    (hlegible : ∀ u ∈ s.members, u.Legible object?) (ht : Written object? t) :
    WrittenSet object? (s.insert t) where
  canonical := hs.insert ht.canonical
  legible := by
    refine Ty.everywhere_addTo (fun k es there hthere => ⟨?_, ?_⟩) ht.legible hlegible
    · rw [Ty.of_ne_empty_iff]
      exact Ty.addAllTo_ne_nil es (Ty.of_ne_empty_iff.mp hthere.1)
    · intro id name heq
      cases k <;> cases heq
  nonempty := Ty.addTo_ne_nil t s.members

theorem notMem_primitives {name : String} (hlist : name ≠ "list") (hdict : name ≠ "dict")
    (hplain : plain? name = none) : name ∉ primitives := by
  intro hmem
  simp only [primitives, List.mem_cons, List.not_mem_nil, or_false] at hmem
  rcases hmem with rfl | rfl | rfl | rfl | rfl | rfl | rfl | rfl <;>
    first | exact hlist rfl | exact hdict rfl | cases hplain

theorem written_of_plain? {name : String} {t : Ty} (h : plain? name = some t) :
    Written object? t := by
  unfold plain? at h
  split at h <;> cases h <;>
    exact written_of_plain (fun k => by cases k <;> rfl) fun id name heq => by cases heq

/-- Every name that means something is the name of what it means. -/
def NamesObjects (object? : String → Option Ty) : Prop :=
  ∀ name t, object? name = some t → ∃ id, t = .object id name

/-- A name means a type that can be printed, if what is in its brackets can be. -/
theorem written_resolve (hobject : NamesObjects object?) {name : String} (hname : IsWord name)
    {inner : Option TypeSet} (hinner : ∀ s ∈ inner, WrittenSet object? s) {t : Ty}
    (h : resolve expr object? name inner = .ok t) : Written object? t := by
  have hset : WrittenSet object? (inner.getD .any) := by
    cases inner with
    | none =>
      exact writtenSet_insert (s := {}) Ty.canonicalAll_nil (by simp)
        (written_of_plain (t := .any) (fun k => by cases k <;> rfl) fun id name heq => by cases heq)
    | some s => exact hinner s rfl
  unfold resolve at h
  split at h
  · cases h
    exact written_of (k := .list).mpr hset
  · rename_i hlist
    split at h
    · cases h
      exact written_of (k := .dict).mpr hset
    · rename_i hdict
      split at h
      · cases h
      · cases hplain : plain? name with
        | some u =>
          rw [hplain] at h
          cases h
          exact written_of_plain? hplain
        | none =>
          rw [hplain, Option.none_or] at h
          cases hfound : object? name with
          | none =>
            rw [hfound] at h
            cases h
          | some u =>
            -- Only a name that no built-in type has is looked up.
            rw [hfound] at h
            cases h
            obtain ⟨id, rfl⟩ := hobject name _ hfound
            refine written_of_plain (fun k => by cases k <;> rfl) fun id' name' heq => ?_
            cases heq
            exact ⟨hname, notMem_primitives hlist hdict hplain, hfound⟩

theorem written_term (hobject : NamesObjects object?)
    (hunion : ∀ cs s rest, union cs = .ok (s, rest) → WrittenSet object? s)
    {cs rest : List Char} {t : Ty} (h : term expr object? union cs = .ok (t, rest)) :
    Written object? t := by
  unfold term at h
  cases hempty : (cs.takeWhile isNameChar).isEmpty with
  | true =>
    simp only [hempty] at h
    cases h
  | false =>
    have hname : IsWord (String.ofList (cs.takeWhile isNameChar)) := by
      rw [IsWord, String.toList_ofList]
      exact ⟨by simpa using hempty, List.all_eq_true.mp List.all_takeWhile⟩
    simp only [hempty, Bool.false_eq_true, ↓reduceIte] at h
    -- A name stands alone, or with a set in brackets behind it.
    split at h
    · obtain ⟨⟨inner, after⟩, hinner, h⟩ := CatalogError.bind_eq_ok.mp h
      dsimp only at h
      split at h
      · obtain ⟨u, hresolve, h⟩ := CatalogError.bind_eq_ok.mp h
        cases h
        exact written_resolve hobject hname (fun s hs => by cases hs; exact hunion _ _ _ hinner)
          hresolve
      · cases h
    · obtain ⟨u, hresolve, h⟩ := CatalogError.bind_eq_ok.mp h
      cases h
      exact written_resolve hobject hname (fun s hs => by cases hs) hresolve

theorem written_union (hobject : NamesObjects object?) {rounds : Nat} {set s : TypeSet}
    {cs rest : List Char} (hcanonical : set.Canonical)
    (hlegible : ∀ t ∈ set.members, t.Legible object?)
    (h : TypeExpr.union expr object? rounds set cs = .ok (s, rest)) : WrittenSet object? s := by
  induction rounds generalizing set s cs rest with
  | zero => cases h
  | succ rounds ih =>
    rw [TypeExpr.union] at h
    obtain ⟨⟨t, after⟩, hterm, h⟩ := CatalogError.bind_eq_ok.mp h
    have ht : Written object? t :=
      written_term hobject (fun cs s rest hread => ih Ty.canonicalAll_nil (by simp) hread) hterm
    have hset := writtenSet_insert hcanonical hlegible ht
    dsimp only at h
    split at h
    · exact ih hset.canonical hset.legible h
    · cases h
      exact hset

/-- What is read can be printed and is read back. -/
theorem parse_display_of_parse (hobject : NamesObjects object?) {s : TypeSet}
    (h : parse object? expr = .ok s) : parse object? s.display = .ok s := by
  unfold parse at h
  cases hempty : (expr.toList.filter (!isBlank ·)).isEmpty with
  | true =>
    simp only [hempty] at h
    cases h
    rfl
  | false =>
    simp only [hempty, Bool.false_eq_true, ↓reduceIte] at h
    obtain ⟨⟨set, rest⟩, hread, h⟩ := CatalogError.bind_eq_ok.mp h
    have hempty : TypeSet.Canonical {} := Ty.canonicalAll_nil
    have hset := written_union hobject hempty (by simp) hread
    dsimp only at h
    split at h <;> cases h
    exact parse_display hset.canonical hset.legible

end TypeExpr

end MesonLens
