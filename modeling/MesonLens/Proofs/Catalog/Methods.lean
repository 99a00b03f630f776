import MesonLens.Editor.Completion
import Mathlib.Data.List.Nodup

/-!
# `MesonLens.Proofs.Catalog.Methods`: finding a method and listing them all

A method is looked for on the way up from a type, and the first one of its name is taken. The list
of all methods is put together from the methods of every type on this way, each name once, and the
completion after a dot does the same once more for the types of a set. All of them give the same
answer for a name, because adding methods keeps the first one of every name:

* `Catalog.firstNamed?_addMethods`, `Catalog.nodup_addMethods`: what adding methods does to a name;
* `Catalog.firstNamed?_gathered`, `Catalog.nodup_gathered`: methods gathered from many lists;
* `Catalog.firstNamed?_methodsOf`, `Completion.mem_labels_iff`: the two lists;
* `Catalog.methods_agree`: all of this together.
-/

set_option autoImplicit false

namespace MesonLens

namespace Catalog

variable {α : Type} {known more : List (Signature TypeSet)} {m : Signature TypeSet}

/-- The first signature of a name. -/
def firstNamed? (name : String) (ms : List (Signature TypeSet)) : Option (Signature TypeSet) :=
  ms.find? (·.name == name)

theorem firstNamed?_eq_none_iff {name : String} :
    firstNamed? name known = none ↔ ∀ m ∈ known, m.name ≠ name := by
  simp [firstNamed?]

/-- Where no name comes twice, the first signature of a name is the only one. -/
theorem firstNamed?_eq_some_iff {name : String} (h : (known.map Signature.name).Nodup) :
    firstNamed? name known = some m ↔ m ∈ known ∧ m.name = name := by
  constructor
  · intro hfind
    exact ⟨List.mem_of_find?_eq_some hfind, by simpa using List.find?_some hfind⟩
  · rintro ⟨hm, rfl⟩
    cases hfind : firstNamed? m.name known with
    | none => exact absurd rfl (firstNamed?_eq_none_iff.mp hfind m hm)
    | some m' =>
      have hname : m'.name = m.name := by simpa using List.find?_some hfind
      rw [List.inj_on_of_nodup_map h (List.mem_of_find?_eq_some hfind) hm hname]

theorem addMethods_cons (known more : List (Signature TypeSet)) (m : Signature TypeSet) :
    addMethods known (m :: more) =
      addMethods (if known.any (·.name == m.name) then known else known ++ [m]) more := rfl

/-- Methods that are added come after those that are known. -/
theorem firstNamed?_addMethods (name : String) (known more : List (Signature TypeSet)) :
    firstNamed? name (addMethods known more) =
      (firstNamed? name known).or (firstNamed? name more) := by
  induction more generalizing known with
  | nil => exact Option.or_none.symm
  | cons m more ih =>
    rw [addMethods_cons, ih]
    by_cases hname : m.name = name
    · have hmore : firstNamed? name (m :: more) = some m := by simp [firstNamed?, hname]
      split
      · next hknown =>
        -- The name is known, so that neither this method nor a later one is the first.
        have hsome : (firstNamed? name known).isSome = true := by
          rw [firstNamed?, List.find?_isSome, ← List.any_eq_true, ← hname]
          exact hknown
        obtain ⟨first, hfirst⟩ := Option.isSome_iff_exists.mp hsome
        rw [hfirst, Option.some_or, Option.some_or]
      · rw [hmore, firstNamed?, List.find?_append, Option.or_assoc]
        simp [firstNamed?, hname]
    · have hmore : firstNamed? name (m :: more) = firstNamed? name more := by
        simp [firstNamed?, hname]
      split
      · rw [hmore]
      · rw [hmore, firstNamed?, List.find?_append]
        simp [firstNamed?, hname]

theorem nodup_addMethods (h : (known.map Signature.name).Nodup)
    (more : List (Signature TypeSet)) : ((addMethods known more).map Signature.name).Nodup := by
  induction more generalizing known with
  | nil => exact h
  | cons m more ih =>
    rw [addMethods_cons]
    split
    · exact ih h
    · next hknown =>
      refine ih ?_
      rw [List.map_append, List.map_singleton, ← List.concat_eq_append]
      exact h.concat (by simpa using hknown)

/-! ### Methods from many lists -/

/-- The methods of some lists, the first one of every name. -/
def gathered (table : α → List (Signature TypeSet)) (known : List (Signature TypeSet))
    (xs : List α) : List (Signature TypeSet) :=
  xs.foldl (fun known x => addMethods known (table x)) known

theorem firstNamed?_gathered (name : String) (table : α → List (Signature TypeSet))
    (known : List (Signature TypeSet)) (xs : List α) :
    firstNamed? name (gathered table known xs) =
      (firstNamed? name known).or (xs.findSome? fun x => firstNamed? name (table x)) := by
  induction xs generalizing known with
  | nil => exact Option.or_none.symm
  | cons x xs ih =>
    have hstep : gathered table known (x :: xs) = gathered table (addMethods known (table x)) xs :=
      rfl
    rw [hstep, ih, firstNamed?_addMethods, Option.or_assoc, List.findSome?_cons]
    cases firstNamed? name (table x) with
    | none => rw [Option.none_or]
    | some first => rw [Option.some_or]

theorem nodup_gathered (table : α → List (Signature TypeSet)) (xs : List α) :
    ((gathered table [] xs).map Signature.name).Nodup := by
  have hany : ∀ known : List (Signature TypeSet), (known.map Signature.name).Nodup →
      ((gathered table known xs).map Signature.name).Nodup := by
    induction xs with
    | nil => exact fun _ h => h
    | cons x xs ih => exact fun known h => ih _ (nodup_addMethods h (table x))
  exact hany [] List.nodup_nil

/-! ### The methods of one type -/

variable (c : Catalog) (t : Ty) (name : String)

theorem method?_eq_firstNamed? (owner : String) :
    c.method? owner name = firstNamed? name (c.methodTable owner) := by
  rw [firstNamed?, methodTable, List.find?_filter, method?]
  simp only [Bool.decide_and, Bool.decide_eq_true]

theorem nodup_methodsOf : ((c.methodsOf t).map Signature.name).Nodup :=
  nodup_gathered c.methodTable (c.methodOwners t)

/-- Looking for a method is looking through the list of all. -/
theorem firstNamed?_methodsOf : firstNamed? name (c.methodsOf t) = c.findMethod? t name := by
  have hgathered : c.methodsOf t = gathered c.methodTable [] (c.methodOwners t) := rfl
  rw [hgathered, firstNamed?_gathered, findMethod?]
  simp only [← method?_eq_firstNamed?]
  rfl

end Catalog

namespace Completion

open Catalog

variable (c : Catalog) (types : TypeSet)

/-- The names that are proposed after a dot, before a letter of the name is there. -/
def labels : List String := (methodItems c types []).map CompletionItem.label

theorem labels_eq :
    labels c types = (gathered c.methodsOf [] types.members).map Signature.name := by
  have hall : ∀ m ∈ gathered c.methodsOf [] types.members, goesOn [] m.name = true :=
    fun _ _ => rfl
  rw [labels, methodItems, List.map_map]
  exact congrArg _ (List.filter_eq_self.mpr hall)

theorem nodup_labels : (labels c types).Nodup := by
  rw [labels_eq]
  exact nodup_gathered c.methodsOf types.members

theorem mem_labels_iff {name : String} :
    name ∈ labels c types ↔ ∃ t ∈ types.members, (c.findMethod? t name).isSome = true := by
  rw [labels_eq, List.mem_map]
  have hsome : (∃ m ∈ gathered c.methodsOf [] types.members, m.name = name) ↔
      (firstNamed? name (gathered c.methodsOf [] types.members)).isSome = true := by
    simp [firstNamed?, List.find?_isSome]
  rw [hsome, firstNamed?_gathered]
  simp only [firstNamed?_methodsOf]
  exact List.findSome?_isSome_iff

end Completion

namespace Catalog

/-- **Finding a method and listing the methods agree.** In every catalog and for every type, no two
methods of the list have one name, the method that is found by a name is the one in the list that
has it, and nothing is found if there is none. So the names that are proposed after a dot for a set
of types are, each once, those by which a method is found on some type of the set. -/
theorem methods_agree (c : Catalog) :
    (∀ (t : Ty) (name : String), ((c.methodsOf t).map Signature.name).Nodup ∧
      (∀ m, c.findMethod? t name = some m ↔ m ∈ c.methodsOf t ∧ m.name = name) ∧
      (c.findMethod? t name = none ↔ ∀ m ∈ c.methodsOf t, m.name ≠ name)) ∧
    ∀ types : TypeSet,
      ((Completion.methodItems c types []).map CompletionItem.label).Nodup ∧
      ∀ name, name ∈ (Completion.methodItems c types []).map CompletionItem.label ↔
        ∃ t ∈ types.members, (c.findMethod? t name).isSome = true := by
  refine ⟨fun t name => ⟨c.nodup_methodsOf t, fun m => ?_, ?_⟩, fun types => ?_⟩
  · rw [← firstNamed?_methodsOf, firstNamed?_eq_some_iff (c.nodup_methodsOf t)]
  · rw [← firstNamed?_methodsOf, firstNamed?_eq_none_iff]
  · exact ⟨Completion.nodup_labels c types, fun name => Completion.mem_labels_iff c types⟩

end Catalog

end MesonLens
