import MesonLens.Catalog.Declaration
import MesonLens.Proofs.Types.Expression
import Mathlib.Data.List.Nodup

/-!
# `MesonLens.Proofs.Catalog.Hierarchy`: the objects of a catalog that was built

`Declarations.build` checks the object types that it is given. Everything that is proved about
catalogs needs the objects only, and of these four facts (`Catalog.Sound`): the number of each is
its place, no two have one name, no name is that of a built-in type, and no way up comes back.

* `Declarations.sound_build`: every catalog that is built is sound;
* `Catalog.Sound.isSubtype_refl`, `Catalog.Sound.isSubtype_trans`: in a sound catalog, inheritance
  is a preorder on the objects;
* `Catalog.Sound.lookup?_name`: an object is found by its name.
-/

set_option autoImplicit false

namespace MesonLens

/-! ### Sound catalogs -/

/-- The number of each object is its place, and the names are of use in type expressions. -/
structure ObjectInfo.Registered (objects : List ObjectInfo) : Prop where
  ids : objects.map ObjectInfo.id = List.range objects.length
  names : (objects.map ObjectInfo.name).Nodup
  reserved : ∀ name ∈ objects.map ObjectInfo.name, name ∉ TypeExpr.primitives

namespace Catalog

/-- What the checks of a catalog guarantee of its objects. -/
structure Sound (c : Catalog) : Prop where
  registered : ObjectInfo.Registered c.objects
  acyclic : ∀ o ∈ c.objects, Declarations.climbs c o.id c.objects.length o.parent = false

variable {c : Catalog} {o p : ObjectInfo} {i j k : Nat}

/-- Where every object has its place as its number, an object is found by its number. -/
theorem id_eq_of_registered (h : ObjectInfo.Registered c.objects) (ho : c.object? i = some o) :
    o.id = i := by
  have hid : (c.objects.map ObjectInfo.id)[i]? = some o.id := by
    rw [List.getElem?_map]
    exact congrArg (Option.map ObjectInfo.id) ho
  rw [h.ids] at hid
  obtain ⟨hlt, heq⟩ := List.getElem?_eq_some_iff.mp hid
  rw [← heq, List.getElem_range]

theorem Sound.id_eq (h : c.Sound) (ho : c.object? i = some o) : o.id = i :=
  id_eq_of_registered h.registered ho

theorem mem_of_object? (ho : c.object? i = some o) : o ∈ c.objects := List.mem_of_getElem? ho

/-- An object is found by its name. -/
theorem Sound.lookup?_name (h : c.Sound) (ho : o ∈ c.objects) : c.lookup? o.name = some o := by
  cases hfind : c.lookup? o.name with
  | none => simpa using List.find?_eq_none.mp hfind o ho
  | some p =>
    have hname : p.name = o.name := by simpa using List.find?_some hfind
    have hmem : p ∈ c.objects := List.mem_of_find?_eq_some hfind
    rw [List.inj_on_of_nodup_map h.registered.names hmem ho hname]

theorem Sound.name_notMem (h : c.Sound) (ho : o ∈ c.objects) : o.name ∉ TypeExpr.primitives :=
  h.registered.reserved o.name (List.mem_map_of_mem ho)

/-! ### Inheritance -/

theorem climbs_zero {top : Nat} {parent : Option Nat}
    (h : Declarations.climbs c top 0 parent = false) : parent = none := by
  cases parent with
  | none => rfl
  | some j => cases h

/-- The way up consists of the object alone, or it goes on with its parent. -/
theorem ancestryWithin_cases (ho : c.object? i = some o) (steps : Nat) :
    (c.ancestryWithin steps i = [o] ∧ (steps = 0 ∨ o.parent = none)) ∨
    ∃ less j, steps = less + 1 ∧ o.parent = some j ∧
      c.ancestryWithin steps i = o :: c.ancestryWithin less j := by
  rw [ancestryWithin.eq_def c steps i]
  cases hparent : o.parent with
  | none => exact .inl ⟨by simp only [ho, hparent], .inr rfl⟩
  | some j =>
    cases steps with
    | zero => exact .inl ⟨by simp only [ho], .inl rfl⟩
    | succ steps => exact .inr ⟨steps, j, rfl, rfl, by simp only [ho, hparent]⟩

/-- The way up starts with the object itself. -/
theorem mem_ancestryWithin (ho : c.object? i = some o) (steps : Nat) :
    o ∈ c.ancestryWithin steps i := by
  rcases ancestryWithin_cases ho steps with ⟨heq, -⟩ | ⟨less, j, -, -, heq⟩
  · rw [heq]
    exact List.mem_singleton_self o
  · rw [heq]
    exact List.mem_cons_self

theorem object?_of_mem_ancestryWithin {steps : Nat} (h : p ∈ c.ancestryWithin steps i) :
    ∃ o, c.object? i = some o := by
  unfold ancestryWithin at h
  cases ho : c.object? i with
  | none =>
    rw [ho] at h
    cases h
  | some o => exact ⟨o, rfl⟩

/-- A way up that ends within some steps goes on like the way up of every object on it, however
many steps that takes. -/
theorem Sound.ancestryWithin_subset (h : c.Sound) {top steps more i : Nat} {o p : ObjectInfo}
    (hi : c.object? i = some o) (hclimbs : Declarations.climbs c top steps o.parent = false)
    (hp : p ∈ c.ancestryWithin steps i) :
    c.ancestryWithin more p.id ⊆ c.ancestryWithin steps i := by
  rcases ancestryWithin_cases hi steps with ⟨heq, hend⟩ | ⟨less, j, hsteps, hparent, heq⟩
  · -- The check leaves no parent where it ran out of steps, so the way ends at a root.
    have hroot : o.parent = none := by
      rcases hend with rfl | hroot
      · exact climbs_zero hclimbs
      · exact hroot
    rw [heq, List.mem_singleton] at hp
    rw [heq, hp, h.id_eq hi]
    rcases ancestryWithin_cases hi more with ⟨heq', -⟩ | ⟨less, j, -, hparent, -⟩
    · rw [heq']
      exact List.Subset.refl _
    · rw [hroot] at hparent
      cases hparent
  · -- The rest of the way is that of the parent, which ends as well.
    have hrest {q : ObjectInfo} (hq : q ∈ c.ancestryWithin less j) (more : Nat) :
        c.ancestryWithin more q.id ⊆ c.ancestryWithin less j := by
      obtain ⟨r, hj⟩ := object?_of_mem_ancestryWithin hq
      rw [hsteps, hparent, Declarations.climbs, hj] at hclimbs
      exact h.ancestryWithin_subset hj (Bool.or_eq_false_iff.mp hclimbs).2 hq
    rw [heq] at hp ⊢
    rcases List.mem_cons.mp hp with rfl | hp
    · rw [h.id_eq hi]
      rcases ancestryWithin_cases hi more with ⟨heq', -⟩ | ⟨less', j', -, hparent', heq'⟩
      · rw [heq']
        simp
      · obtain rfl : j = j' := Option.some.inj (hparent.symm.trans hparent')
        rw [heq']
        refine List.cons_subset_cons p fun q hq => ?_
        obtain ⟨r, hj⟩ := object?_of_mem_ancestryWithin hq
        have hsubset := hrest (mem_ancestryWithin hj less) less'
        rw [h.id_eq hj] at hsubset
        exact hsubset hq
    · exact List.subset_cons_of_subset o (hrest hp more)
  termination_by steps

theorem Sound.ancestry_subset (h : c.Sound) (hp : p ∈ c.ancestry i) :
    c.ancestry p.id ⊆ c.ancestry i := by
  obtain ⟨o, hi⟩ := object?_of_mem_ancestryWithin hp
  exact h.ancestryWithin_subset hi (h.acyclic o (mem_of_object? hi)) hp

theorem isSubtype_iff : c.isSubtype i j = true ↔ ∃ o ∈ c.ancestry i, o.id = j := by
  simp [isSubtype]

/-- Every object inherits from itself. -/
theorem Sound.isSubtype_refl (h : c.Sound) (hi : c.object? i = some o) :
    c.isSubtype i i = true :=
  isSubtype_iff.mpr ⟨o, mem_ancestryWithin hi _, h.id_eq hi⟩

theorem Sound.isSubtype_trans (h : c.Sound) (hij : c.isSubtype i j = true)
    (hjk : c.isSubtype j k = true) : c.isSubtype i k = true := by
  obtain ⟨p, hp, rfl⟩ := isSubtype_iff.mp hij
  obtain ⟨q, hq, rfl⟩ := isSubtype_iff.mp hjk
  exact isSubtype_iff.mpr ⟨q, h.ancestry_subset hp hq, rfl⟩

/-- Only the objects of a catalog matter for whether it is sound. -/
theorem Sound.of_objects (h : c.Sound) {c' : Catalog} (hobjects : c'.objects = c.objects) :
    c'.Sound := by
  have hclimbs : ∀ (top steps : Nat) (parent : Option Nat),
      Declarations.climbs c' top steps parent = Declarations.climbs c top steps parent := by
    intro top steps
    induction steps with
    | zero => intro parent; cases parent <;> rfl
    | succ steps ih =>
      intro parent
      cases parent with
      | none => rfl
      | some j => simp only [Declarations.climbs, ih, object?, hobjects]
  refine ⟨by rw [hobjects]; exact h.registered, fun o ho => ?_⟩
  rw [hobjects] at ho ⊢
  rw [hclimbs]
  exact h.acyclic o ho

end Catalog

/-! ### Building -/

namespace Declarations

open CatalogError (bind_eq_ok)

variable {c c' : Catalog}

/-- Objects that are added have new numbers and new names. -/
theorem addObjects_registered {decls : List (String × Option String)}
    (h : addObjects c decls = .ok c') (hc : ObjectInfo.Registered c.objects) :
    ObjectInfo.Registered c'.objects ∧ c'.objects.length = c.objects.length + decls.length := by
  induction decls generalizing c with
  | nil =>
    obtain rfl : c = c' := by simpa [addObjects] using h
    exact ⟨hc, rfl⟩
  | cons decl decls ih =>
    rw [addObjects] at h
    split at h
    · cases h
    · rename_i hnew
      obtain ⟨hreserved, hfresh⟩ : decl.1 ∉ TypeExpr.primitives ∧ c.lookup? decl.1 = none := by
        simpa using hnew
      have hnotMem : decl.1 ∉ c.objects.map ObjectInfo.name := by
        intro hmem
        obtain ⟨o, ho, hname⟩ := List.mem_map.mp hmem
        simpa [hname] using List.find?_eq_none.mp hfresh o ho
      -- The new object has the next number, and a name that no other one has.
      obtain ⟨hdone, hlength⟩ := ih h {
        ids := by
          rw [List.map_append, hc.ids, List.length_append]
          exact List.range_succ.symm
        names := by
          rw [List.map_append, List.map_singleton, ← List.concat_eq_append]
          exact hc.names.concat hnotMem
        reserved := by
          intro name hname
          rw [List.map_append] at hname
          rcases List.mem_append.mp hname with hname | hname
          · exact hc.reserved name hname
          · rwa [List.mem_singleton.mp hname] }
      refine ⟨hdone, ?_⟩
      rw [hlength, List.length_append, List.length_cons, List.length_cons, List.length_nil]
      omega

/-- Objects that are linked keep their numbers and names. -/
theorem linkParents_keeps {pairs : List (ObjectInfo × Option String)} {linked : List ObjectInfo}
    (h : linkParents c pairs = .ok linked) :
    linked.map ObjectInfo.id = pairs.map (·.1.id) ∧
      linked.map ObjectInfo.name = pairs.map (·.1.name) := by
  induction pairs generalizing linked with
  | nil =>
    obtain rfl : [] = linked := by simpa [linkParents] using h
    exact ⟨rfl, rfl⟩
  | cons pair pairs ih =>
    obtain ⟨o, parent⟩ := pair
    cases parent with
    | none =>
      obtain ⟨rest, hrest, heq⟩ := bind_eq_ok.mp h
      obtain rfl := Except.ok.inj heq
      obtain ⟨hids, hnames⟩ := ih hrest
      exact ⟨congrArg (o.id :: ·) hids, congrArg (o.name :: ·) hnames⟩
    | some parent =>
      obtain ⟨p, -, h⟩ := bind_eq_ok.mp h
      obtain ⟨rest, hrest, heq⟩ := bind_eq_ok.mp h
      obtain rfl := Except.ok.inj heq
      obtain ⟨hids, hnames⟩ := ih hrest
      exact ⟨congrArg (o.id :: ·) hids, congrArg (o.name :: ·) hnames⟩

theorem acyclic_of_checkCycles (h : checkCycles c = .ok ()) :
    ∀ o ∈ c.objects, climbs c o.id c.objects.length o.parent = false := by
  intro o ho
  unfold checkCycles at h
  split at h
  · cases h
  · rename_i hfind
    simpa using List.find?_eq_none.mp hfind o ho

/-- Objects that were added and linked are registered. -/
theorem registered_linkParents {decls : List (String × Option String)} {linked : List ObjectInfo}
    (hadd : addObjects {} decls = .ok c)
    (hlink : linkParents c (c.objects.zip (decls.map (·.2))) = .ok linked) :
    ObjectInfo.Registered linked := by
  obtain ⟨hreg, hlength⟩ := addObjects_registered hadd ⟨rfl, .nil, by simp⟩
  -- As many parents as objects were declared, so no object is lost in the pairs.
  have hzip : (c.objects.zip (decls.map (·.2))).map (·.1) = c.objects :=
    List.map_fst_zip (by simp [hlength])
  have hkeeps := linkParents_keeps hlink
  obtain ⟨hids, hnames⟩ : linked.map ObjectInfo.id = c.objects.map ObjectInfo.id ∧
      linked.map ObjectInfo.name = c.objects.map ObjectInfo.name := by
    rw [← hzip, List.map_map, List.map_map]
    exact hkeeps
  have hcount : linked.length = c.objects.length := by
    simpa using congrArg List.length hids
  refine ⟨?_, ?_, ?_⟩
  · rw [hids, hreg.ids, hcount]
  · rw [hnames]
    exact hreg.names
  · rw [hnames]
    exact hreg.reserved

theorem sound_buildObjects {decls : List (String × Option String)}
    (h : buildObjects decls = .ok c) : c.Sound := by
  obtain ⟨added, hadd, h⟩ := bind_eq_ok.mp h
  obtain ⟨linked, hlink, h⟩ := bind_eq_ok.mp h
  obtain ⟨⟨⟩, hcheck, h⟩ := bind_eq_ok.mp h
  obtain rfl := Except.ok.inj h
  exact ⟨registered_linkParents hadd hlink, acyclic_of_checkCycles hcheck⟩

/-! Functions, modules and variables leave the objects alone. -/

theorem addFunction_objects {f : Signature String} (h : addFunction c f = .ok c') :
    c'.objects = c.objects := by
  obtain ⟨resolved, -, h⟩ := bind_eq_ok.mp h
  split at h
  · split at h <;> cases h
    rfl
  · split at h <;> split at h
    · cases h
    · obtain ⟨_, -, h⟩ := bind_eq_ok.mp h
      cases h
    · cases h
      rfl
    · obtain ⟨_, -, h⟩ := bind_eq_ok.mp h
      cases h
      rfl

theorem addFunctions_objects {fs : List (Signature String)} (h : addFunctions c fs = .ok c') :
    c'.objects = c.objects := by
  induction fs generalizing c with
  | nil => rw [Except.ok.inj h]
  | cons f fs ih =>
    obtain ⟨added, hadd, h⟩ := bind_eq_ok.mp h
    rw [ih h, addFunction_objects hadd]

theorem addModules_objects {modules : List (String × String)}
    (h : addModules c modules = .ok c') : c'.objects = c.objects := by
  induction modules generalizing c with
  | nil => rw [Except.ok.inj h]
  | cons entry modules ih =>
    obtain ⟨o, -, h⟩ := bind_eq_ok.mp h
    split at h
    · cases h
    · exact (ih h).trans rfl

theorem addGlobals_objects {globals : List (String × String)}
    (h : addGlobals c globals = .ok c') : c'.objects = c.objects := by
  induction globals generalizing c with
  | nil => rw [Except.ok.inj h]
  | cons entry globals ih =>
    obtain ⟨o, -, h⟩ := bind_eq_ok.mp h
    exact (ih h).trans rfl

/-- Every catalog that is built is sound. -/
theorem sound_build {d : Declarations} (h : d.build = .ok c) : c.Sound := by
  obtain ⟨first, hbuild, h⟩ := bind_eq_ok.mp h
  obtain ⟨second, hfunctions, h⟩ := bind_eq_ok.mp h
  obtain ⟨third, hmodules, h⟩ := bind_eq_ok.mp h
  refine (sound_buildObjects hbuild).of_objects ?_
  rw [addGlobals_objects h, addModules_objects hmodules, addFunctions_objects hfunctions]

end Declarations

end MesonLens
