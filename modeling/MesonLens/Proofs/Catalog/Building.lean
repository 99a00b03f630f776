import MesonLens.Proofs.Catalog.Hierarchy
import Mathlib.Data.Fintype.Pigeonhole
import Mathlib.Tactic.WLOG

/-!
# `MesonLens.Proofs.Catalog.Building`: which declarations make a catalog

The objects of a catalog are declared in any order, each with the name of its parent.
`Declarations.build` refuses them exactly if some way up never ends, and a catalog that was built
answers every question about what was declared.

* `Catalog.above?`: the object some steps above another one. A way up that comes to an object a
  second time never ends (`Catalog.endless_of_again`), and so does one that takes more steps than
  there are objects (`Catalog.endless_of_long`). These are the two things that the check looks for,
  so the check is exact: `Catalog.climbs_iff_endless`;
* `Declarations.Declares`: the objects of a catalog are those that were declared. Then the ways up
  in the catalog are the ways up in the declarations (`Declarations.endlessFrom_iff`);
* `Catalog.Ascent`: the whole way up from an object. It is what `Catalog.ancestry` lists;
* `Declarations.addFunctions_spec`: the functions and methods are those that were declared, one for
  each name;
* `Declarations.build_accepts_exactly`: all of this together.
-/

set_option autoImplicit false

namespace MesonLens

namespace Catalog

variable {c : Catalog} {o p : ObjectInfo} {i j k m n : Nat}

/-! ### Ways up -/

/-- The number of the parent of an object. -/
def parent? (c : Catalog) (i : Nat) : Option Nat := (c.object? i).bind ObjectInfo.parent

/-- The number of the object that is some steps above another one. -/
def above? (c : Catalog) (i : Nat) : Nat → Option Nat
  | 0 => some i
  | n + 1 => (c.above? i n).bind c.parent?

/-- The way up from an object never ends. -/
def Endless (c : Catalog) (i : Nat) : Prop := ∀ n, (c.above? i n).isSome = true

theorem above?_add (c : Catalog) (i m n : Nat) :
    c.above? i (m + n) = (c.above? i m).bind fun j => c.above? j n := by
  induction n with
  | zero =>
    show c.above? i m = (c.above? i m).bind some
    rw [Option.bind_fun_some]
  | succ n ih =>
    rw [← Nat.add_assoc, above?, ih, Option.bind_assoc]
    rfl

theorem above?_succ (c : Catalog) (i n : Nat) :
    c.above? i (n + 1) = (c.parent? i).bind fun j => c.above? j n := by
  rw [Nat.add_comm, above?_add]
  rfl

theorem above?_isSome_of_le (h : (c.above? i n).isSome = true) (hle : m ≤ n) :
    (c.above? i m).isSome = true := by
  obtain ⟨k, rfl⟩ := Nat.exists_eq_add_of_le hle
  rw [above?_add] at h
  cases hm : c.above? i m with
  | none => simp [hm] at h
  | some j => rfl

theorem object?_of_parent? (h : (c.parent? i).isSome = true) : ∃ o, c.object? i = some o := by
  unfold parent? at h
  cases ho : c.object? i with
  | none => simp [ho] at h
  | some o => exact ⟨o, rfl⟩

theorem parent?_eq (ho : c.object? i = some o) : c.parent? i = o.parent := by
  rw [parent?, ho, Option.bind_some]

/-- A way up that comes to an object again goes round for ever. -/
theorem endless_of_again (h : c.above? i m = some j) (hagain : c.above? i (m + (k + 1)) = some j) :
    c.Endless i := by
  intro n
  induction n using Nat.strongRecOn with
  | ind n ih =>
    rcases Nat.lt_or_ge (m + (k + 1)) n with hlt | hle
    · -- A place past the second visit is like one as far past the first.
      obtain ⟨r, rfl⟩ := Nat.exists_eq_add_of_lt hlt
      have hsame : c.above? i (m + (k + 1) + (r + 1)) = c.above? i (m + (r + 1)) := by
        rw [above?_add, hagain, above?_add, h]
      rw [Nat.add_assoc (m + (k + 1)), hsame]
      exact ih _ (by omega)
    · exact above?_isSome_of_le (by rw [hagain]; rfl) hle

/-- A way up with more steps than there are objects comes to one of them again. -/
theorem endless_of_long (h : (c.above? i (c.objects.length + 1)).isSome = true) :
    c.Endless i := by
  have hplace : ∀ k : Fin (c.objects.length + 1), ∃ j : Fin c.objects.length,
      c.above? i k = some j.val := by
    intro k
    have hnext : (c.above? i (k + 1)).isSome = true := above?_isSome_of_le h (by omega)
    cases hk : c.above? i k with
    | none => simp [above?, hk] at hnext
    | some j =>
      rw [above?, hk, Option.bind_some] at hnext
      obtain ⟨o, ho⟩ := object?_of_parent? hnext
      exact ⟨⟨j, (List.getElem?_eq_some_iff.mp ho).1⟩, rfl⟩
  choose place hplace using hplace
  -- There are more steps than objects, so two of them lead to one object.
  obtain ⟨a, b, hne, heq⟩ := Fintype.exists_ne_map_eq_of_card_lt place (by simp)
  have hsame : c.above? i a = c.above? i b := by rw [hplace, hplace, heq]
  wlog hlt : a < b generalizing a b
  · exact this b a hne.symm heq.symm hsame.symm (lt_of_le_of_ne (not_lt.mp hlt) hne.symm)
  obtain ⟨r, hr⟩ := Nat.exists_eq_add_of_lt (Fin.lt_def.mp hlt)
  refine endless_of_again (hplace a) (k := r) ?_
  rw [← hplace a, hsame, hr, Nat.add_assoc]

/-- What the check looks for: the way up comes to `top`, or it takes too many steps. -/
theorem climbs_iff (c : Catalog) (top steps : Nat) (parent : Option Nat) :
    Declarations.climbs c top steps parent = true ↔
      (∃ k < steps, (parent.bind fun j => c.above? j k) = some top) ∨
        (parent.bind fun j => c.above? j steps).isSome = true := by
  induction steps generalizing parent with
  | zero => cases parent <;> simp [Declarations.climbs, above?]
  | succ steps ih =>
    cases parent with
    | none => simp [Declarations.climbs]
    | some p =>
      have hparent : ((c.object? p).bind ObjectInfo.parent) = c.parent? p := rfl
      rw [Declarations.climbs, hparent, Bool.or_eq_true, ih, beq_iff_eq]
      simp only [Option.bind_some, ← above?_succ]
      constructor
      · rintro (rfl | ⟨k, hk, htop⟩ | hlong)
        · exact .inl ⟨0, Nat.succ_pos _, rfl⟩
        · exact .inl ⟨k + 1, Nat.succ_lt_succ hk, htop⟩
        · exact .inr hlong
      · rintro (⟨k, hk, htop⟩ | hlong)
        · cases k with
          | zero => exact .inl (Option.some.inj htop)
          | succ k => exact .inr (.inl ⟨k, Nat.lt_of_succ_lt_succ hk, htop⟩)
        · exact .inr (.inr hlong)

/-- The check finds exactly the objects from which the way up never ends. -/
theorem climbs_iff_endless (ho : c.object? i = some o) :
    Declarations.climbs c i c.objects.length o.parent = true ↔ c.Endless i := by
  rw [climbs_iff, ← parent?_eq ho]
  simp only [← above?_succ]
  constructor
  · rintro (⟨k, -, htop⟩ | hlong)
    · exact endless_of_again (m := 0) (k := k) rfl (by rw [Nat.zero_add]; exact htop)
    · exact endless_of_long hlong
  · exact fun h => .inr (h _)

theorem Sound.not_endless (h : c.Sound) (ho : c.object? i = some o) : ¬ c.Endless i := by
  have hclimbs := h.acyclic o (mem_of_object? ho)
  rw [h.id_eq ho] at hclimbs
  rw [← climbs_iff_endless ho, hclimbs]
  exact Bool.false_ne_true

/-! ### What `ancestry` lists -/

/-- The objects from one up to one that has no parent, each after the one whose parent it is. -/
inductive Ascent (c : Catalog) : Nat → List ObjectInfo → Prop
  | root {i : Nat} {o : ObjectInfo} (ho : c.object? i = some o) (hroot : o.parent = none) :
    Ascent c i [o]
  | step {i j : Nat} {o : ObjectInfo} {os : List ObjectInfo} (ho : c.object? i = some o)
    (hparent : o.parent = some j) (h : Ascent c j os) : Ascent c i (o :: os)

/-- A way up that ends within some steps is listed as a whole. -/
theorem ascent_ancestryWithin {top steps : Nat}
    (hlinked : ∀ o ∈ c.objects, ∀ j ∈ o.parent, ∃ p, c.object? j = some p)
    (ho : c.object? i = some o) (hclimbs : Declarations.climbs c top steps o.parent = false) :
    c.Ascent i (c.ancestryWithin steps i) := by
  induction steps generalizing i o with
  | zero =>
    have hroot := climbs_zero hclimbs
    rcases ancestryWithin_cases ho 0 with ⟨heq, -⟩ | ⟨less, j, hsteps, -, -⟩
    · rw [heq]
      exact .root ho hroot
    · cases hsteps
  | succ steps ih =>
    rcases ancestryWithin_cases ho (steps + 1) with ⟨heq, hend⟩ | ⟨less, j, hsteps, hparent, heq⟩
    · rw [heq]
      exact .root ho (hend.resolve_left (Nat.succ_ne_zero _))
    · obtain ⟨p, hp⟩ := hlinked o (mem_of_object? ho) j hparent
      cases hsteps
      rw [hparent, Declarations.climbs, hp] at hclimbs
      rw [heq]
      exact .step ho hparent (ih hp (Bool.or_eq_false_iff.mp hclimbs).2)

theorem Ascent.exists_above (hreg : ObjectInfo.Registered c.objects) {os : List ObjectInfo}
    (h : c.Ascent i os) (hp : p ∈ os) : ∃ k, c.above? i k = some p.id := by
  induction h with
  | root ho _ =>
    rw [List.mem_singleton.mp hp, id_eq_of_registered hreg ho]
    exact ⟨0, rfl⟩
  | step ho hparent _ ih =>
    rcases List.mem_cons.mp hp with rfl | hp
    · rw [id_eq_of_registered hreg ho]
      exact ⟨0, rfl⟩
    · obtain ⟨k, hk⟩ := ih hp
      exact ⟨k + 1, by rw [above?_succ, parent?_eq ho, hparent]; exact hk⟩

/-- On a way up that ends no object comes twice. -/
theorem Ascent.nodup (hc : c.Sound) {os : List ObjectInfo} (h : c.Ascent i os) : os.Nodup := by
  induction h with
  | root => exact List.nodup_singleton _
  | @step i j o os ho hparent h ih =>
    refine List.nodup_cons.mpr ⟨fun hmem => hc.not_endless ho ?_, ih⟩
    obtain ⟨k, hk⟩ := h.exists_above hc.registered hmem
    rw [hc.id_eq ho] at hk
    refine endless_of_again (m := 0) (j := i) (k := k) rfl ?_
    rw [Nat.zero_add, above?_succ, parent?_eq ho, hparent]
    exact hk

theorem Sound.ascent_ancestry (hc : c.Sound)
    (hlinked : ∀ o ∈ c.objects, ∀ j ∈ o.parent, ∃ p, c.object? j = some p)
    (ho : c.object? i = some o) : c.Ascent i (c.ancestry i) :=
  ascent_ancestryWithin hlinked ho (hc.acyclic o (mem_of_object? ho))

/-- No two objects inherit from each other. -/
theorem Sound.isSubtype_antisymm (hc : c.Sound)
    (hlinked : ∀ o ∈ c.objects, ∀ j ∈ o.parent, ∃ p, c.object? j = some p)
    (hij : c.isSubtype i j = true) (hji : c.isSubtype j i = true) : i = j := by
  obtain ⟨p, hp, rfl⟩ := isSubtype_iff.mp hij
  obtain ⟨q, hq, hback⟩ := isSubtype_iff.mp hji
  obtain ⟨o, ho⟩ := object?_of_mem_ancestryWithin hp
  obtain ⟨r, hr⟩ := object?_of_mem_ancestryWithin hq
  obtain ⟨a, ha⟩ := (hc.ascent_ancestry hlinked ho).exists_above hc.registered hp
  obtain ⟨b, hb⟩ := (hc.ascent_ancestry hlinked hr).exists_above hc.registered hq
  rw [hback] at hb
  by_contra hne
  cases a with
  | zero => exact hne (Option.some.inj ha)
  | succ a =>
    refine hc.not_endless ho (endless_of_again (m := 0) (j := i) (k := a + b) rfl ?_)
    rw [Nat.zero_add, Nat.add_right_comm, above?_add, ha]
    exact hb

/-! ### Lookups -/

theorem Sound.lookup_eq_ok_iff (hc : c.Sound) {name : String} :
    c.lookup name = .ok o ↔ o ∈ c.objects ∧ o.name = name := by
  unfold lookup
  constructor
  · intro h
    cases hfind : c.lookup? name with
    | none => simp [hfind] at h
    | some p =>
      rw [hfind] at h
      obtain rfl := Except.ok.inj h
      exact ⟨List.mem_of_find?_eq_some hfind, by simpa using List.find?_some hfind⟩
  · rintro ⟨ho, rfl⟩
    rw [hc.lookup?_name ho]

theorem lookup?_eq_none_iff {name : String} :
    c.lookup? name = none ↔ name ∉ c.objects.map ObjectInfo.name := by
  simp [lookup?, List.find?_eq_none]

/-- The signature that is known by a name: of a method of the owner, or of a function if there is
no owner. -/
def signature? (c : Catalog) : Option String → String → Option (Signature TypeSet)
  | none, name => c.function? name
  | some owner, name => c.method? owner name

end Catalog

/-! ### The objects that were declared -/

namespace Declarations

open CatalogError (bind_eq_ok)
open Catalog (id_eq_of_registered parent?_eq object?_of_parent? above?_succ)

variable {c c' : Catalog} {decls : List (String × Option String)}

/-- From the object, the way from parent to parent never ends. -/
def EndlessFrom (decls : List (String × Option String)) (name : String) : Prop :=
  ∃ way : Nat → String, way 0 = name ∧ ∀ n, (way n, some (way (n + 1))) ∈ decls

/-- The objects are those that were declared, in this order, with the parents that were declared. -/
structure Declares (decls : List (String × Option String)) (c : Catalog) : Prop where
  names : c.objects.map ObjectInfo.name = decls.map Prod.fst
  parents : ∀ o ∈ c.objects, ∃ parent, (o.name, parent) ∈ decls ∧
    Option.Rel (fun name j => ∃ p, c.object? j = some p ∧ p.name = name) parent o.parent

theorem addObjects_spec (h : addObjects c decls = .ok c') :
    c'.objects.map ObjectInfo.name = c.objects.map ObjectInfo.name ++ decls.map Prod.fst ∧
      ∀ o ∈ c'.objects, o ∈ c.objects ∨ o.parent = none := by
  induction decls generalizing c with
  | nil =>
    obtain rfl : c = c' := by simpa [addObjects] using h
    exact ⟨(List.append_nil _).symm, fun o ho => .inl ho⟩
  | cons decl decls ih =>
    rw [addObjects] at h
    split at h
    · cases h
    · obtain ⟨hnames, hparents⟩ := ih h
      refine ⟨?_, fun o ho => ?_⟩
      · rw [hnames, List.map_append, List.append_assoc]
        rfl
      · rcases hparents o ho with hmem | hroot
        · rcases List.mem_append.mp hmem with hmem | hmem
          · exact .inl hmem
          · rw [List.mem_singleton.mp hmem]
            exact .inr rfl
        · exact .inr hroot

/-- Distinct names that are not those of built-in types can all be added. -/
theorem exists_addObjects
    (hnames : (c.objects.map ObjectInfo.name ++ decls.map Prod.fst).Nodup)
    (hreserved : ∀ name ∈ decls.map Prod.fst, name ∉ TypeExpr.primitives) :
    ∃ c', addObjects c decls = .ok c' := by
  induction decls generalizing c with
  | nil => exact ⟨c, rfl⟩
  | cons decl decls ih =>
    obtain ⟨name, parent⟩ := decl
    obtain ⟨hname, hreserved⟩ := List.forall_mem_cons.mp hreserved
    have hfresh : name ∉ c.objects.map ObjectInfo.name := fun hmem =>
      List.disjoint_of_nodup_append hnames hmem List.mem_cons_self
    have hnew : ¬ (TypeExpr.primitives.contains name || (c.lookup? name).isSome) = true := by
      rw [Catalog.lookup?_eq_none_iff.mpr hfresh]
      simpa using hname
    rw [addObjects, if_neg hnew]
    refine ih ?_ hreserved
    rw [List.map_append, List.append_assoc]
    exact hnames

theorem linkParents_spec {pairs : List (ObjectInfo × Option String)} {linked : List ObjectInfo}
    (h : linkParents c pairs = .ok linked) (hroots : ∀ pair ∈ pairs, pair.1.parent = none) :
    ∀ o ∈ linked, ∃ pair ∈ pairs, o.name = pair.1.name ∧
      Option.Rel (fun name j => ∃ p, c.lookup? name = some p ∧ p.id = j) pair.2 o.parent := by
  induction pairs generalizing linked with
  | nil =>
    obtain rfl : [] = linked := by simpa [linkParents] using h
    exact fun _ ho => absurd ho List.not_mem_nil
  | cons pair pairs ih =>
    obtain ⟨o, parent⟩ := pair
    obtain ⟨hroot, hroots⟩ := List.forall_mem_cons.mp hroots
    have hmore {rest : List ObjectInfo} (hrest : linkParents c pairs = .ok rest) :
        ∀ q ∈ rest, ∃ pair ∈ (o, parent) :: pairs, q.name = pair.1.name ∧
          Option.Rel (fun name j => ∃ p, c.lookup? name = some p ∧ p.id = j) pair.2 q.parent := by
      intro q hq
      obtain ⟨pair, hpair, hspec⟩ := ih hrest hroots q hq
      exact ⟨pair, List.mem_cons_of_mem _ hpair, hspec⟩
    cases parent with
    | none =>
      obtain ⟨rest, hrest, heq⟩ := bind_eq_ok.mp h
      obtain rfl := Except.ok.inj heq
      refine List.forall_mem_cons.mpr ⟨⟨_, List.mem_cons_self, rfl, ?_⟩, hmore hrest⟩
      rw [hroot]
      exact .none
    | some parent =>
      obtain ⟨p, hlookup, h⟩ := bind_eq_ok.mp h
      obtain ⟨rest, hrest, heq⟩ := bind_eq_ok.mp h
      obtain rfl := Except.ok.inj heq
      refine List.forall_mem_cons.mpr ⟨⟨_, List.mem_cons_self, rfl, ?_⟩, hmore hrest⟩
      -- A parent is linked by the number of the object that its name finds.
      unfold Catalog.lookup at hlookup
      split at hlookup
      · next found hfind =>
        exact .some ⟨found, hfind, congrArg ObjectInfo.id (Except.ok.inj hlookup)⟩
      · cases hlookup

/-- Parents that are all declared can all be linked. -/
theorem exists_linkParents {pairs : List (ObjectInfo × Option String)}
    (h : ∀ pair ∈ pairs, ∀ parent ∈ pair.2, parent ∈ c.objects.map ObjectInfo.name) :
    ∃ linked, linkParents c pairs = .ok linked := by
  induction pairs with
  | nil => exact ⟨[], rfl⟩
  | cons pair pairs ih =>
    obtain ⟨o, parent⟩ := pair
    obtain ⟨hparent, hpairs⟩ := List.forall_mem_cons.mp h
    obtain ⟨rest, hrest⟩ := ih hpairs
    cases parent with
    | none => exact ⟨o :: rest, bind_eq_ok.mpr ⟨rest, hrest, rfl⟩⟩
    | some parent =>
      obtain ⟨p, hp⟩ : ∃ p, c.lookup parent = .ok p := by
        unfold Catalog.lookup
        cases hfind : c.lookup? parent with
        | none => exact absurd (hparent parent rfl) (Catalog.lookup?_eq_none_iff.mp hfind)
        | some p => exact ⟨p, rfl⟩
      exact ⟨{ o with parent := some p.id } :: rest,
        bind_eq_ok.mpr ⟨p, hp, bind_eq_ok.mpr ⟨rest, hrest, rfl⟩⟩⟩

/-- Every object that was added is linked to the parent that was declared with it. -/
theorem mem_decls_of_mem_zip (hnames : c.objects.map ObjectInfo.name = decls.map Prod.fst)
    {pair : ObjectInfo × Option String} (hpair : pair ∈ c.objects.zip (decls.map (·.2))) :
    (pair.1.name, pair.2) ∈ decls := by
  have hdecls : decls = (c.objects.zip (decls.map (·.2))).map (Prod.map ObjectInfo.name id) := by
    rw [← List.zip_map_left, hnames]
    exact List.zip_of_prod rfl rfl
  rw [hdecls]
  exact List.mem_map_of_mem hpair

theorem object?_id (hreg : ObjectInfo.Registered c.objects) {p : ObjectInfo}
    (hp : p ∈ c.objects) : c.object? p.id = some p := by
  obtain ⟨i, hi⟩ := List.mem_iff_getElem?.mp hp
  rw [id_eq_of_registered hreg hi]
  exact hi

/-- Objects that were added and linked are those that were declared. -/
theorem declares_linkParents {linked : List ObjectInfo} (hadd : addObjects {} decls = .ok c)
    (hlink : linkParents c (c.objects.zip (decls.map (·.2))) = .ok linked) :
    Declares decls { c with objects := linked } := by
  obtain ⟨hnames, hroots⟩ := addObjects_spec hadd
  have hnames : c.objects.map ObjectInfo.name = decls.map Prod.fst := hnames
  have hreg := (addObjects_registered hadd ⟨rfl, .nil, by simp⟩).1
  have hlength : c.objects.length ≤ (decls.map (·.2)).length := by
    simpa using (congrArg List.length hnames).le
  have hlinked : linked.map ObjectInfo.name = c.objects.map ObjectInfo.name := by
    have hzip : (c.objects.zip (decls.map (·.2))).map Prod.fst = c.objects :=
      List.map_fst_zip hlength
    rw [(linkParents_keeps hlink).2]
    conv => rhs; rw [← hzip, List.map_map]
    rfl
  refine ⟨hlinked.trans hnames, fun o ho => ?_⟩
  have hparents := linkParents_spec hlink fun pair hpair => by
    rcases hroots pair.1 (List.of_mem_zip hpair).1 with hmem | hroot
    · cases hmem
    · exact hroot
  obtain ⟨pair, hpair, hname, hrel⟩ := hparents o ho
  refine ⟨pair.2, ?_, ?_⟩
  · rw [hname]
    exact mem_decls_of_mem_zip hnames hpair
  · -- What was found by its name before linking stands at the same place after it.
    generalize pair.2 = parent at hrel ⊢
    generalize o.parent = up at hrel ⊢
    cases hrel with
    | none => exact .none
    | @some name j hp =>
      obtain ⟨p, hp, hid⟩ := hp
      refine .some ?_
      have hplace : (linked.map ObjectInfo.name)[j]? = some name := by
        have hpname : p.name = name := by simpa using List.find?_some hp
        have hobject := object?_id hreg (List.mem_of_find?_eq_some hp)
        rw [hid] at hobject
        rw [hlinked, List.getElem?_map]
        exact (congrArg (Option.map ObjectInfo.name) hobject).trans (congrArg some hpname)
      rw [List.getElem?_map] at hplace
      obtain ⟨q, hq, hqname⟩ := Option.map_eq_some_iff.mp hplace
      exact ⟨q, hq, hqname⟩

theorem Declares.linked (h : Declares decls c) :
    ∀ o ∈ c.objects, ∀ j ∈ o.parent, ∃ p, c.object? j = some p := by
  intro o ho j hj
  obtain ⟨parent, -, hrel⟩ := h.parents o ho
  rw [Option.mem_def.mp hj] at hrel
  cases hrel with
  | some hp =>
    obtain ⟨p, hp, -⟩ := hp
    exact ⟨p, hp⟩

/-- A way of declared links is a way up the objects. -/
theorem exists_above_of_way (hreg : ObjectInfo.Registered c.objects) (hdecl : Declares decls c)
    {o : ObjectInfo} {i : Nat} (ho : c.object? i = some o) {way : Nat → String}
    (hstart : way 0 = o.name) (hway : ∀ n, (way n, some (way (n + 1))) ∈ decls) (n : Nat) :
    ∃ j p, c.above? i n = some j ∧ c.object? j = some p ∧ p.name = way n := by
  have hnodup : (decls.map Prod.fst).Nodup := by
    rw [← hdecl.names]
    exact hreg.names
  induction n with
  | zero => exact ⟨i, o, rfl, ho, hstart.symm⟩
  | succ n ih =>
    obtain ⟨j, p, hj, hp, hname⟩ := ih
    obtain ⟨parent, hmem, hrel⟩ := hdecl.parents p (Catalog.mem_of_object? hp)
    rw [hname] at hmem
    -- A name is declared once, so the parent is the next name on the way.
    have hparent : parent = some (way (n + 1)) := congrArg Prod.snd
      (List.inj_on_of_nodup_map hnodup hmem (hway n) rfl)
    rw [hparent] at hrel
    cases hup : p.parent with
    | none =>
      rw [hup] at hrel
      cases hrel
    | some k =>
      rw [hup] at hrel
      cases hrel with
      | some hq =>
        obtain ⟨q, hq, hqname⟩ := hq
        refine ⟨k, q, ?_, hq, hqname⟩
        rw [Catalog.above?, hj, Option.bind_some, parent?_eq hp, hup]

/-- Ways up in the catalog are ways up in the declarations. -/
theorem endlessFrom_iff (hreg : ObjectInfo.Registered c.objects) (hdecl : Declares decls c)
    {o : ObjectInfo} {i : Nat} (ho : c.object? i = some o) :
    EndlessFrom decls o.name ↔ c.Endless i := by
  constructor
  · rintro ⟨way, hstart, hway⟩
    intro n
    obtain ⟨j, p, hj, -, -⟩ := exists_above_of_way hreg hdecl ho hstart hway n
    rw [hj]
    rfl
  · intro h
    let way : Nat → String := fun n =>
      (((c.above? i n).bind c.object?).map ObjectInfo.name).getD ""
    refine ⟨way, by simp [way, Catalog.above?, ho], fun n => ?_⟩
    obtain ⟨j, hj⟩ := Option.isSome_iff_exists.mp (h n)
    have hnext := h (n + 1)
    rw [Catalog.above?, hj, Option.bind_some] at hnext
    obtain ⟨p, hp⟩ := object?_of_parent? hnext
    obtain ⟨k, hk⟩ := Option.isSome_iff_exists.mp hnext
    have hup : p.parent = some k := by rw [← parent?_eq hp, hk]
    obtain ⟨parent, hmem, hrel⟩ := hdecl.parents p (Catalog.mem_of_object? hp)
    rw [hup] at hrel
    cases hrel with
    | some hq =>
      obtain ⟨q, hq, hqname⟩ := hq
      have hway : way n = p.name := by simp [way, hj, hp]
      have hway' : way (n + 1) = q.name := by simp [way, Catalog.above?, hj, hk, hq]
      rw [hway, hway', hqname]
      exact hmem

/-- The check passes, or it names an object from which the way up never ends. -/
theorem checkCycles_cases (hreg : ObjectInfo.Registered c.objects) (hdecl : Declares decls c) :
    (checkCycles c = .ok () ∧ ∀ name, ¬ EndlessFrom decls name) ∨
    ∃ name, checkCycles c = .error (.inheritanceCycle name) ∧ EndlessFrom decls name := by
  have hendless : ∀ o ∈ c.objects, climbs c o.id c.objects.length o.parent = true ↔
      EndlessFrom decls o.name := by
    intro o ho
    have hobject := object?_id hreg ho
    rw [Catalog.climbs_iff_endless hobject, endlessFrom_iff hreg hdecl hobject]
  unfold checkCycles
  split
  · next o hfind =>
    have hclimbs : climbs c o.id c.objects.length o.parent = true := by
      simpa using List.find?_some hfind
    exact .inr ⟨o.name, rfl, (hendless o (List.mem_of_find?_eq_some hfind)).mp hclimbs⟩
  · next hfind =>
    refine .inl ⟨rfl, fun name hname => ?_⟩
    have hmem : name ∈ c.objects.map ObjectInfo.name := by
      obtain ⟨way, rfl, hway⟩ := hname
      rw [hdecl.names]
      exact List.mem_map_of_mem (hway 0)
    obtain ⟨o, ho, rfl⟩ := List.mem_map.mp hmem
    exact List.find?_eq_none.mp hfind o ho ((hendless o ho).mpr hname)

/-- What the objects become before the check for cycles. -/
theorem buildObjects_eq {linked : List ObjectInfo} (hadd : addObjects {} decls = .ok c)
    (hlink : linkParents c (c.objects.zip (decls.map (·.2))) = .ok linked) :
    buildObjects decls = (checkCycles { c with objects := linked }).map fun _ =>
      { c with objects := linked } := by
  unfold buildObjects
  rw [hadd]
  change (linkParents c (c.objects.zip (decls.map (·.2))) >>= _) = _
  rw [hlink]
  change (checkCycles { c with objects := linked } >>= fun _ => _) = _
  cases checkCycles { c with objects := linked } <;> rfl

theorem declares_buildObjects (h : buildObjects decls = .ok c) : Declares decls c := by
  obtain ⟨added, hadd, h⟩ := bind_eq_ok.mp h
  obtain ⟨linked, hlink, h⟩ := bind_eq_ok.mp h
  obtain ⟨⟨⟩, -, h⟩ := bind_eq_ok.mp h
  obtain rfl := Except.ok.inj h
  exact declares_linkParents hadd hlink

/-- Distinct names whose parents are all declared fail only for a way up that never ends. -/
theorem buildObjects_cases (hnames : (decls.map Prod.fst).Nodup)
    (hreserved : ∀ name ∈ decls.map Prod.fst, name ∉ TypeExpr.primitives)
    (hparents : ∀ name parent, (name, some parent) ∈ decls → parent ∈ decls.map Prod.fst) :
    ((∃ c, buildObjects decls = .ok c) ∧ ∀ name, ¬ EndlessFrom decls name) ∨
    ∃ name, buildObjects decls = .error (.inheritanceCycle name) ∧ EndlessFrom decls name := by
  have hadds : ∃ c, addObjects {} decls = .ok c := exists_addObjects hnames hreserved
  obtain ⟨c, hadd⟩ := hadds
  have hobjects : c.objects.map ObjectInfo.name = decls.map Prod.fst := (addObjects_spec hadd).1
  have hlinks : ∃ linked, linkParents c (c.objects.zip (decls.map (·.2))) = .ok linked := by
    refine exists_linkParents fun pair hpair parent hparent => ?_
    have hmem := mem_decls_of_mem_zip hobjects hpair
    rw [Option.mem_def.mp hparent] at hmem
    rw [hobjects]
    exact hparents _ _ hmem
  obtain ⟨linked, hlink⟩ := hlinks
  rw [buildObjects_eq hadd hlink]
  rcases checkCycles_cases (registered_linkParents hadd hlink) (declares_linkParents hadd hlink)
    with ⟨hcheck, hnone⟩ | ⟨name, hcheck, hendless⟩
  · rw [hcheck]
    exact .inl ⟨⟨_, rfl⟩, hnone⟩
  · rw [hcheck]
    exact .inr ⟨name, rfl, hendless⟩

/-! ### The functions and methods that were declared -/

/-- The catalog with one more function or method. -/
def withSignature (c : Catalog) (g : Signature TypeSet) : Catalog :=
  match g.owner with
  | none => { c with functions := c.functions ++ [g] }
  | some _ => { c with methods := c.methods ++ [g] }

theorem signature?_withSignature {g h : Signature TypeSet} {owner : Option String} {name : String}
    (hnew : c.signature? g.owner g.name = none) :
    (withSignature c g).signature? owner name = some h ↔
      c.signature? owner name = some h ∨ (g.owner = owner ∧ g.name = name ∧ g = h) := by
  -- The new declaration is at the end of its list, so it is found when nothing before it is.
  have hone (l : List (Signature TypeSet)) (key : Signature TypeSet → Bool)
      (hkey : key g = true → l.find? key = none) :
      (l ++ [g]).find? key = some h ↔ l.find? key = some h ∨ (key g = true ∧ g = h) := by
    rw [List.find?_append, List.find?_singleton]
    by_cases hg : key g = true
    · simp [hkey hg, hg]
    · simp [hg]
  obtain ⟨gowner, gname, returns, params⟩ := g
  cases gowner with
  | none =>
    cases owner with
    | none =>
      refine (hone c.functions (·.name == name) fun hname => ?_).trans
        (by simp [Catalog.signature?, Catalog.function?])
      rw [← beq_iff_eq.mp hname]
      exact hnew
    | some owner => simp [withSignature, Catalog.signature?, Catalog.method?]
  | some gowner =>
    cases owner with
    | none => simp [withSignature, Catalog.signature?, Catalog.function?]
    | some owner =>
      refine (hone c.methods (fun m => m.owner == some owner && m.name == name)
        fun hname => ?_).trans
          (by simp [Catalog.signature?, Catalog.method?, and_assoc])
      obtain ⟨howner, hname⟩ := Bool.and_eq_true_iff.mp hname
      rw [← beq_iff_eq.mp howner, ← beq_iff_eq.mp hname]
      exact hnew

theorem addFunction_spec {f : Signature String} (h : addFunction c f = .ok c') :
    ∃ g, resolve c f = .ok g ∧ g.owner = f.owner ∧ g.name = f.name ∧
      c.signature? f.owner f.name = none ∧ c' = withSignature c g := by
  obtain ⟨g, hresolve, h⟩ := bind_eq_ok.mp h
  obtain ⟨howner, hname⟩ : g.owner = f.owner ∧ g.name = f.name := by
    obtain ⟨params, -, hreturns⟩ := bind_eq_ok.mp hresolve
    obtain ⟨returns, -, heq⟩ := bind_eq_ok.mp hreturns
    obtain rfl := Except.ok.inj heq
    exact ⟨rfl, rfl⟩
  refine ⟨g, hresolve, howner, hname, ?_⟩
  split at h
  · next hnone =>
    split at h
    · cases h
    · next hnew =>
      obtain rfl := Except.ok.inj h
      rw [hnone, ← hname]
      exact ⟨by simpa [Catalog.signature?] using hnew, by rw [withSignature, howner, hnone]⟩
  · next owner hsome =>
    -- The owner is looked up unless it is a built-in type. A method that is there already is an error
    -- after either.
    cases hnew : c.method? owner g.name with
    | some m =>
      simp only [hnew, Option.isSome_some, if_true] at h
      split at h
      · cases h
      · obtain ⟨_, -, h⟩ := bind_eq_ok.mp h
        cases h
    | none =>
      have hadded : ({ c with methods := c.methods ++ [g] } : Catalog) = c' := by
        simp only [hnew, Option.isSome_none, Bool.false_eq_true, if_false] at h
        split at h
        · exact Except.ok.inj h
        · obtain ⟨_, -, h⟩ := bind_eq_ok.mp h
          exact Except.ok.inj h
      rw [hsome, ← hname, ← hadded, withSignature, howner, hsome]
      exact ⟨hnew, rfl⟩

theorem resolve_congr (hobjects : c'.objects = c.objects) (f : Signature String) :
    resolve c' f = resolve c f := by
  have hlookup : c'.lookup? = c.lookup? := by
    funext name
    rw [Catalog.lookup?, Catalog.lookup?, hobjects]
  have htype : c'.parseType = c.parseType := by
    funext expr
    rw [Catalog.parseType, Catalog.parseType, hlookup]
  have hparams : ∀ ps, resolveParams c' ps = resolveParams c ps := by
    intro ps
    induction ps with
    | nil => rfl
    | cons p ps ih => rw [resolveParams, resolveParams, htype, ih]
  rw [resolve, resolve, hparams, htype]

/-- Every declaration is resolved, no two are for one name, and by each name the declaration for it
is found. -/
theorem addFunctions_spec {fs : List (Signature String)} (h : addFunctions c fs = .ok c') :
    (∀ f ∈ fs, ∃ g, resolve c f = .ok g) ∧
    (fs.map fun f => (f.owner, f.name)).Nodup ∧
    (∀ f ∈ fs, c.signature? f.owner f.name = none) ∧
    ∀ owner name g, c'.signature? owner name = some g ↔
      c.signature? owner name = some g ∨
        ∃ f ∈ fs, f.owner = owner ∧ f.name = name ∧ resolve c f = .ok g := by
  induction fs generalizing c with
  | nil =>
    obtain rfl : c = c' := Except.ok.inj h
    exact ⟨nofun, .nil, nofun, by simp⟩
  | cons f fs ih =>
    obtain ⟨added, hadd, h⟩ := bind_eq_ok.mp h
    obtain ⟨hresolved, hnodup, hfresh, hfound⟩ := ih h
    have hobjects := addFunction_objects hadd
    obtain ⟨g, hresolve, howner, hname, hnew, rfl⟩ := addFunction_spec hadd
    have hwith : ∀ owner name h, (withSignature c g).signature? owner name = some h ↔
        c.signature? owner name = some h ∨ (g.owner = owner ∧ g.name = name ∧ g = h) :=
      fun owner name h => signature?_withSignature (by rw [howner, hname]; exact hnew)
    refine ⟨List.forall_mem_cons.mpr ⟨⟨g, hresolve⟩, fun f' hf' => ?_⟩, ?_,
      List.forall_mem_cons.mpr ⟨hnew, fun f' hf' => ?_⟩, fun owner name g' => ?_⟩
    · rw [← resolve_congr hobjects f']
      exact hresolved f' hf'
    · refine List.nodup_cons.mpr ⟨fun hmem => ?_, hnodup⟩
      obtain ⟨f', hf', hkey⟩ := List.mem_map.mp hmem
      obtain ⟨howner', hname'⟩ := Prod.mk.inj hkey
      -- Once it is added the name is taken, and what follows it may not have it.
      have hone := (hwith f.owner f.name g).mpr (.inr ⟨howner, hname, rfl⟩)
      rw [← howner', ← hname', hfresh f' hf'] at hone
      cases hone
    · have hnone := hfresh f' hf'
      cases hc : c.signature? f'.owner f'.name with
      | none => rfl
      | some g' =>
        rw [(hwith _ _ g').mpr (.inl hc)] at hnone
        cases hnone
    · rw [hfound, hwith, or_assoc]
      refine or_congr_right ?_
      simp only [List.exists_mem_cons_iff, resolve_congr hobjects, howner, hname, hresolve,
        Except.ok.injEq]

/-! Modules and variables leave the functions and methods alone. -/

theorem addObjects_signature? (h : addObjects c decls = .ok c') :
    c'.signature? = c.signature? := by
  induction decls generalizing c with
  | nil => rw [Except.ok.inj h]
  | cons decl decls ih =>
    rw [addObjects] at h
    split at h
    · cases h
    · exact (ih h).trans rfl

theorem buildObjects_signature? (h : buildObjects decls = .ok c) (owner : Option String)
    (name : String) : c.signature? owner name = none := by
  obtain ⟨added, hadd, h⟩ := bind_eq_ok.mp h
  obtain ⟨linked, -, h⟩ := bind_eq_ok.mp h
  obtain ⟨⟨⟩, -, h⟩ := bind_eq_ok.mp h
  obtain rfl := Except.ok.inj h
  have hempty : added.signature? owner name = none := by
    rw [addObjects_signature? hadd]
    cases owner <;> rfl
  exact hempty

theorem addModules_signature? {modules : List (String × String)}
    (h : addModules c modules = .ok c') : c'.signature? = c.signature? := by
  induction modules generalizing c with
  | nil => rw [Except.ok.inj h]
  | cons entry modules ih =>
    obtain ⟨o, -, h⟩ := bind_eq_ok.mp h
    split at h
    · cases h
    · exact (ih h).trans rfl

theorem addGlobals_signature? {globals : List (String × String)}
    (h : addGlobals c globals = .ok c') : c'.signature? = c.signature? := by
  induction globals generalizing c with
  | nil => rw [Except.ok.inj h]
  | cons entry globals ih =>
    obtain ⟨o, -, h⟩ := bind_eq_ok.mp h
    exact (ih h).trans rfl

/-! ### The whole catalog -/

/-- The catalog holds what was declared, and every question about it has one answer. -/
structure Answers (d : Declarations) (c : Catalog) : Prop where
  /-- The objects above an object are listed up to one that has no parent, each once. -/
  ancestry : ∀ i o, c.object? i = some o → c.Ascent i (c.ancestry i) ∧ (c.ancestry i).Nodup
  refl : ∀ i o, c.object? i = some o → c.isSubtype i i = true
  antisymm : ∀ i j, c.isSubtype i j = true → c.isSubtype j i = true → i = j
  trans : ∀ i j k, c.isSubtype i j = true → c.isSubtype j k = true → c.isSubtype i k = true
  /-- Exactly the declared names are known, each as the one object that has it. -/
  names : c.objects.map ObjectInfo.name = d.objects.map Prod.fst
  lookup : ∀ name, name ∈ d.objects.map Prod.fst →
    ∃ o, c.lookup name = .ok o ∧ o.name = name ∧ ∀ p ∈ c.objects, p.name = name → p = o
  unknown : ∀ name, name ∉ d.objects.map Prod.fst →
    c.lookup name = .error (.unknownType name)
  /-- Every function and method was declared once, and its types were resolved. -/
  resolved : ∀ f ∈ d.functions, ∃ g, resolve c f = .ok g
  once : (d.functions.map fun f => (f.owner, f.name)).Nodup
  /-- What is found by a name is what was declared under it. -/
  signature : ∀ owner name g, c.signature? owner name = some g ↔
    ∃ f ∈ d.functions, f.owner = owner ∧ f.name = name ∧ resolve c f = .ok g

theorem answers_build {d : Declarations} (h : d.build = .ok c) : d.Answers c := by
  have hc := sound_build h
  obtain ⟨first, hfirst, h⟩ := bind_eq_ok.mp h
  obtain ⟨second, hsecond, h⟩ := bind_eq_ok.mp h
  obtain ⟨third, hthird, h⟩ := bind_eq_ok.mp h
  have hobjects : c.objects = first.objects := by
    rw [addGlobals_objects h, addModules_objects hthird, addFunctions_objects hsecond]
  have hsignature : c.signature? = second.signature? := by
    rw [addGlobals_signature? h, addModules_signature? hthird]
  have hdecl := declares_buildObjects hfirst
  have hnames : c.objects.map ObjectInfo.name = d.objects.map Prod.fst := by
    rw [hobjects, hdecl.names]
  have hlinked : ∀ o ∈ c.objects, ∀ j ∈ o.parent, ∃ p, c.object? j = some p := by
    unfold Catalog.object?
    rw [hobjects]
    exact hdecl.linked
  obtain ⟨hresolved, hnodup, -, hfound⟩ := addFunctions_spec hsecond
  exact {
    ancestry := fun i o ho =>
      have hascent := hc.ascent_ancestry hlinked ho
      ⟨hascent, hascent.nodup hc⟩
    refl := fun i o ho => hc.isSubtype_refl ho
    antisymm := fun i j hij hji => hc.isSubtype_antisymm hlinked hij hji
    trans := fun i j k hij hjk => hc.isSubtype_trans hij hjk
    names := hnames
    lookup := by
      intro name hname
      rw [← hnames] at hname
      obtain ⟨o, ho, rfl⟩ := List.mem_map.mp hname
      exact ⟨o, hc.lookup_eq_ok_iff.mpr ⟨ho, rfl⟩, rfl, fun p hp hpname =>
        List.inj_on_of_nodup_map hc.registered.names hp ho hpname⟩
    unknown := by
      intro name hname
      rw [← hnames] at hname
      rw [Catalog.lookup, Catalog.lookup?_eq_none_iff.mpr hname]
    resolved := by
      intro f hf
      rw [resolve_congr hobjects]
      exact hresolved f hf
    once := hnodup
    signature := by
      intro owner name g
      simp only [hsignature, hfound, buildObjects_signature? hfirst, reduceCtorEq, false_or,
        resolve_congr hobjects] }

/-- **Exactly the hierarchies without a cycle make a catalog.** Where the objects have distinct
names that are not those of built-in types, and every parent is declared somewhere, the objects are
refused as a cycle if and only if some way up never ends, and the object that is named is the start
of such a way; otherwise they are accepted. Whatever was declared, a catalog that was built answers
every question about it. -/
theorem build_accepts_exactly (d : Declarations) :
    ((d.objects.map Prod.fst).Nodup →
      (∀ name ∈ d.objects.map Prod.fst, name ∉ TypeExpr.primitives) →
      (∀ name parent, (name, some parent) ∈ d.objects → parent ∈ d.objects.map Prod.fst) →
      ((∃ name, buildObjects d.objects = .error (.inheritanceCycle name)) ↔
        ∃ name, EndlessFrom d.objects name) ∧
      (∀ name, buildObjects d.objects = .error (.inheritanceCycle name) →
        EndlessFrom d.objects name ∧ d.build = .error (.inheritanceCycle name)) ∧
      ((∃ c, buildObjects d.objects = .ok c) ↔ ¬ ∃ name, EndlessFrom d.objects name)) ∧
    ∀ c, d.build = .ok c → d.Answers c := by
  refine ⟨fun hnames hreserved hparents => ?_, fun c h => answers_build h⟩
  rcases buildObjects_cases hnames hreserved hparents with ⟨⟨c, hok⟩, hnone⟩ | ⟨name, herror, hend⟩
  · refine ⟨⟨?_, fun ⟨name, h⟩ => absurd h (hnone name)⟩, ?_, ?_⟩
    · rintro ⟨name, h⟩
      rw [hok] at h
      cases h
    · intro name h
      rw [hok] at h
      cases h
    · exact ⟨fun _ ⟨name, h⟩ => hnone name h, fun _ => ⟨c, hok⟩⟩
  · refine ⟨⟨fun _ => ⟨name, hend⟩, fun _ => ⟨name, herror⟩⟩, ?_, ?_⟩
    · intro other h
      obtain rfl : name = other := by
        rw [herror] at h
        exact CatalogError.inheritanceCycle.inj (Except.error.inj h)
      refine ⟨hend, ?_⟩
      rw [build, herror]
      rfl
    · refine ⟨?_, fun hno => absurd ⟨name, hend⟩ hno⟩
      rintro ⟨c, h⟩
      rw [herror] at h
      cases h

/-- A tool inherits from two objects that inherit from each other: the tool only leads into the
cycle, and is the first object of which it is found. Without the cycle the parents may come after
their children. -/
theorem build_accepts_exactly_led_into_cycle :
    ∃ (d d' : Declarations) (c : Catalog),
      d = { objects := [("tool", some "dep"), ("dep", some "tgt"), ("tgt", some "dep")] } ∧
      (d.objects.map Prod.fst).Nodup ∧
      (∀ name ∈ d.objects.map Prod.fst, name ∉ TypeExpr.primitives) ∧
      (∀ name parent, (name, some parent) ∈ d.objects → parent ∈ d.objects.map Prod.fst) ∧
      d.build = .error (.inheritanceCycle "tool") ∧ EndlessFrom d.objects "tool" ∧
      d' = { objects := [("tool", some "dep"), ("dep", some "tgt"), ("tgt", none)],
             functions := [{ owner := some "dep", name := "found", returns := "bool" }] } ∧
      d'.build = .ok c ∧ d'.Answers c ∧
      (c.ancestry 0).map ObjectInfo.name = ["tool", "dep", "tgt"] := by
  let d : Declarations :=
    { objects := [("tool", some "dep"), ("dep", some "tgt"), ("tgt", some "dep")] }
  let d' : Declarations :=
    { objects := [("tool", some "dep"), ("dep", some "tgt"), ("tgt", none)],
      functions := [{ owner := some "dep", name := "found", returns := "bool" }] }
  have hnames : (d.objects.map Prod.fst).Nodup := by decide
  have hreserved : ∀ name ∈ d.objects.map Prod.fst, name ∉ TypeExpr.primitives := by decide
  have hparents : ∀ name parent, (name, some parent) ∈ d.objects →
      parent ∈ d.objects.map Prod.fst := by
    intro name parent h
    simp [d] at h ⊢
    tauto
  obtain ⟨-, hcycle, -⟩ := (build_accepts_exactly d).1 hnames hreserved hparents
  obtain ⟨hendless, herror⟩ := hcycle "tool" rfl
  exact ⟨d, d', _, rfl, hnames, hreserved, hparents, herror, hendless, rfl, rfl,
    (build_accepts_exactly d').2 _ rfl, rfl⟩

end Declarations

end MesonLens
