import MesonLens.Proofs.Catalog.Hierarchy

/-!
# `MesonLens.Proofs.Catalog.TypeExpressions`: the type expressions of a catalog

In a catalog that was built, no two objects have one name and no object has that of a built-in type.
So the name of an object is read as that object, and sets of types are printed and read back.

* `Catalog.Sound.legible`: the types of the catalog whose names are words can be written;
* `Catalog.parseType_display`: what was read, and what can be written, is read back from its text.
-/

set_option autoImplicit false

namespace MesonLens

namespace Catalog

variable {c : Catalog}

/-- The objects in the type are objects of the catalog, by number and name, and their names are
words. -/
def Spells (c : Catalog) (t : Ty) : Prop :=
  t.Everywhere fun u => ∀ id name, u = .object id name →
    TypeExpr.IsWord name ∧ ∃ o, c.object? id = some o ∧ o.name = name

theorem namesObjects (c : Catalog) :
    TypeExpr.NamesObjects fun name => (c.lookup? name).map ObjectInfo.type := by
  intro name t h
  obtain ⟨o, ho, rfl⟩ := Option.map_eq_some_iff.mp h
  have hname : o.name = name := by simpa using List.find?_some ho
  exact ⟨o.id, by rw [ObjectInfo.type, hname]⟩

/-- In a sound catalog an object is found by its name. -/
theorem Sound.legible (hc : c.Sound) {t : Ty} (hfilled : t.Filled) (hspells : c.Spells t) :
    t.Legible fun name => (c.lookup? name).map ObjectInfo.type := by
  refine hfilled.and_imp hspells fun u hne hobject => ⟨hne, ?_⟩
  intro id name heq
  obtain ⟨hword, o, ho, rfl⟩ := hobject id name heq
  have hmem := mem_of_object? ho
  refine ⟨hword, hc.name_notMem hmem, ?_⟩
  rw [hc.lookup?_name hmem, heq, Option.map_some, ObjectInfo.type, hc.id_eq ho]

/-- **Type expressions are printed and read back.** In every catalog that can be built, a set that
was read is read again from its text, and so is every set of types of the catalog whose objects have
names of letters, digits and underscores and in which no list or dictionary is empty. -/
theorem parseType_display (d : Declarations) (c : Catalog) (hbuild : d.build = .ok c) :
    (∀ (e : String) (s : TypeSet), c.parseType e = .ok s → c.parseType s.display = .ok s) ∧
    ∀ s : TypeSet, s.Built → s.Filled → (∀ t ∈ s.members, c.Spells t) →
      c.parseType s.display = .ok s := by
  have hc := Declarations.sound_build hbuild
  constructor
  · exact fun e s h => TypeExpr.parse_display_of_parse c.namesObjects h
  · intro s hs hfilled hspells
    exact TypeExpr.parse_display hs.canonical fun t ht => hc.legible (hfilled t ht) (hspells t ht)

/-- Blanks go, types are put in order and an open list is a list of anything. An object alone is its
name. -/
theorem parseType_display_blanks :
    ∃ (d : Declarations) (c : Catalog) (s t : TypeSet),
      d = { objects := [("build_tgt", none)] } ∧ d.build = .ok c ∧
      c.parseType "dict( build_tgt|str ) | list" = .ok s ∧
      s.display = "list(any)|dict(str|build_tgt)" ∧ c.parseType s.display = .ok s ∧
      t = TypeSet.single (.object 0 "build_tgt") ∧ t.Built ∧ t.Filled ∧
      (∀ u ∈ t.members, c.Spells u) ∧ t.display = "build_tgt" ∧ c.parseType t.display = .ok t := by
  let c : Catalog := { objects := [⟨0, "build_tgt", none⟩] }
  have hbuild : Declarations.build { objects := [("build_tgt", none)] } = .ok c := rfl
  have hparse : c.parseType "dict( build_tgt|str ) | list" =
    .ok ⟨[.list [.any], .dict [.str, .object 0 "build_tgt"]]⟩ := rfl
  have hplain : ∀ k : Holder, k.open? (.object 0 "build_tgt") = none := fun k => by cases k <;> rfl
  have hbuilt : (TypeSet.single (.object 0 "build_tgt")).Built := .single (.plain hplain)
  have hfilled : (TypeSet.single (.object 0 "build_tgt")).Filled := by
    intro u hu
    rw [TypeSet.single_members, List.mem_singleton] at hu
    rw [hu]
    exact Ty.filled_of_plain hplain
  have hspells : ∀ u ∈ (TypeSet.single (.object 0 "build_tgt")).members, c.Spells u := by
    intro u hu
    rw [TypeSet.single_members, List.mem_singleton] at hu
    rw [hu]
    refine Ty.everywhere_of_plain hplain fun id name heq => ?_
    cases heq
    exact ⟨by decide, _, rfl, rfl⟩
  obtain ⟨hread, hwritten⟩ := parseType_display _ c hbuild
  exact ⟨_, c, _, _, rfl, hbuild, hparse, rfl, hread _ _ hparse, rfl, hbuilt, hfilled, hspells, rfl,
    hwritten _ hbuilt hfilled hspells⟩

end Catalog

end MesonLens
