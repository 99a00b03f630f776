import MesonLens.Builtin.Catalog
import MesonLens.Editor.Completion
import MesonLens.Proofs.Project.Inheritance

/-!
# `MesonLens.Proofs.Editor.Completion`: which variables are offered

Completion looks a variable up in the scope at the end of the file, and offers it when one of its
origins there is before the place. What was bound before the place may be gone from that scope: a
binding after the place forgets it, unless there is a way through the file on which that binding is
not reached.

* `Completion.offersVariable_iff`: a variable is offered when the scope at the end tells of it and
  one of its origins is to be seen from the place;
* `Completion.offers_bound_before`: a variable with a target before the place, in a file without
  errors. It is offered if nothing binds it anew after the place, and in general if on some way
  through the file its last binding is before the place.
-/

set_option autoImplicit false

namespace MesonLens

namespace Completion

open Project (exists_view)

/-- A variable of the name is among what is offered. -/
def OffersVariable (p : Project) (c : Catalog) (path : Path) (text : String) (line column : Nat)
    (name : String) : Prop :=
  ∃ item ∈ items p c path text line column, item.kind = .variableName ∧ item.label = name

instance (p : Project) (c : Catalog) (path : Path) (text : String) (line column : Nat)
    (name : String) : Decidable (OffersVariable p c path text line column name) :=
  inferInstanceAs (Decidable (∃ item ∈ items p c path text line column, _))

/-! ### What is offered -/

section

variable {p : Project} {c : Catalog} {path : Path} {v : FileView} {line column : Nat}
  {word : List Char} {name : String}

theorem kind_of_mem_keywordItems {item : CompletionItem}
    (h : item ∈ keywordItems v line column word) : item.kind = .keywordArgument := by
  unfold keywordItems at h
  cases hcall : enclosing? v.analysis.index line column with
  | none =>
    rw [hcall] at h
    cases h
  | some call =>
    rw [hcall] at h
    obtain ⟨k, -, rfl⟩ := List.mem_map.mp h
    rfl

theorem kind_of_mem_functionItems {item : CompletionItem} (h : item ∈ functionItems c word) :
    item.kind = .function := by
  obtain ⟨f, -, rfl⟩ := List.mem_map.mp h
  rfl

theorem kind_of_mem_languageItems {item : CompletionItem} (h : item ∈ languageItems word) :
    item.kind = .keyword := by
  obtain ⟨k, -, rfl⟩ := List.mem_map.mp h
  rfl

/-- The variables that are offered are those of the scope at the end that go on from the word and
are visible. -/
theorem exists_mem_variableItems :
    (∃ item ∈ variableItems v path line column word,
      item.kind = .variableName ∧ item.label = name) ↔
      ∃ b, (name, b) ∈ v.analysis.scope.bindings ∧ goesOn word name = true ∧
        visible b path line column = true := by
  unfold variableItems
  constructor
  · rintro ⟨item, hitem, -, rfl⟩
    obtain ⟨pair, hpair, rfl⟩ := List.mem_map.mp hitem
    rw [List.mem_mergeSort, List.mem_filter, Bool.and_eq_true] at hpair
    exact ⟨pair.2, hpair.1, hpair.2.1, hpair.2.2⟩
  · rintro ⟨b, hb, hword, hvisible⟩
    refine ⟨_, List.mem_map.mpr ⟨(name, b), ?_, rfl⟩, rfl, rfl⟩
    rw [List.mem_mergeSort, List.mem_filter, Bool.and_eq_true]
    exact ⟨hb, hword, hvisible⟩

/-- Unless what stands before the word ends with a dot, the variables are offered, and nothing else
that is offered is a variable. -/
theorem offersVariable_iff {text : String} (hview : p.view? path = some v) {cs : List Char}
    (hline : lineOf? text line = some cs) (hdot : receiver? (Before.of cs column).rest = none) :
    OffersVariable p c path text line column name ↔
      ∃ b, (name, b) ∈ v.analysis.scope.bindings ∧
        goesOn (Before.of cs column).word name = true ∧ visible b path line column = true := by
  rw [← exists_mem_variableItems]
  unfold OffersVariable items
  rw [hline]
  simp only [hview, hdot, Option.map_some, Option.getD_some, List.mem_append]
  constructor
  · -- Words, functions and what the language knows are offered as items of other kinds.
    rintro ⟨item, ((hitem | hitem) | hitem) | hitem, hkind, hlabel⟩
    · rw [kind_of_mem_keywordItems hitem] at hkind
      cases hkind
    · rw [kind_of_mem_functionItems hitem] at hkind
      cases hkind
    · exact ⟨item, hitem, hkind, hlabel⟩
    · rw [kind_of_mem_languageItems hitem] at hkind
      cases hkind
  · rintro ⟨item, hitem, hkind, hlabel⟩
    exact ⟨item, .inl (.inr hitem), hkind, hlabel⟩

theorem visible_iff (hkey : path.key = path) (b : Binding) :
    visible b path line column = true ↔
      b.origins = [] ∨ ∃ o ∈ b.origins, o.Earlier path line column := by
  simp [visible, hkey, Origin.Earlier]

end

/-! ### Variables with a target before the place -/

section

-- A file of a project, and a place in it where a variable of the name may stand.
variable {disk : Disk} {source : Source} {cache cache' : Cache} {root : Path} {project : Project}
  {c : Catalog} {path : Path} {v : FileView} {line column : Nat} {cs : List Char} {name : String}
  (hcache : cache.Genuine) (hparse : Project.parse disk source cache root = .ok (project, cache'))
  (hview : (project.analyze c).view? path = some v) (hpath : v.path = path)
  (hline : lineOf? v.source.text line = some cs)
  (hdot : receiver? (Before.of cs column).rest = none)
  (hword : goesOn (Before.of cs column).word name = true)

include hcache hparse hview hpath hline hdot hword

/-- What is offered can be told from the binding of the variable at the end of the file. -/
theorem offersVariable_iff_get? :
    OffersVariable (project.analyze c) c path v.source.text line column name ↔
      ∃ b, v.analysis.scope.get? name = some b ∧
        (b.origins = [] ∨ ∃ o ∈ b.origins, o.Earlier path line column) := by
  obtain ⟨hkey, -, start, hanalysis, htidy, -⟩ := Project.analysis_of_view hcache hparse hview
  have hend : v.analysis.scope.Tidy name := by
    rw [hanalysis]
    exact (v.source.keeps_analyze ⟨c, v.path⟩ (Analyze.invariant_tidy _ _) ⟨htidy, nofun⟩).1 name
  rw [hpath] at hkey
  rw [offersVariable_iff hview hline hdot]
  simp only [hword, true_and, visible_iff hkey, hend.get?_eq_some_iff]

variable {t n : Tree Mark} (herrors : v.source.errors = []) (ht : t ∈ v.source.root.preorder)
  (hn : n ∈ t.targets) (hname : n.identifier? = some name)

include herrors ht hn hname

/-- A target is known at the end of the file, and whether it is offered depends on its origins. -/
theorem exists_binding_offered_iff :
    ∃ b, v.analysis.scope.get? name = some b ∧
      (OffersVariable (project.analyze c) c path v.source.text line column name ↔
        b.origins = [] ∨ ∃ o ∈ b.origins, o.Earlier path line column) := by
  have hoffers := offersVariable_iff_get? hcache hparse hview hpath hline hdot hword
  obtain ⟨-, ⟨text, hsource⟩, start, hanalysis, -⟩ := Project.analysis_of_view hcache hparse hview
  rw [hsource] at ht herrors hanalysis
  have hknown := SourceFile.contains_target herrors ⟨c, v.path⟩ ht hn hname start
  rw [← hanalysis] at hknown
  obtain ⟨b, hb⟩ := Option.isSome_iff_exists.mp hknown
  refine ⟨b, hb, ?_⟩
  rw [hoffers, hb]
  simp only [Option.some.injEq, exists_eq_left']

/-- A target before the place is offered when nothing from the place on binds the variable anew. -/
theorem offers_of_rebinds (hbefore : n.span.start.precedes line column = true)
    (hrebinds : ∀ m, v.source.root.Rebinds name m → m.span.start.precedes line column = true) :
    OffersVariable (project.analyze c) c path v.source.text line column name := by
  have hoffers := offersVariable_iff_get? hcache hparse hview hpath hline hdot hword
  obtain ⟨-, ⟨text, hsource⟩, start, hanalysis, -, hothers⟩ :=
    Project.analysis_of_view hcache hparse hview
  rw [hpath] at hanalysis hothers
  rw [hsource] at ht herrors hanalysis hrebinds
  rw [hoffers, hanalysis]
  exact SourceFile.exists_earlier_origin herrors ⟨c, path⟩ hrebinds ht hn hname hbefore
    (hothers name)

/-- A target that no operator changes is offered just when its last binding is before the place on
some way through the file. -/
theorem offers_iff_ways (hplain : v.source.NeverUpdates name)
    (hcond : v.source.ConditionsSetNothing) :
    ∃ start : Scope, v.analysis = v.source.analyze c path start ∧
      (∀ o ∈ start.originsOf name, o.file ≠ path) ∧
      (OffersVariable (project.analyze c) c path v.source.text line column name ↔
        ∃ p ∈ v.source.paths path,
          ∃ o ∈ Trace.after name (start.originsOf name) p, o.Earlier path line column) := by
  obtain ⟨b, hb, hoffers⟩ := exists_binding_offered_iff hcache hparse hview hpath hline hdot hword
    herrors ht hn hname
  obtain ⟨-, ⟨text, hsource⟩, start, hanalysis, htidy, hothers⟩ :=
    Project.analysis_of_view hcache hparse hview
  rw [hpath] at hanalysis hothers
  rw [hsource] at ht herrors hanalysis hplain hcond
  have heffect := (SourceFile.parse text).effect_analyze (SourceFile.nodup_ids_root text) c path
    (htidy name) hplain hcond
  have horigins := SourceFile.originsOf_target_ne_nil herrors ⟨c, path⟩ hplain ht hn hname start
  have hend : v.analysis.scope.originsOf name = b.origins := by simp [Scope.originsOf, hb]
  rw [← hanalysis, hend] at horigins
  refine ⟨start, hsource ▸ hanalysis, (hothers name).originsOf, ?_⟩
  -- The variable comes from somewhere, so it is offered for a place that it comes from.
  rw [hoffers, or_iff_right horigins, ← hend, hanalysis, hsource]
  constructor
  · rintro ⟨o, ho, hearlier⟩
    obtain ⟨p, hp, ho⟩ := (heffect.mem_iff o).mp ho
    exact ⟨p, hp, o, ho, hearlier⟩
  · rintro ⟨p, hp, o, ho, hearlier⟩
    exact ⟨o, (heffect.mem_iff o).mpr ⟨p, hp, ho⟩, hearlier⟩

/-- **Variables with a target before the place.** Take a file without syntax errors, in a project, a
place in it where no method is asked for, and a variable that is a target of an assignment or a loop
before the place and goes on from the word there.

* The variable is known at the end of the file. It is offered when it comes from nowhere there, from
  another file, or from before the place.
* It is offered when no assignment, no loop and no call of `set_variable` at or after the place
  binds it anew. Operators may still change it there.
* Where no operator changes the variable and no condition calls `set_variable`, it is offered just
  when on some way through the file the last binding is before the place, or is one that the file
  starts with. So it is not offered where every way binds it again at or after the place. -/
theorem offers_bound_before (hbefore : n.span.start.precedes line column = true) :
    let offers := OffersVariable (project.analyze c) c path v.source.text line column name
    (∃ b, v.analysis.scope.get? name = some b ∧
      (offers ↔ b.origins = [] ∨ ∃ o ∈ b.origins, o.Earlier path line column)) ∧
    ((∀ m, v.source.root.Rebinds name m → m.span.start.precedes line column = true) → offers) ∧
    (v.source.NeverUpdates name → v.source.ConditionsSetNothing →
      ∃ start : Scope, v.analysis = v.source.analyze c path start ∧
        (∀ o ∈ start.originsOf name, o.file ≠ path) ∧
        (offers ↔ ∃ p ∈ v.source.paths path,
          ∃ o ∈ Trace.after name (start.originsOf name) p, o.Earlier path line column)) := by
  refine ⟨?_, ?_, ?_⟩
  · exact exists_binding_offered_iff hcache hparse hview hpath hline hdot hword herrors ht hn hname
  · exact offers_of_rebinds hcache hparse hview hpath hline hdot hword herrors ht hn hname hbefore
  · exact offers_iff_ways hcache hparse hview hpath hline hdot hword herrors ht hn hname

end

/-- A variable that is bound again in a branch after the place. The branch may not be taken, so the
binding before the place may be the last one. -/
theorem offers_bound_before_branch :
    let root : Path := ⟨true, ["p"]⟩
    let text := "x = 1\n\nif a\n  x = 2\nendif\n"
    let source : Source := { overrides := [(buildFile root, text)], opened := [buildFile root] }
    ∃ project cache', Project.parse {} source {} root = .ok (project, cache') ∧
      OffersVariable (project.analyze Builtin.catalog) Builtin.catalog (buildFile root) text 1 0
        "x" := by
  intro root text source
  obtain ⟨project, cache', v, hparse, hview, hpath, hsource⟩ :=
    exists_view source root (buildFile root) Builtin.catalog text (by decide +kernel)
  have htarget : ∃ t ∈ (SourceFile.parse text).root.preorder, ∃ n ∈ t.targets,
      n.identifier? = some "x" ∧ n.span.start.precedes 1 0 = true := by
    decide +kernel
  obtain ⟨t, ht, n, hn, hname, hbefore⟩ := htarget
  have hway : ∃ p ∈ (SourceFile.parse text).paths (buildFile root),
      ∃ o ∈ (Trace.lastBinding "x" p).toList, o.Earlier (buildFile root) 1 0 := by
    decide +kernel
  obtain ⟨p, hp, o, ho, hearlier⟩ := hway
  have hline : lineOf? v.source.text 1 = some [] := by
    rw [hsource]
    decide +kernel
  have hdot : receiver? (Before.of [] 0).rest = none := by decide
  have herrors : v.source.errors = [] := by
    rw [hsource]
    decide +kernel
  obtain ⟨-, -, hways⟩ := offers_bound_before Cache.genuine_empty hparse hview hpath hline hdot
    (by decide) herrors (hsource ▸ ht) hn hname hbefore
  rw [hsource] at hways
  obtain ⟨start, -, -, hoffers⟩ := hways (by decide +kernel) (by decide +kernel)
  refine ⟨project, cache', hparse, hoffers.mpr ⟨p, hp, o, ?_, hearlier⟩⟩
  simp [Trace.after, Option.mem_toList.mp ho]

/-- A variable that is bound before the place and bound again after it is not offered in between. -/
theorem rebound_not_offered :
    let root : Path := ⟨true, ["p"]⟩
    let text := "x = 1\n\nx = 2\n"
    let source : Source := { overrides := [(buildFile root, text)], opened := [buildFile root] }
    ∃ project cache', Project.parse {} source {} root = .ok (project, cache') ∧
      ∃ v, (project.analyze Builtin.catalog).view? (buildFile root) = some v ∧
        v.path = buildFile root ∧ v.source.text = text ∧ v.source.errors = [] ∧
        lineOf? text 1 = some [] ∧ receiver? (Before.of [] 0).rest = none ∧
        goesOn (Before.of [] 0).word "x" = true ∧
        (∃ t ∈ v.source.root.preorder, ∃ n ∈ t.targets, n.identifier? = some "x" ∧
          n.span.start.precedes 1 0 = true) ∧
        ¬ OffersVariable (project.analyze Builtin.catalog) Builtin.catalog (buildFile root) text 1 0
          "x" := by
  intro root text source
  obtain ⟨project, cache', v, hparse, hview, hpath, hsource⟩ :=
    exists_view source root (buildFile root) Builtin.catalog text (by decide +kernel)
  have hline : lineOf? v.source.text 1 = some [] := by
    rw [hsource]
    decide +kernel
  have hdot : receiver? (Before.of [] 0).rest = none := by decide
  have hword : goesOn (Before.of [] 0).word "x" = true := by decide
  have herrors : v.source.errors = [] := by
    rw [hsource]
    decide +kernel
  have htarget : ∃ t ∈ v.source.root.preorder, ∃ n ∈ t.targets, n.identifier? = some "x" ∧
      n.span.start.precedes 1 0 = true := by
    rw [hsource]
    decide +kernel
  -- On every way the last binding is the one on the third line.
  have hways : ∀ p ∈ v.source.paths (buildFile root), ∃ o ∈ (Trace.lastBinding "x" p).toList,
      ¬ o.Earlier (buildFile root) 1 0 := by
    rw [hsource]
    decide +kernel
  obtain ⟨t, ht, n, hn, hname, hbefore⟩ := htarget
  obtain ⟨start, -, -, hoffers⟩ := offers_iff_ways Cache.genuine_empty hparse hview hpath hline hdot
    hword herrors ht hn hname (by rw [hsource]; decide +kernel) (by rw [hsource]; decide +kernel)
  have htext : v.source.text = text := by rw [hsource]; rfl
  refine ⟨project, cache', hparse, v, hview, hpath, htext, herrors, htext ▸ hline, hdot, hword,
    ⟨t, ht, n, hn, hname, hbefore⟩, ?_⟩
  rw [← htext, hoffers]
  rintro ⟨p, hp, o, ho, hearlier⟩
  obtain ⟨last, hlast, hlater⟩ := hways p hp
  rw [Trace.after, Option.mem_toList.mp hlast, List.mem_singleton] at ho
  exact hlater (ho ▸ hearlier)

end Completion

end MesonLens
