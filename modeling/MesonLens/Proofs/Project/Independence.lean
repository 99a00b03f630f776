import MesonLens.Proofs.Project.Declarations

/-!
# `MesonLens.Proofs.Project.Independence`: what the analysis of a file depends on

A file is analyzed from the scope at its inclusion. So its analysis depends on its text, on the
texts of the files that lead to it, and on the calls by which they include each other. It does not
depend on any other file: neither on those that it includes nor on those beside it, although these
decide which files are in the project at all.

* `BuildTree.Matches`: two files of different projects have the same path and text, and are included
  by the same call;
* `Project.analysis_eq_of_matches`: where two chains of files match, the analyses at their ends are
  equal. The induction is along the chain, with one scope for both projects: from equal scopes and
  equal texts come equal analyses, and the calls choose equal scopes from these.

Nothing is assumed of fingerprints: with an empty cache every file is parsed
(`BuildTree.Grows.fresh`), because no file is read twice.
-/

set_option autoImplicit false

namespace MesonLens

namespace BuildTree

/-- Two files are at the same place, have the same text, and are included by the same call. -/
structure Matches (ctx ctx' : Context) (t t' : BuildTree) : Prop where
  path : t.file.path = t'.file.path
  call : t.file.call = t'.file.call
  text : (ctx.source.read ctx.disk t.file.path).toOption =
    (ctx'.source.read ctx'.disk t'.file.path).toOption

end BuildTree

namespace Project

open BuildTree (Context Lineage Matches)

variable {disk disk' : Disk} {source source' : Source} {root root' : Path}
  {project project' : Project} {cache cache' : Cache}

theorem exists_parse_of_fresh {c : Catalog} (h : fresh disk c source root = .ok project) :
    ∃ read cache', parse disk source {} root = .ok (read, cache') ∧ project = read.analyze c := by
  unfold fresh at h
  cases hparse : parse disk source {} root with
  | error e =>
    rw [hparse] at h
    cases h
  | ok read =>
    rw [hparse] at h
    cases h
    exact ⟨read.1, read.2, rfl, rfl⟩

/-- With an empty cache every file that can be read is parsed. -/
theorem source_of_parse (h : parse disk source {} root = .ok (project, cache')) :
    ∀ t ∈ project.tree.subtrees,
      t.file.source = (source.read disk t.file.path).toOption.map SourceFile.parse := by
  obtain ⟨found, hgrows, -, -⟩ := grows_of_parse h
  have hempty : BuildTree.Found.Fresh {} := nofun
  rw [← BuildTree.subtreesAll_singleton]
  exact (hgrows.fresh hempty).2

/-- Files that match have the same text, from whatever scopes they are analyzed. -/
theorem source_eq_of_matches (h : parse disk source {} root = .ok (project, cache))
    (h' : parse disk' source' {} root' = .ok (project', cache')) {t t' : BuildTree}
    (ht : t ∈ project.tree.subtrees) (ht' : t' ∈ project'.tree.subtrees) {c : Catalog}
    {scope scope' : Scope}
    (hmatch : Matches ⟨disk, source⟩ ⟨disk', source'⟩ (t.analyze c scope) (t'.analyze c scope')) :
    t.file.path = t'.file.path ∧ t.file.call = t'.file.call ∧ t.file.source = t'.file.source := by
  obtain ⟨hpath, hcall, htext⟩ := hmatch
  rw [(raw_of_parse h t ht).file_analyze, (raw_of_parse h' t' ht').file_analyze]
    at hpath hcall htext
  refine ⟨hpath, hcall, ?_⟩
  rw [source_of_parse h t ht, source_of_parse h' t' ht', htext]

/-- Along chains of files that match, the files are analyzed from the same scopes. -/
theorem scope_eq_of_matches (c : Catalog) (h : parse disk source {} root = .ok (project, cache))
    (h' : parse disk' source' {} root' = .ok (project', cache')) {t t' : BuildTree}
    {above above' : List BuildTree} (hlineage : (project.analyze c).tree.Lineage (t :: above))
    (hlineage' : (project'.analyze c).tree.Lineage (t' :: above'))
    (hmatches : List.Forall₂ (Matches ⟨disk, source⟩ ⟨disk', source'⟩) (t :: above)
      (t' :: above')) :
    ∃ v ∈ project.tree.subtrees, ∃ v' ∈ project'.tree.subtrees, ∃ scope,
      t = v.analyze c scope ∧ t' = v'.analyze c scope := by
  -- What is kept along the first chain is about every second chain that matches it.
  let P (chain : List BuildTree) (scope : Scope) : Prop := ∀ t' above',
    (project'.analyze c).tree.Lineage (t' :: above') →
    List.Forall₂ (Matches ⟨disk, source⟩ ⟨disk', source'⟩) chain (t' :: above') →
    ∃ v' ∈ project'.tree.subtrees, t' = v'.analyze c scope
  have hroot : P [project.tree.analyze c (Scope.root c)] (Scope.root c) := by
    intro t' above' hlineage' hmatches
    obtain ⟨-, hnil⟩ := List.forall₂_cons.mp hmatches
    cases List.forall₂_nil_left_iff.mp hnil
    cases hlineage'
    exact ⟨project'.tree, BuildTree.mem_subtrees_self _, rfl⟩
  have hchild : ∀ t ∈ project.tree.subtrees, ∀ u ∈ t.children, ∀ s, t.file.source = some s →
      ∀ scope above, P (t.analyze c scope :: above) scope →
        let next := BuildTree.startOf c (s.analyze c t.file.path scope).includeScopes u.file
        u.analyze c next ∈ (t.analyze c scope).children →
          P (u.analyze c next :: t.analyze c scope :: above) next := by
    intro t ht u hu s hs scope above ih next hmem u' above' hlineage' hmatches
    obtain ⟨hmatch, habove⟩ := List.forall₂_cons.mp hmatches
    cases hlineage' with
    | root => cases habove
    | child hparent' hchild' =>
      obtain ⟨v', hv', rfl⟩ := ih _ _ hparent' habove
      obtain ⟨s', hs', w', hw', rfl⟩ := (raw_of_parse h' v' hv').mem_children_analyze hchild'
      have hw := BuildTree.mem_subtrees_of_mem_children hv' hw'
      obtain ⟨hpath, -, hsource⟩ :=
        source_eq_of_matches h h' ht hv' (List.forall₂_cons.mp habove).1
      obtain ⟨-, hcall, -⟩ := source_eq_of_matches h h'
        (BuildTree.mem_subtrees_of_mem_children ht hu) hw hmatch
      rw [hs, hs', Option.some_inj] at hsource
      refine ⟨w', hw, ?_⟩
      simp only [next, hpath, hsource, BuildTree.startOf, hcall]
  obtain ⟨v, hv, scope, ht, hP⟩ :=
    Lineage.analyze_induct (P := P) (raw_of_parse h) hroot hchild hlineage
  obtain ⟨v', hv', ht'⟩ := hP t' above' hlineage' hmatches
  exact ⟨v, hv, v', hv', scope, ht, ht'⟩

/-- Nothing that a file outside the chain binds can be seen in the analysis of a file. -/
theorem not_seen_of_lineage (c : Catalog) (h : parse disk source cache root = .ok (project, cache'))
    {t : BuildTree} {above : List BuildTree}
    (hlineage : (project.analyze c).tree.Lineage (t :: above)) {v : BuildTree}
    (hv : v ∈ (project.analyze c).tree.subtrees) (hout : v ∉ t :: above) :
    ∀ a ∈ t.file.analysis, a.Sound fun _ o => o.file ≠ v.file.path := by
  intro a ha
  obtain ⟨-, -, -, -, hsound⟩ := sound_of_lineage c h hlineage
  refine (hsound a ha).mono fun name o hbound hfile => ?_
  obtain ⟨w, hw, hpath, -⟩ := hbound
  have hnodup : ((project.analyze c).tree.subtrees.map (·.file.path)).Nodup := by
    have hpaths := (paths_of_parse h).1
    rw [← paths_analyze project c, files, BuildTree.files, List.map_map] at hpaths
    exact hpaths
  -- The paths of the files are all different, so the file of the origin is in the chain.
  have hsame := List.inj_on_of_nodup_map hnodup (hlineage.mem_subtrees w hw) hv (hpath ▸ hfile)
  exact hout (hsame ▸ hw)

/-- The analysis of a file depends only on the files that lead to it. Take a file of each of two
projects, read with an empty cache from any disks, editors and roots. If the files that lead to the
two match one by one, the analyses of the two are equal, whatever the other files contain. And in
its analysis a file sees nothing that is bound outside the files that lead to it: neither its uses
of variables, nor its scopes at the end and at its inclusions, come from another file of the
project. -/
theorem analysis_eq_of_matches (c : Catalog) (h : fresh disk c source root = .ok project)
    (h' : fresh disk' c source' root' = .ok project') {t t' : BuildTree}
    {above above' : List BuildTree} (hlineage : project.tree.Lineage (t :: above))
    (hlineage' : project'.tree.Lineage (t' :: above'))
    (hmatches : List.Forall₂ (Matches ⟨disk, source⟩ ⟨disk', source'⟩) (t :: above)
      (t' :: above')) :
    t.file.analysis = t'.file.analysis ∧
      ∀ v ∈ project.tree.subtrees, v ∉ t :: above →
        ∀ a ∈ t.file.analysis, a.Sound fun _ o => o.file ≠ v.file.path := by
  obtain ⟨read, cache, hparse, rfl⟩ := exists_parse_of_fresh h
  obtain ⟨read', cache', hparse', rfl⟩ := exists_parse_of_fresh h'
  refine ⟨?_, fun v hv hout => not_seen_of_lineage c hparse hlineage hv hout⟩
  obtain ⟨v, hv, v', hv', scope, rfl, rfl⟩ :=
    scope_eq_of_matches c hparse hparse' hlineage hlineage' hmatches
  obtain ⟨hpath, -, hsource⟩ :=
    source_eq_of_matches hparse hparse' hv hv' (List.forall₂_cons.mp hmatches).1
  rw [(raw_of_parse hparse v hv).file_analyze, (raw_of_parse hparse' v' hv').file_analyze, hpath,
    hsource]

/-- Two projects that differ in the first directory that they include: in one of them it binds the
variable that the second directory uses, in the other one it includes a third directory. -/
theorem analysis_eq_of_matches_sibling :
    let root : Path := ⟨true, ["p"]⟩
    let path (name : String) : Path := buildFile (root.child name)
    let held := [(buildFile root, "x = 1\nsubdir('a')\nsubdir('b')\n"), (path "b", "y = x\n")]
    let left := held ++ [(path "a", "x = 'a'\n")]
    let right := held ++ [(path "a", "subdir('../c')\n"), (path "c", "")]
    let source : Source := { overrides := left, opened := left.map Prod.fst }
    let source' : Source := { overrides := right, opened := right.map Prod.fst }
    ∃ project project', fresh {} {} source root = .ok project ∧
      fresh {} {} source' root = .ok project' ∧
      project.files.length = 3 ∧ project'.files.length = 4 ∧
      ∃ t t', project.tree.Lineage [t, project.tree] ∧ project'.tree.Lineage [t', project'.tree] ∧
        List.Forall₂ (Matches ⟨{}, source⟩ ⟨{}, source'⟩) [t, project.tree] [t', project'.tree] ∧
        t.file.path = path "b" ∧ t.file.analysis = t'.file.analysis := by
  intro root path held left right source source'
  -- Both projects have the same root file, and the same second directory.
  let facts (source : Source) := (fresh {} {} source root).toOption.bind fun project =>
    project.tree.children[1]?.map fun t => (project.files.length, project.tree.file.path,
      project.tree.file.call, t.file.path, t.file.call)
  have hfacts : ∀ source facts', facts source = some facts' → ∃ project t,
      fresh {} {} source root = .ok project ∧ project.tree.Lineage [t, project.tree] ∧
      (project.files.length, project.tree.file.path, project.tree.file.call, t.file.path,
        t.file.call) = facts' := by
    intro source facts' h
    obtain ⟨project, hproject, hmap⟩ := Option.bind_eq_some_iff.mp h
    obtain ⟨t, ht, hfacts⟩ := Option.map_eq_some_iff.mp hmap
    refine ⟨project, t, ?_, .child .root (List.mem_of_getElem? ht), hfacts⟩
    cases hfresh : fresh {} {} source root with
    | error e =>
      rw [hfresh] at hproject
      cases hproject
    | ok found =>
      rw [hfresh] at hproject
      cases hproject
      rfl
  obtain ⟨project, t, hfresh, hlineage, heq⟩ := hfacts source
    (3, buildFile root, none, path "b", some 10) (by decide +kernel)
  obtain ⟨project', t', hfresh', hlineage', heq'⟩ := hfacts source'
    (4, buildFile root, none, path "b", some 10) (by decide +kernel)
  simp only [Prod.mk.injEq] at heq heq'
  obtain ⟨hlength, hrootPath, hrootCall, hpath, hcall⟩ := heq
  obtain ⟨hlength', hrootPath', hrootCall', hpath', hcall'⟩ := heq'
  have hmatches : List.Forall₂ (Matches ⟨{}, source⟩ ⟨{}, source'⟩) [t, project.tree]
      [t', project'.tree] := by
    refine .cons ⟨by rw [hpath, hpath'], by rw [hcall, hcall'], ?_⟩
      (.cons ⟨by rw [hrootPath, hrootPath'], by rw [hrootCall, hrootCall'], ?_⟩ .nil)
    · rw [hpath, hpath']
      rfl
    · rw [hrootPath, hrootPath']
      rfl
  exact ⟨project, project', hfresh, hfresh', hlength, hlength', t, t', hlineage, hlineage',
    hmatches, hpath, (analysis_eq_of_matches {} hfresh hfresh' hlineage hlineage' hmatches).1⟩

end Project

end MesonLens
