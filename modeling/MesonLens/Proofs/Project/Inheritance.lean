import MesonLens.Proofs.Analysis.Lasting
import MesonLens.Proofs.Project.Declarations

/-!
# `MesonLens.Proofs.Project.Inheritance`: what a file starts from

An included file starts from the scope at its inclusion, so variables of the files above it are
known there from the start.

* `BuildTree.Lineage.sizeOf_lt`, `Project.path_ne_of_lineage`: the files above a file are other
  files. A chain of files gets longer only downwards, where trees get smaller;
* `Analyze.Step.tidy`: scopes list every variable once, all along the analysis;
* `Project.inherits_of_lineage`: where a file of a project starts, every variable is listed once,
  and none of its origins is in the file.
-/

set_option autoImplicit false

namespace MesonLens

/-! ### Variables are listed once -/

namespace Analyze

variable {ctx : Context} {root : Tree Mark} {s s' : Scope}

theorem Step.tidy (hstep : Step ctx root s s') (hs : ∀ x, s.Tidy x) : ∀ x, s'.Tidy x := by
  intro x
  cases hstep with
  | keep => exact hs x
  | @anew name n b _ origins | @first name n b _ _ origins =>
    refine (hs x).set name fun _ => ?_
    rw [origins]
    exact List.nodup_singleton _
  | @change name b old known origins =>
    refine (hs x).set name fun _ => ?_
    have hold := (hs name).nodup
    rw [Scope.originsOf, known] at hold
    rw [origins]
    exact hold

theorem invariant_tidy (ctx : Context) (root : Tree Mark) :
    Invariant ctx root
      (fun a => (∀ x, a.scope.Tidy x) ∧ ∀ i ∈ a.includeScopes, ∀ x, i.scope.Tidy x)
      (fun s => ∀ x, s.Tidy x) :=
  invariant_includes_of_step (J := fun s => ∀ x, s.Tidy x) Step.tidy fun hs hs' x =>
    (hs x).merge (hs' x)

end Analyze

theorem Scope.tidy_root (c : Catalog) : ∀ x, (Scope.root c).Tidy x := by
  unfold Scope.root
  refine List.foldlRecOn (motive := fun s : Scope => ∀ x, s.Tidy x) c.globals _
    (fun x => ⟨Nat.zero_le 1, List.nodup_nil⟩) fun s hs p _ x => ?_
  dsimp only
  cases c.object? p.2 with
  | some o => exact (hs x).set p.1 fun _ => List.nodup_nil
  | none => exact hs x

namespace BuildTree

/-- Trees get smaller down a chain of files. -/
theorem Lineage.sizeOf_lt {root t : BuildTree} {above : List BuildTree}
    (h : Lineage root (t :: above)) : ∀ u ∈ above, sizeOf t < sizeOf u := by
  generalize hchain : t :: above = chain at h
  induction h generalizing t above with
  | root =>
    obtain ⟨-, rfl⟩ := List.cons.inj hchain
    exact nofun
  | @child parent child above' _ hchild ih =>
    obtain ⟨rfl, rfl⟩ := List.cons.inj hchain
    have hlt : sizeOf t < sizeOf parent := by
      obtain ⟨f, ts⟩ := parent
      have := List.sizeOf_lt_of_mem (show t ∈ ts from hchild)
      simp
      omega
    exact List.forall_mem_cons.mpr ⟨hlt, fun u hu => hlt.trans (ih rfl u hu)⟩

/-- From a file to one that it includes: where this starts, every variable is listed once, and its
origins lie in the files above it. -/
theorem Raw.inherits_child {t : BuildTree} (h : t.Raw) {c : Catalog} {scope : Scope}
    {s : SourceFile} (hs : t.file.source = some s) {above : List BuildTree}
    (htidy : ∀ x, scope.Tidy x) (hsound : scope.Sound (Bound above)) (f : BuildFile) :
    let next := startOf c (s.analyze c t.file.path scope).includeScopes f
    (∀ x, next.Tidy x) ∧ next.Sound (Bound (t.analyze c scope :: above)) := by
  intro next
  have hincludes := (s.keeps_analyze ⟨c, t.file.path⟩ (Analyze.invariant_tidy _ _)
    ⟨htidy, nofun⟩).2
  have hanalysis := h.sound_analyze (c := c) hs (hsound.mono fun _ _ hbound => hbound.cons _)
  exact ⟨startOf_induct c (J := fun s => ∀ x, s.Tidy x) (Scope.tidy_root c) hincludes f,
    startOf_induct c (Scope.sound_root c) hanalysis.includeScopes f⟩

end BuildTree

namespace Project

open BuildTree (Bound)

variable {disk : Disk} {source : Source} {root : Path} {cache cache' : Cache} {project : Project}

/-- The files above a file are other files. -/
theorem path_ne_of_lineage (c : Catalog) (h : parse disk source cache root = .ok (project, cache'))
    {t : BuildTree} {above : List BuildTree}
    (hlineage : (project.analyze c).tree.Lineage (t :: above)) :
    ∀ u ∈ above, u.file.path ≠ t.file.path := by
  intro u hu hpath
  have hmem := hlineage.mem_subtrees
  have hnodup := nodup_paths_analyze c h
  rw [files, BuildTree.files, List.map_map] at hnodup
  have hsame := List.inj_on_of_nodup_map hnodup
    (hmem u (List.mem_cons_of_mem t hu)) (hmem t List.mem_cons_self) hpath
  exact absurd (hlineage.sizeOf_lt u hu) (hsame ▸ lt_irrefl _)

/-- Where a file of a project starts, every variable is listed once, and none of its origins is in
the file. -/
theorem inherits_of_lineage (c : Catalog) (h : parse disk source cache root = .ok (project, cache'))
    {t : BuildTree} {above : List BuildTree}
    (hlineage : (project.analyze c).tree.Lineage (t :: above)) :
    ∃ v ∈ project.tree.subtrees, ∃ scope, t = v.analyze c scope ∧ (∀ x, scope.Tidy x) ∧
      ∀ x, scope.Each x fun l => ∀ o ∈ l, o.file ≠ t.file.path := by
  have hraw := raw_of_parse h
  obtain ⟨v, hv, scope, rfl, htidy, hsound⟩ := BuildTree.Lineage.analyze_induct hraw
    (P := fun chain scope => (∀ x, scope.Tidy x) ∧ scope.Sound (Bound chain.tail))
    ⟨Scope.tidy_root c, Scope.sound_root c⟩
    (fun t ht u _ s hs scope above hP _ => (hraw t ht).inherits_child hs hP.1 hP.2 u.file) hlineage
  refine ⟨v, hv, scope, rfl, htidy, fun x p hp hx o ho hfile => ?_⟩
  obtain ⟨u, hu, hpath, -⟩ := hsound p hp o ho
  exact path_ne_of_lineage c h hlineage u hu (hpath.symm.trans hfile)

/-- What is shown of a file is the analysis of its text. It starts from a scope that lists every
variable once, and in which no variable comes from the file. -/
theorem analysis_of_view (hcache : cache.Genuine)
    (h : parse disk source cache root = .ok (project, cache')) {c : Catalog} {path : Path}
    {v : FileView} (hview : (project.analyze c).view? path = some v) :
    v.path.key = v.path ∧ (∃ text, v.source = SourceFile.parse text) ∧
      ∃ start : Scope, v.analysis = v.source.analyze c v.path start ∧ (∀ x, start.Tidy x) ∧
        ∀ x, start.Each x fun l => ∀ o ∈ l, o.file ≠ v.path := by
  obtain ⟨f, howner, hview⟩ := Option.bind_eq_some_iff.mp hview
  obtain ⟨s, hs, hview⟩ := Option.bind_eq_some_iff.mp hview
  obtain ⟨a, ha, hview⟩ := Option.bind_eq_some_iff.mp hview
  cases hview
  obtain ⟨t, ht, rfl⟩ := Option.map_eq_some_iff.mp howner
  have hmem := List.mem_of_find?_eq_some ht
  have hkey : t.file.path.key = t.file.path := by
    have hresolved := Path.resolved_normalize t.file.path
    rw [normalize_path_of_mem c h hmem] at hresolved
    exact hresolved.key_eq
  -- The file starts from what the files above it hand down.
  obtain ⟨above, hlineage⟩ := BuildTree.exists_lineage hmem
  obtain ⟨u, hu, start, rfl, htidy, hothers⟩ := inherits_of_lineage c h hlineage
  rw [(raw_of_parse h u hu).file_analyze] at hs ha hkey hothers ⊢
  obtain ⟨s', hs', rfl⟩ := Option.map_eq_some_iff.mp ha
  obtain rfl : s' = s := Option.some.inj (hs'.symm.trans hs)
  exact ⟨hkey, genuine_of_parse hcache h u hu s' hs, start, rfl, htidy, hothers⟩

/-- What is shown of a file is read from its text. -/
theorem source_of_view (hcache : cache.Genuine)
    (h : parse disk source cache root = .ok (project, cache')) {c : Catalog} {path : Path}
    {v : FileView} (hview : (project.analyze c).view? path = some v) :
    v.source = SourceFile.parse v.source.text := by
  obtain ⟨-, ⟨text, hsource⟩, -⟩ := analysis_of_view hcache h hview
  rw [hsource]
  rfl

/-- What is shown of a file that was read, by its path and its text. -/
theorem exists_view (source : Source) (root path : Path) (c : Catalog) (text : String)
    (hread : ((parse {} source {} root).toOption.bind fun read =>
      ((read.1.analyze c).view? path).map fun v => (v.path, v.source.text)) = some (path, text)) :
    ∃ project cache' v, parse {} source {} root = .ok (project, cache') ∧
      (project.analyze c).view? path = some v ∧ v.path = path ∧
        v.source = SourceFile.parse text := by
  obtain ⟨read, hparse, hread⟩ := Option.bind_eq_some_iff.mp hread
  obtain ⟨v, hview, hread⟩ := Option.map_eq_some_iff.mp hread
  obtain ⟨hpath, rfl⟩ := Prod.mk.inj hread
  have hparse := ok_of_toOption hparse
  exact ⟨read.1, read.2, v, hparse, hview, hpath, source_of_view Cache.genuine_empty hparse hview⟩

/-- The file that is shown is the one that was parsed. -/
theorem source?_of_view {p : Project} {path : Path} {v : FileView}
    (h : p.view? path = some v) : p.source? path = some v.source := by
  obtain ⟨f, howner, hview⟩ := Option.bind_eq_some_iff.mp h
  obtain ⟨s, hs, hview⟩ := Option.bind_eq_some_iff.mp hview
  obtain ⟨a, -, hview⟩ := Option.bind_eq_some_iff.mp hview
  cases hview
  rw [source?, howner, Option.bind_some, hs]

end Project

end MesonLens
