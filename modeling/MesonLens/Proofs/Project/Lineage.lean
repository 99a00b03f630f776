import MesonLens.Proofs.Project.Assembly

/-!
# `MesonLens.Proofs.Project.Lineage`: the files that lead to a file

A file of a project is included by one file, which is included by another one, and so on up to the
root. `BuildTree.Lineage` is this chain of files, the innermost first. Every file of a tree has one
(`BuildTree.exists_lineage`).

A tree is analyzed from the root downwards, and what a file starts from is settled by the files
above it. `BuildTree.Lineage.analyze_induct` is the induction along the chain: it goes from the
scope of a file to the scope of a file that it includes, with the analysis of the file in between.
-/

set_option autoImplicit false

namespace MesonLens

namespace BuildTree

/-! ### Chains of files -/

theorem subtrees_eq (t : BuildTree) : t.subtrees = t :: subtreesAll t.children := by
  cases t with
  | node f ts => rfl

theorem mem_subtrees_self (t : BuildTree) : t ∈ t.subtrees := by
  rw [subtrees_eq]
  exact List.mem_cons_self

theorem mem_subtreesAll {ts : List BuildTree} {t : BuildTree} :
    t ∈ subtreesAll ts ↔ ∃ u ∈ ts, t ∈ u.subtrees := by
  induction ts with
  | nil => simp [subtreesAll]
  | cons u ts ih => simp [subtreesAll, ih]

/-- To prove something of every tree, take it for granted of the trees of the included files. -/
@[elab_as_elim]
theorem inductionOnChildren {P : BuildTree → Prop} (t : BuildTree)
    (node : ∀ t, (∀ u ∈ t.children, P u) → P t) : P t := by
  obtain ⟨f, ts⟩ := t
  refine node _ fun u hu => ?_
  have := List.sizeOf_lt_of_mem (show u ∈ ts from hu)
  exact inductionOnChildren u node
  termination_by sizeOf t
  decreasing_by simp; omega

/-- What a file of the tree includes is in the tree. -/
theorem mem_subtrees_of_mem_children {root t u : BuildTree} (ht : t ∈ root.subtrees)
    (hu : u ∈ t.children) : u ∈ root.subtrees := by
  induction root using inductionOnChildren with
  | node root ih =>
    rw [subtrees_eq, List.mem_cons, mem_subtreesAll] at ht ⊢
    rcases ht with rfl | ⟨v, hv, ht⟩
    · exact .inr ⟨u, hu, mem_subtrees_self u⟩
    · exact .inr ⟨v, hv, ih v hv ht⟩

/-- The trees from one up to the root: each is included by the next one. -/
inductive Lineage (root : BuildTree) : List BuildTree → Prop
  | root : Lineage root [root]
  | child {t u : BuildTree} {above : List BuildTree} (parent : Lineage root (t :: above))
      (mem : u ∈ t.children) : Lineage root (u :: t :: above)

theorem Lineage.mem_subtrees {root : BuildTree} {chain : List BuildTree} (h : Lineage root chain) :
    ∀ t ∈ chain, t ∈ root.subtrees := by
  induction h with
  | root => exact List.forall_mem_singleton.mpr (mem_subtrees_self root)
  | child parent mem ih =>
    have hparent := ih _ List.mem_cons_self
    exact List.forall_mem_cons.mpr ⟨mem_subtrees_of_mem_children hparent mem, ih⟩

/-- Every file of a project is led to. -/
theorem exists_lineage {root t : BuildTree} (h : t ∈ root.subtrees) :
    ∃ above, Lineage root (t :: above) := by
  -- From any file that is led to, the chain can be made longer down to `t`.
  have hbelow : ∀ u above, Lineage root (u :: above) → t ∈ u.subtrees →
      ∃ above, Lineage root (t :: above) := by
    intro u
    induction u using inductionOnChildren with
    | node u ih =>
      intro above hlineage ht
      rw [subtrees_eq, List.mem_cons, mem_subtreesAll] at ht
      rcases ht with rfl | ⟨v, hv, ht⟩
      · exact ⟨above, hlineage⟩
      · exact ih v hv _ (hlineage.child hv) ht
  exact hbelow root [] .root h

/-! ### Analyzed chains -/

section

variable (c : Catalog) (scope : Scope) {t u : BuildTree}

theorem mem_analyzeAll {c : Catalog} {scopes : List IncludeScope} {ts : List BuildTree} :
    t ∈ analyzeAll c scopes ts ↔ ∃ u ∈ ts, u.analyze c (startOf c scopes u.file) = t := by
  induction ts with
  | nil => simp [analyzeAll]
  | cons u ts ih => simp [analyzeAll, ih, eq_comm]

/-- The analysis of a file is the only thing that changes in it. -/
theorem Raw.file_analyze (h : t.Raw) : (t.analyze c scope).file =
    { t.file with analysis := t.file.source.map fun s => s.analyze c t.file.path scope } := by
  obtain ⟨f, ts⟩ := t
  have hnone : f.analysis = none := h.analysis
  unfold analyze
  cases hsource : f.source with
  | none =>
    -- A file that could not be read stays as it is.
    obtain ⟨dir, path, call, source, problems, analysis⟩ := f
    simp only at hsource hnone
    simp [BuildTree.file, hsource, hnone]
  | some s => simp [BuildTree.file, hsource]

/-- An included file starts from the scope that the analysis of the file above finds for it. -/
theorem Raw.mem_children_analyze {c : Catalog} {scope : Scope} (h : t.Raw)
    (hu : u ∈ (t.analyze c scope).children) :
    ∃ s, t.file.source = some s ∧ ∃ v ∈ t.children,
      u = v.analyze c (startOf c (s.analyze c t.file.path scope).includeScopes v.file) := by
  obtain ⟨f, ts⟩ := t
  unfold analyze at hu
  cases hsource : f.source with
  | none =>
    have hleaf : ts = [] := h.leaf hsource
    rw [hsource] at hu
    simp [BuildTree.children, hleaf] at hu
  | some s =>
    rw [hsource] at hu
    obtain ⟨v, hv, rfl⟩ := mem_analyzeAll.mp hu
    exact ⟨s, hsource, v, hv, rfl⟩

end

mutual

/-- The analysis leaves the files where they are. -/
theorem paths_analyze (c : Catalog) : ∀ (t : BuildTree) (scope : Scope),
    (t.analyze c scope).subtrees.map (·.file.path) = t.subtrees.map (·.file.path)
  | node f ts, scope => by
    unfold analyze
    split
    · rfl
    · simp only [subtrees, List.map_cons, paths_analyzeAll c ts]
      rfl

theorem paths_analyzeAll (c : Catalog) : ∀ (ts : List BuildTree) (scopes : List IncludeScope),
    (subtreesAll (analyzeAll c scopes ts)).map (·.file.path) =
      (subtreesAll ts).map (·.file.path)
  | [], _ => rfl
  | t :: ts, scopes => by
    simp only [analyzeAll, subtreesAll, List.map_append, paths_analyze c t, paths_analyzeAll c ts]

end

/-- Induction along a chain of analyzed files, with the scope that each starts from. -/
theorem Lineage.analyze_induct {c : Catalog} {start : Scope} {root : BuildTree}
    {P : List BuildTree → Scope → Prop} (hraw : ∀ t ∈ root.subtrees, t.Raw)
    (hroot : P [root.analyze c start] start)
    (hbelow : ∀ t ∈ root.subtrees, ∀ u ∈ t.children, ∀ s, t.file.source = some s →
      ∀ scope above, P (t.analyze c scope :: above) scope →
        let next := startOf c (s.analyze c t.file.path scope).includeScopes u.file
        u.analyze c next ∈ (t.analyze c scope).children →
          P (u.analyze c next :: t.analyze c scope :: above) next)
    {t : BuildTree} {above : List BuildTree}
    (h : Lineage (root.analyze c start) (t :: above)) :
    ∃ v ∈ root.subtrees, ∃ scope, t = v.analyze c scope ∧ P (t :: above) scope := by
  generalize hchain : t :: above = chain at h
  induction h generalizing t above with
  | root =>
    obtain ⟨rfl, rfl⟩ := List.cons.inj hchain
    exact ⟨root, mem_subtrees_self root, start, rfl, hroot⟩
  | @child parent child above' _ hchild ih =>
    obtain ⟨rfl, rfl⟩ := List.cons.inj hchain
    obtain ⟨v, hv, scope, rfl, hP⟩ := ih rfl
    -- The file below is analyzed from what the analysis of the file above has noted for it.
    obtain ⟨s, hs, w, hw, rfl⟩ := (hraw v hv).mem_children_analyze hchild
    exact ⟨w, mem_subtrees_of_mem_children hv hw, _, rfl, hbelow v hv w hw s hs scope _ hP hchild⟩

end BuildTree

namespace Project

variable {disk : Disk} {source : Source} {root : Path} {cache cache' : Cache} {project : Project}

/-- The files of a project that was read are not analyzed yet. -/
theorem raw_of_parse (h : parse disk source cache root = .ok (project, cache')) :
    ∀ t ∈ project.tree.subtrees, t.Raw := by
  obtain ⟨found, hgrows, -, -⟩ := grows_of_parse h
  rw [← BuildTree.subtreesAll_singleton]
  exact hgrows.raw

/-- The analysis leaves the paths of the files as they are. -/
theorem paths_analyze (project : Project) (c : Catalog) :
    (project.analyze c).files.map BuildFile.path = project.files.map BuildFile.path := by
  rw [files, files, BuildTree.files, BuildTree.files, List.map_map, List.map_map]
  exact BuildTree.paths_analyze c project.tree (Scope.root c)

/-- What is read by way of a genuine cache is the tree of some text. -/
theorem genuine_of_parse (hcache : cache.Genuine)
    (h : parse disk source cache root = .ok (project, cache')) :
    ∀ t ∈ project.tree.subtrees, ∀ s, t.file.source = some s →
      ∃ text, s = SourceFile.parse text := by
  obtain ⟨found, hgrows, -, -⟩ := grows_of_parse h
  rw [← BuildTree.subtreesAll_singleton]
  exact (hgrows.genuine hcache).2

/-- A file is included by one of the calls that are read off the file above it. -/
theorem call_mem_includes (h : parse disk source cache root = .ok (project, cache')) :
    ∀ t ∈ project.tree.subtrees, ∀ s, t.file.source = some s → ∀ u ∈ t.children,
      ∃ i ∈ s.includes, u.file.call = some i.call := by
  intro t ht s hs u hu
  obtain ⟨found, hgrows, -, -⟩ := grows_of_parse h
  rw [← BuildTree.subtreesAll_singleton] at ht
  have hcalls := (hgrows.followed t ht s hs).trees_sublist.subset (List.mem_map_of_mem hu)
  obtain ⟨i, hi, heq⟩ := List.mem_map.mp hcalls
  exact ⟨i, hi, (congrArg Prod.fst heq).symm⟩

end Project

end MesonLens
