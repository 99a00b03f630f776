import MesonLens.Proofs.Analysis.Origins
import MesonLens.Proofs.Project.Lineage

/-!
# `MesonLens.Proofs.Project.Declarations`: a declaration is a binding of the name

The editor goes from a use of a variable to its declarations. They were found in the analysis of the
file, or in that of a file above it, whose scope at an inclusion the file started from. The number
of a node tells nothing without the file that it counts in.

* `BuildTree.Bound`: an origin of a name lies in one of several files, at a node that binds the name
  there;
* `Project.sound_of_lineage`: in the analysis of a file, all origins lie in the files that lead to
  it. The scope at an inclusion carries this from a file to the file below it;
* `Project.declarations_bind`: the declarations that the editor is given for a use.
-/

set_option autoImplicit false

namespace MesonLens

/-- Where no two items have the same key, an item is found by its key. -/
theorem find?_key_of_nodup {α κ : Type} [DecidableEq κ] (key : α → κ) {l : List α}
    (hl : (l.map key).Nodup) {x : α} (hx : x ∈ l) : l.find? (key · == key x) = some x := by
  cases hfind : l.find? (key · == key x) with
  | none => simpa using List.find?_eq_none.mp hfind x hx
  | some y =>
    have hkey : key y = key x := by simpa using List.find?_some hfind
    rw [List.inj_on_of_nodup_map hl (List.mem_of_find?_eq_some hfind) hx hkey]

namespace BuildTree

/-- The origin is a node of one of the files, with its stretch, and the node binds the name. -/
def Bound (chain : List BuildTree) (name : String) (o : Origin) : Prop :=
  ∃ t ∈ chain, o.file = t.file.path ∧ ∃ s, t.file.source = some s ∧
    ∃ n ∈ s.root.preorder, n.id = o.node ∧ n.span = o.span ∧ s.root.Binds name n

theorem Bound.cons {chain : List BuildTree} {name : String} {o : Origin} (h : Bound chain name o)
    (t : BuildTree) : Bound (t :: chain) name o := by
  obtain ⟨u, hu, hbound⟩ := h
  exact ⟨u, List.mem_cons_of_mem t hu, hbound⟩

/-- What holds of the scope of the root and of the scopes at the inclusions holds where an included
file starts. -/
theorem startOf_induct (c : Catalog) {J : Scope → Prop} {scopes : List IncludeScope}
    (hroot : J (Scope.root c)) (h : ∀ i ∈ scopes, J i.scope) (f : BuildFile) :
    J (startOf c scopes f) := by
  unfold startOf
  cases hfound : f.call.bind fun call => scopes.find? (·.call == call) with
  | none => exact hroot
  | some i =>
    obtain ⟨call, -, hfind⟩ := Option.bind_eq_some_iff.mp hfound
    exact h i (List.mem_of_find?_eq_some hfind)

/-- The analysis of a file adds only origins in the file. -/
theorem Raw.sound_analyze {t : BuildTree} (h : t.Raw) {c : Catalog} {scope : Scope} {s : SourceFile}
    (hs : t.file.source = some s) {above : List BuildTree}
    (hscope : scope.Sound (Bound (t.analyze c scope :: above))) :
    (s.analyze c t.file.path scope).Sound (Bound (t.analyze c scope :: above)) := by
  refine s.sound_analyze ⟨c, t.file.path⟩ hscope fun name n hbinds => ?_
  have hfile := h.file_analyze c scope
  refine ⟨t.analyze c scope, List.mem_cons_self, by rw [hfile]; rfl, s, by rw [hfile]; exact hs, ?_⟩
  exact ⟨n, hbinds.mem_preorder, rfl, rfl, hbinds⟩

end BuildTree

namespace Project

open BuildTree (Bound)

variable {disk : Disk} {source : Source} {root : Path} {cache cache' : Cache} {project : Project}

/-- A file is analyzed from a scope whose origins lie in the files that lead to it, and so do the
origins of its analysis. -/
theorem sound_of_lineage (c : Catalog) (h : parse disk source cache root = .ok (project, cache'))
    {t : BuildTree} {above : List BuildTree}
    (hlineage : (project.analyze c).tree.Lineage (t :: above)) :
    ∃ v ∈ project.tree.subtrees, ∃ scope, t = v.analyze c scope ∧
      ∀ a ∈ t.file.analysis, a.Sound (Bound (t :: above)) := by
  have hraw := raw_of_parse h
  obtain ⟨v, hv, scope, rfl, hscope⟩ := BuildTree.Lineage.analyze_induct hraw
    (P := fun chain scope => scope.Sound (Bound chain)) (Scope.sound_root c)
    (fun t ht u hu s hs scope above hscope _ =>
      (BuildTree.startOf_induct c (Scope.sound_root c)
        ((hraw t ht).sound_analyze hs hscope).includeScopes u.file).mono
        fun _ _ hbound => hbound.cons _) hlineage
  refine ⟨v, hv, scope, rfl, fun a ha => ?_⟩
  rw [(hraw v hv).file_analyze] at ha
  obtain ⟨s, hs, rfl⟩ := Option.map_eq_some_iff.mp ha
  exact (hraw v hv).sound_analyze hs hscope

/-- No two files of a project have the same path. -/
theorem nodup_paths_analyze (c : Catalog)
    (h : parse disk source cache root = .ok (project, cache')) :
    ((project.analyze c).files.map BuildFile.path).Nodup := by
  rw [paths_analyze]
  exact (paths_of_parse h).1

/-- The path of a file of a project is resolved. -/
theorem normalize_path_of_mem (c : Catalog)
    (h : parse disk source cache root = .ok (project, cache')) {t : BuildTree}
    (ht : t ∈ (project.analyze c).tree.subtrees) : t.file.path.normalize = t.file.path := by
  obtain ⟨found, hgrows, -, -⟩ := grows_of_parse h
  have hpath : t.file.path ∈ (project.analyze c).files.map BuildFile.path :=
    List.mem_map_of_mem (List.mem_map_of_mem ht)
  rw [paths_analyze, files, BuildTree.files, List.map_map] at hpath
  obtain ⟨u, hu, hsame⟩ := List.mem_map.mp hpath
  rw [← BuildTree.subtreesAll_singleton] at hu
  rw [← hsame]
  exact hgrows.normal u hu

/-- What stands in a file of the project is looked up by its path. -/
theorem index?_of_mem (c : Catalog) (h : parse disk source cache root = .ok (project, cache'))
    {t : BuildTree} (ht : t ∈ (project.analyze c).tree.subtrees) :
    (project.analyze c).index? t.file.path = some t.file.index := by
  have hmem : t.file ∈ (project.analyze c).files := List.mem_map_of_mem ht
  show ((project.analyze c).files.find? (·.path == t.file.path.normalize)).bind
    (fun f => some f.index) = _
  -- The path is resolved once more when the file is looked up.
  rw [normalize_path_of_mem c h ht,
    find?_key_of_nodup BuildFile.path (nodup_paths_analyze c h) hmem]
  rfl

/-- Every declaration of a use of a variable is a binding of the variable. For every use in a file
of a project:

* each of its origins lies in the file or in one of the files that lead to it, is a node of that
  file with its stretch, and binds the name there;
* the declarations that are looked up for the use are its origins. -/
theorem declarations_bind (c : Catalog) (hcache : cache.Genuine)
    (h : parse disk source cache root = .ok (project, cache')) :
    ∀ t ∈ (project.analyze c).tree.subtrees,
      ∃ above, (project.analyze c).tree.Lineage (t :: above) ∧
        ∀ u ∈ t.file.index.identifiers,
          (∀ o ∈ u.origins, Bound (t :: above) u.name o) ∧
            (project.analyze c).declarations t.file.path u.node = u.origins := by
  intro t ht
  obtain ⟨above, hlineage⟩ := BuildTree.exists_lineage ht
  obtain ⟨v, hv, scope, rfl, hsound⟩ := sound_of_lineage c h hlineage
  refine ⟨above, hlineage, fun u hu => ?_⟩
  have hindex := index?_of_mem c h ht
  have hfile := (raw_of_parse h v hv).file_analyze c scope
  cases hs : v.file.source with
  | none =>
    -- A file that could not be read has no uses.
    rw [hfile, hs] at hu
    cases hu
  | some s =>
    obtain ⟨text, rfl⟩ := genuine_of_parse hcache h v hv s hs
    rw [hs] at hfile
    have hanalysis : (v.analyze c scope).file.analysis =
        some ((SourceFile.parse text).analyze c v.file.path scope) := by rw [hfile]; rfl
    rw [BuildFile.index, hanalysis] at hu hindex
    refine ⟨(hsound _ hanalysis).identifiers u hu, ?_⟩
    -- No other use is at the same node, so the lookup finds this one.
    have hnodup := SourceFile.nodup_identifiers ⟨c, v.file.path⟩ text scope
    unfold declarations
    rw [hindex]
    dsimp only [Option.map_some, Option.getD_some]
    rw [find?_key_of_nodup IdentifierUse.node hnodup hu]

/-- A variable that is bound in both branches of a selection, once by its name and once by a call,
and is used in an included file. -/
theorem declarations_bind_inherited :
    let root : Path := ⟨true, ["p"]⟩
    let held := [(buildFile root,
        "if a\n  v = 1\nelse\n  set_variable('v', 2)\nendif\nsubdir('s')\n"),
      (buildFile (root.child "s"), "w = v\n")]
    let source : Source := { overrides := held, opened := held.map Prod.fst }
    Cache.Genuine {} ∧ ∃ project cache', parse {} source {} root = .ok (project, cache') ∧
      ∃ t ∈ (project.analyze {}).tree.subtrees, t.file.path = buildFile (root.child "s") ∧
        ∃ u ∈ t.file.index.identifiers, u.name = "v" ∧
          u.origins.map Origin.file = [buildFile root, buildFile root] ∧
          (∃ above, ∀ o ∈ u.origins, Bound (t :: above) "v" o) ∧
          (project.analyze {}).declarations t.file.path u.node = u.origins := by
  intro root held source
  have hread : ((parse {} source {} root).toOption.map fun read =>
      decide (∃ t ∈ (read.1.analyze {}).tree.subtrees, t.file.path = buildFile (root.child "s") ∧
        ∃ u ∈ t.file.index.identifiers, u.name = "v" ∧
          u.origins.map Origin.file = [buildFile root, buildFile root])) = some true := by
    decide +kernel
  obtain ⟨⟨project, cache'⟩, hparse, hread⟩ := Option.map_eq_some_iff.mp hread
  have hparse := ok_of_toOption hparse
  obtain ⟨t, ht, hpath, u, hu, hname, hfiles⟩ := of_decide_eq_true hread
  obtain ⟨above, -, huses⟩ := declarations_bind {} Cache.genuine_empty hparse t ht
  obtain ⟨hbound, hdeclarations⟩ := huses u hu
  rw [hname] at hbound
  exact ⟨Cache.genuine_empty, project, cache', hparse, t, ht, hpath, u, hu, hname, hfiles,
    ⟨above, hbound⟩, hdeclarations⟩

end Project

end MesonLens
