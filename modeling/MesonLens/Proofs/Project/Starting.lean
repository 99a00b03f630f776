import MesonLens.Builtin.Catalog
import MesonLens.Proofs.Analysis.Outcome
import MesonLens.Proofs.Project.Lineage

/-!
# `MesonLens.Proofs.Project.Starting`: where an included file starts

The inclusions of a file are found twice. `SourceFile.includes` reads the calls of `subdir` off the
tree, before anything is analyzed; from it the project is put together. The analysis of the file
comes to the same calls in the order of evaluation, and notes the scope that each of them finds. An
included file is matched with its scope by the number of the call. If there were no scope for it, it
would start from the scope of the root.

* `SourceFile.exists_includeScope`: in a text without errors, a call that was read off the tree is
  one that the analysis comes to;
* `BuildTree.Starts`: the scope from which a file is to start, by the calls that lead to it;
* `Project.starts_where_included`: every file of a project without syntax errors starts there.
-/

set_option autoImplicit false

namespace MesonLens

namespace SourceFile

variable (ctx : Analyze.Context) (scope : Scope) {text : String}

/-- The analysis comes to every inclusion of a text without errors. -/
theorem exists_includeScope (h : (parse text).errors = []) {i : Include}
    (hi : i ∈ (parse text).includes) :
    ∃ found ∈ ((parse text).analyze ctx.catalog ctx.file scope).includeScopes,
      found.call = i.call := by
  have hpair : (i.call, i.dir) ∈ (parse text).includes.map fun i => (i.call, i.dir) :=
    List.mem_map_of_mem hi
  rw [← (pairs_perm_includes ctx scope h).mem_iff] at hpair
  obtain ⟨found, hfound, heq⟩ := List.mem_map.mp hpair
  exact ⟨found, hfound, congrArg Prod.fst heq⟩

/-- The two ways to find the inclusions of a text without errors agree, and neither finds an
inclusion twice. -/
theorem includes_agree (h : (parse text).errors = []) :
    let read := (parse text).includes.map fun i => (i.call, i.dir)
    let noted := ((parse text).analyze ctx.catalog ctx.file scope).includeScopes.map
      fun i => (i.call, i.dir)
    read.Nodup ∧ noted.Nodup ∧ ∀ pair, pair ∈ read ↔ pair ∈ noted := by
  intro read noted
  have hperm : noted.Perm read := pairs_perm_includes ctx scope h
  have hread : read.Nodup := by
    refine List.Nodup.of_map Prod.fst ?_
    rw [List.map_map]
    exact nodup_call_includes text
  exact ⟨hread, hperm.nodup_iff.mpr hread, fun pair => hperm.mem_iff.symm⟩

end SourceFile

namespace BuildTree

/-- A file whose call was noted starts from the scope at the call. -/
theorem startOf_of_noted (c : Catalog) {scopes : List IncludeScope} {f : BuildFile} {call : Nat}
    (hcall : f.call = some call) (hnoted : ∃ i ∈ scopes, i.call = call) :
    ∃ i ∈ scopes, f.call = some i.call ∧ startOf c scopes f = i.scope := by
  cases hfind : scopes.find? (·.call == call) with
  | none =>
    obtain ⟨i, hi, rfl⟩ := hnoted
    simpa using List.find?_eq_none.mp hfind i hi
  | some i =>
    have hsame : i.call = call := by simpa using List.find?_some hfind
    refine ⟨i, List.mem_of_find?_eq_some hfind, by rw [hcall, hsame], ?_⟩
    simp [startOf, hcall, hfind]

/-- The scope from which a file of a tree starts. The root starts from the scope of the catalog. An
included file starts from the scope that the file above it has right after the arguments of the call
are evaluated, as its analysis has noted. -/
inductive Starts (c : Catalog) (root : BuildTree) : BuildTree → Scope → Prop
  | root : Starts c root root (Scope.root c)
  | included {t u : BuildTree} {s : SourceFile} {scope : Scope} {i : IncludeScope}
      (parent : Starts c root t scope) (source : t.file.source = some s) (mem : u ∈ t.children)
      (call : u.file.call = some i.call)
      (noted : i ∈ (s.analyze c t.file.path scope).includeScopes)
      (found : s.ScopeAt ⟨c, t.file.path⟩ scope i.call i.scope) : Starts c root u i.scope

end BuildTree

namespace Project

open BuildTree (Starts)

variable {disk : Disk} {source : Source} {root : Path} {cache cache' : Cache} {project : Project}

/-- From a file that starts where it is included to one that it includes. -/
theorem starts_child (c : Catalog) (hcache : cache.Genuine)
    (h : parse disk source cache root = .ok (project, cache'))
    (herrors : ∀ f ∈ project.files, ∀ s, f.source = some s → s.errors = [])
    {top t u : BuildTree} {s : SourceFile} {scope : Scope} (ht : t ∈ project.tree.subtrees)
    (hs : t.file.source = some s) (hu : u ∈ t.children)
    (hstarts : Starts c top (t.analyze c scope) scope) :
    let next := BuildTree.startOf c (s.analyze c t.file.path scope).includeScopes u.file
    u.analyze c next ∈ (t.analyze c scope).children → Starts c top (u.analyze c next) next := by
  intro next hmem
  have hraw := raw_of_parse h
  obtain ⟨text, rfl⟩ := genuine_of_parse hcache h t ht s hs
  have hfree : (SourceFile.parse text).errors = [] := herrors t.file (List.mem_map_of_mem ht) _ hs
  -- The call is one that was read off the file, so the analysis comes to it too.
  obtain ⟨j, hj, hcall⟩ := call_mem_includes h t ht _ hs u hu
  obtain ⟨i, hi, hcall', hnext⟩ := BuildTree.startOf_of_noted c hcall
    (SourceFile.exists_includeScope ⟨c, t.file.path⟩ scope hfree hj)
  have hparent := (hraw t ht).file_analyze c scope
  have hchild := (hraw u (BuildTree.mem_subtrees_of_mem_children ht hu)).file_analyze c next
  rw [show next = i.scope from hnext] at hmem hchild ⊢
  refine .included (s := SourceFile.parse text) hstarts ?_ hmem ?_ ?_ ?_
  · rw [hparent]
    exact hs
  · rw [hchild]
    exact hcall'
  · rw [hparent]
    exact hi
  · rw [hparent]
    exact SourceFile.scopeAt_of_mem ⟨c, t.file.path⟩ scope _ hi

/-- The two ways to find the inclusions of a file agree, and so every file of a project starts from
the right scope.

* In the analysis of a text without errors, from any scope, the calls of `subdir` with their
  directories are those that are read off the tree, each once.
* In a project whose files have no syntax errors, every file is analyzed from the scope that the
  file above it has right after the arguments of the call are evaluated. The analysis of that file
  has noted the scope, so that no included file starts from the scope of the root for want of it. -/
theorem starts_where_included (c : Catalog) :
    (∀ text, (SourceFile.parse text).errors = [] → ∀ (file : Path) (scope : Scope),
      let read := (SourceFile.parse text).includes.map fun i => (i.call, i.dir)
      let noted := ((SourceFile.parse text).analyze c file scope).includeScopes.map
        fun i => (i.call, i.dir)
      read.Nodup ∧ noted.Nodup ∧ ∀ pair, pair ∈ read ↔ pair ∈ noted) ∧
    ∀ (disk : Disk) (source : Source) (cache : Cache) (root : Path) (project : Project)
      (cache' : Cache), cache.Genuine → parse disk source cache root = .ok (project, cache') →
      (∀ f ∈ project.files, ∀ s, f.source = some s → s.errors = []) →
      ∀ t ∈ (project.analyze c).tree.subtrees, ∃ scope,
        Starts c (project.analyze c).tree t scope ∧
          t.file.analysis = t.file.source.map fun s => s.analyze c t.file.path scope := by
  refine ⟨fun text h file scope => SourceFile.includes_agree ⟨c, file⟩ scope h, ?_⟩
  intro disk source cache root project cache' hcache h herrors t ht
  have hraw := raw_of_parse h
  obtain ⟨above, hlineage⟩ := BuildTree.exists_lineage ht
  -- The induction is along the chain; what it keeps is about the innermost file.
  obtain ⟨v, hv, scope, rfl, hstarts⟩ := BuildTree.Lineage.analyze_induct hraw
    (P := fun chain scope => ∀ t ∈ chain.head?, Starts c (project.analyze c).tree t scope)
    (fun t ht => Option.some.inj ht ▸ .root)
    (fun t ht u hu s hs scope above hstarts hmem w hw => Option.some.inj hw ▸
      starts_child c hcache h herrors ht hs hu (hstarts _ rfl) hmem) hlineage
  refine ⟨scope, hstarts _ rfl, ?_⟩
  rw [(hraw v hv).file_analyze]

/-- One directory is included in the key of a dictionary and another one in the header of a loop. -/
theorem starts_where_included_nested :
    let text := "x = 1\nd = \x7bsubdir('a').get(): x\x7d\nforeach x : [subdir('b')]\nendforeach\n"
    let root : Path := ⟨true, ["p"]⟩
    let held := [(buildFile root, text), (buildFile (root.child "a"), "y = x\n"),
      (buildFile (root.child "b"), "z = d\n")]
    let source : Source := { overrides := held, opened := held.map Prod.fst }
    (SourceFile.parse text).errors = [] ∧
      ((SourceFile.parse text).includes.map Include.dir) = ["a", "b"] ∧
      (∀ i ∈ (SourceFile.parse text).includes, (i.call, i.dir) ∈
        ((SourceFile.parse text).analyze Builtin.catalog (buildFile root) {}).includeScopes.map
          fun i => (i.call, i.dir)) ∧
      ∃ project cache', parse {} source {} root = .ok (project, cache') ∧
        project.files.length = 3 ∧
        (∀ f ∈ project.files, ∀ s, f.source = some s → s.errors = []) ∧
        ∀ t ∈ (project.analyze Builtin.catalog).tree.subtrees, ∃ scope,
          Starts Builtin.catalog (project.analyze Builtin.catalog).tree t scope ∧
            t.file.analysis =
              t.file.source.map fun s => s.analyze Builtin.catalog t.file.path scope := by
  intro text root held source
  have hagree := starts_where_included Builtin.catalog
  have hfree : (SourceFile.parse text).errors = [] := by decide +kernel
  have hread : ((parse {} source {} root).toOption.map fun read => (read.1.files.length,
      read.1.files.all fun f => f.source.all fun s => s.errors.isEmpty)) = some (3, true) := by
    decide +kernel
  obtain ⟨⟨project, cache'⟩, hparse, hread⟩ := Option.map_eq_some_iff.mp hread
  have hparse := ok_of_toOption hparse
  obtain ⟨hlength, hall⟩ := Prod.mk.inj hread
  have herrors : ∀ f ∈ project.files, ∀ s, f.source = some s → s.errors = [] := by
    intro f hf s hs
    have hfile := List.all_eq_true.mp hall f hf
    rw [hs] at hfile
    simpa using hfile
  refine ⟨hfree, by decide +kernel, fun i hi => ?_, project, cache', hparse, hlength, herrors, ?_⟩
  · exact ((hagree.1 text hfree (buildFile root) {}).2.2 _).mp (List.mem_map_of_mem hi)
  · exact hagree.2 {} source {} root project cache' Cache.genuine_empty hparse herrors

end Project

end MesonLens
