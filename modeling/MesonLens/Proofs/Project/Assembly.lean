import MesonLens.Proofs.Files.Places
import MesonLens.Proofs.Project.Loading
import MesonLens.Proofs.Syntax.NodeAt

/-!
# `MesonLens.Proofs.Project.Assembly`: how a project is put together

A build file may include its own directory, a directory above it, or one that another file includes
too. `Project.parse_assembled` says what is read all the same.

* `BuildTree.Followed`: what became of the inclusions of a file, one after the other. Since the
  calls of a file differ in their numbers and in their stretches (`SourceFile.nodup_call_includes`,
  `SourceFile.nodup_span_includes`), each inclusion can be told from the trees and problems that
  are left: `BuildTree.Followed.accounted`;
* `BuildTree.Grows`: what reading some trees adds to the project. It is closed under reading one
  tree after another and under adding the file above them, so that `BuildTree.grows_load` is an
  induction on the depth;
* `BuildTree.Context.Stacked`: the files above the file that is read. They are all different and
  each is listed by the editor or the disk, so there are no more of them than listed places. This
  is why the bound on the depth is never met, and why a larger one gives nothing new
  (`BuildTree.load_add`).

The files that were met only grow in number, and a file is refused when it was met before. So a
file is in the project once, wherever it is included from.
-/

set_option autoImplicit false

namespace MesonLens

/-! ### The inclusions of a file -/

theorem Include.ofNode?_eq_some {n : Tree Mark} {i : Include} (h : ofNode? n = some i) :
    n.kind = .call ∧ i.call = n.id ∧ i.span = n.span := by
  unfold ofNode? at h
  split at h
  · simp only [bind, Option.bind_eq_some_iff] at h
    obtain ⟨-, -, first, -, dir, -, hi⟩ := h
    cases hi
    exact ⟨rfl, rfl, rfl⟩
  · cases h

namespace SourceFile

theorem mem_includes {f : SourceFile} {i : Include} :
    i ∈ f.includes ↔ ∃ n ∈ f.root.preorder, Include.ofNode? n = some i := List.mem_filterMap

/-- Every inclusion of a file is a call of its own. -/
theorem nodup_call_includes (text : String) : ((parse text).includes.map Include.call).Nodup := by
  have hsublist : ∀ ns : List (Tree Mark),
      ((ns.filterMap Include.ofNode?).map Include.call).Sublist (ns.map Tree.id) := by
    intro ns
    induction ns with
    | nil => exact .slnil
    | cons n ns ih =>
      cases hn : Include.ofNode? n with
      | none =>
        rw [List.filterMap_cons_none hn]
        exact ih.cons _
      | some i =>
        rw [List.filterMap_cons_some hn, List.map_cons, List.map_cons,
          (Include.ofNode?_eq_some hn).2.1]
        exact ih.cons_cons _
  -- The inclusions are some of the nodes, in the same order, and nodes differ in their numbers.
  exact (hsublist _).nodup (nodup_ids_root text)

/-- Every inclusion of a file covers a stretch of its own. -/
theorem nodup_span_includes (text : String) : ((parse text).includes.map Include.span).Nodup := by
  refine List.Nodup.map_on ?_ (List.Nodup.of_map _ (nodup_call_includes text))
  intro i hi j hj hspan
  obtain ⟨a, ha, hai⟩ := mem_includes.mp hi
  obtain ⟨b, hb, hbj⟩ := mem_includes.mp hj
  obtain ⟨hcall, -, hspan'⟩ := Include.ofNode?_eq_some hai
  obtain ⟨hcall', -, hspan''⟩ := Include.ofNode?_eq_some hbj
  have hsame : a = b := (nested_root text).call_unique ha hb hcall hcall'
    (by rw [← hspan', ← hspan'', hspan])
  rw [hsame, hbj] at hai
  exact (Option.some.inj hai).symm

end SourceFile

namespace Cache

/-- Every tree that is kept is the one of some text. -/
def Genuine (c : Cache) : Prop :=
  ∀ entry ∈ c.entries, ∃ text, entry.2.parsed.file = SourceFile.parse text

theorem genuine_empty : ({} : Cache).Genuine := nofun

/-- What is read by way of such a cache is the tree of some text, and such a cache is left. -/
theorem Genuine.read {c : Cache} (h : c.Genuine) (p : Path) (text : String) (isOpen : Bool) :
    (∃ text', (c.read p text isOpen).1.file = SourceFile.parse text') ∧
      (c.read p text isOpen).2.Genuine := by
  unfold Cache.read
  split
  · exact ⟨⟨text, rfl⟩, h⟩
  · dsimp only
    split
    · next e hhit =>
      obtain ⟨he, -⟩ := Option.filter_eq_some_iff.mp hhit
      obtain ⟨before, after, hsplit, -⟩ := List.lookup_eq_some_iff.mp he
      exact ⟨h (p.key, e) (by simp [hsplit]), h⟩
    · refine ⟨⟨text, rfl⟩, fun entry hentry => ?_⟩
      rcases List.mem_cons.mp hentry with rfl | hentry
      · exact ⟨text, rfl⟩
      · exact h entry (List.mem_filter.mp hentry).1

/-- A file that nothing is kept for is parsed. -/
theorem read_of_entry?_eq_none {c : Cache} {p : Path} (h : c.entry? p = none) (text : String)
    (isOpen : Bool) : (c.read p text isOpen).1.file = SourceFile.parse text := by
  unfold Cache.read
  rw [h]
  cases isOpen with
  | true => rfl
  | false => rfl

/-- What is kept after a read is kept for its path, or was kept before. -/
theorem mem_entries_read {c : Cache} {p : Path} {text : String} {isOpen : Bool}
    {e : Path × CacheEntry} (h : e ∈ (c.read p text isOpen).2.entries) :
    e.1 = p.key ∨ e ∈ c.entries := by
  unfold Cache.read at h
  split at h
  · exact .inr h
  · dsimp only at h
    split at h
    · exact .inr h
    · rcases List.mem_cons.mp h with rfl | h
      · exact .inl rfl
      · exact .inr (List.mem_filter.mp h).1

end Cache

theorem normal_buildFile {dir : Path} (h : dir.Normal) : (buildFile dir).Normal :=
  h.child (by decide)

namespace BuildTree

/-! ### What following the inclusions leads to -/

/-- How the inclusions of a file in a directory are followed: the problems and the trees that they
lead to. `met` tells of the files that are in the project. -/
inductive Followed (ctx : Context) (met : Path → Prop) (dir : Path) :
    List Include → List Diagnostic → List BuildTree → Prop
  | nil : Followed ctx met dir [] [] []
  /-- A file that is in the project already, or not there, is not read. -/
  | refused {i : Include} {is : List Include} {ps : List Diagnostic} {ts : List BuildTree}
      (problem : Problem)
      (reason : met (buildFile (includedDir dir i)) ∨
        ctx.source.hasFile ctx.disk (buildFile (includedDir dir i)) = false)
      (rest : Followed ctx met dir is ps ts) :
      Followed ctx met dir (i :: is) (⟨problem, i.span⟩ :: ps) ts
  | included {i : Include} {is : List Include} {ps : List Diagnostic} {ts : List BuildTree}
      {t : BuildTree} (call : t.file.call = some i.call)
      (path : t.file.path = buildFile (includedDir dir i))
      (text : ∃ text, ctx.source.read ctx.disk (buildFile (includedDir dir i)) = .ok text)
      (rest : Followed ctx met dir is ps ts) : Followed ctx met dir (i :: is) ps (t :: ts)
  /-- A file that is there and cannot be read is in the project all the same. -/
  | unreadable {i : Include} {is : List Include} {ps : List Diagnostic} {ts : List BuildTree}
      {t : BuildTree} (problem : Problem) (call : t.file.call = some i.call)
      (path : t.file.path = buildFile (includedDir dir i))
      (there : ctx.source.hasFile ctx.disk (buildFile (includedDir dir i)) = true)
      (unread : ∃ e, ctx.source.read ctx.disk (buildFile (includedDir dir i)) = .error e)
      (rest : Followed ctx met dir is ps ts) :
      Followed ctx met dir (i :: is) (⟨problem, i.span⟩ :: ps) (t :: ts)

/-- An inclusion is accounted for once: by one tree, or by one problem at its stretch. There are
both only when the file is there and cannot be read; and there is no tree only when the file is in
the project already, or is not there. -/
def Accounted (ctx : Context) (met : Path → Prop) (dir : Path) (ps : List Diagnostic)
    (ts : List BuildTree) (i : Include) : Prop :=
  let child := buildFile (includedDir dir i)
  let trees := (ts.map (·.file.call)).count (some i.call)
  let problems := (ps.map (·.span)).count i.span
  (trees = 1 ∧ problems = 0 ∧ ∃ text, ctx.source.read ctx.disk child = .ok text) ∨
  (trees = 0 ∧ problems = 1 ∧ (met child ∨ ctx.source.hasFile ctx.disk child = false)) ∨
  (trees = 1 ∧ problems = 1 ∧ ctx.source.hasFile ctx.disk child = true ∧
    ∃ e, ctx.source.read ctx.disk child = .error e)

/-- A problem at another stretch does not count. -/
theorem Accounted.cons_problem {ctx : Context} {met : Path → Prop} {dir : Path}
    {ps : List Diagnostic} {ts : List BuildTree} {i : Include} {p : Diagnostic}
    (h : Accounted ctx met dir ps ts i) (hp : p.span ≠ i.span) :
    Accounted ctx met dir (p :: ps) ts i := by
  unfold Accounted at h ⊢
  rw [List.map_cons, List.count_cons_of_ne hp]
  exact h

/-- A tree at another call does not count. -/
theorem Accounted.cons_tree {ctx : Context} {met : Path → Prop} {dir : Path}
    {ps : List Diagnostic} {ts : List BuildTree} {i : Include} {t : BuildTree}
    (h : Accounted ctx met dir ps ts i) (ht : t.file.call ≠ some i.call) :
    Accounted ctx met dir ps (t :: ts) i := by
  unfold Accounted at h ⊢
  rw [List.map_cons, List.count_cons_of_ne ht]
  exact h

namespace Followed

variable {ctx : Context} {met met' : Path → Prop} {dir : Path} {is : List Include}
  {ps : List Diagnostic} {ts : List BuildTree}

theorem mono (h : Followed ctx met dir is ps ts) (hmet : ∀ p, met p → met' p) :
    Followed ctx met' dir is ps ts := by
  induction h with
  | nil => exact .nil
  | refused problem reason _ ih => exact .refused problem (reason.imp_left (hmet _)) ih
  | included call path text _ ih => exact .included call path text ih
  | unreadable problem call path there unread _ ih =>
    exact .unreadable problem call path there unread ih

/-- The trees come in the order of the calls, each at the path that the call names. -/
theorem trees_sublist (h : Followed ctx met dir is ps ts) :
    (ts.map fun t => (t.file.call, t.file.path)).Sublist
      (is.map fun i => (some i.call, buildFile (includedDir dir i))) := by
  induction h with
  | nil => exact .slnil
  | refused _ _ _ ih => exact ih.cons _
  | included call path _ _ ih =>
    rw [List.map_cons, List.map_cons, call, path]
    exact ih.cons_cons _
  | unreadable _ call path _ _ _ ih =>
    rw [List.map_cons, List.map_cons, call, path]
    exact ih.cons_cons _

/-- Without inclusions there are no trees. -/
theorem trees_eq_nil (h : Followed ctx met dir [] ps ts) : ts = [] := by
  cases h with
  | nil => rfl

/-- The problems come in the order of the calls too. -/
theorem problems_sublist (h : Followed ctx met dir is ps ts) :
    (ps.map (·.span)).Sublist (is.map Include.span) := by
  induction h with
  | nil => exact .slnil
  | refused _ _ _ ih => exact ih.cons_cons _
  | included _ _ _ _ ih => exact ih.cons _
  | unreadable _ _ _ _ _ _ ih => exact ih.cons_cons _

theorem count_call_eq_zero (h : Followed ctx met dir is ps ts) {call : Nat}
    (hcall : call ∉ is.map Include.call) : (ts.map (·.file.call)).count (some call) = 0 := by
  rw [List.count_eq_zero]
  intro hmem
  obtain ⟨t, ht, hcall'⟩ := List.mem_map.mp hmem
  obtain ⟨i, hi, heq⟩ := List.mem_map.mp (h.trees_sublist.subset (List.mem_map_of_mem ht))
  have heq' : some i.call = t.file.call := congrArg Prod.fst heq
  rw [hcall', Option.some_inj] at heq'
  exact hcall (heq' ▸ List.mem_map_of_mem hi)

theorem count_span_eq_zero (h : Followed ctx met dir is ps ts) {span : Span}
    (hspan : span ∉ is.map Include.span) : (ps.map (·.span)).count span = 0 :=
  List.count_eq_zero.mpr fun hmem => hspan (h.problems_sublist.subset hmem)

/-- Where no two inclusions share their call or their stretch, each is accounted for. -/
theorem accounted (h : Followed ctx met dir is ps ts) (hcalls : (is.map Include.call).Nodup)
    (hspans : (is.map Include.span).Nodup) : ∀ i ∈ is, Accounted ctx met dir ps ts i := by
  induction h with
  | nil => exact nofun
  | @refused j is ps ts problem reason rest ih =>
    obtain ⟨hcall, hcalls⟩ := List.nodup_cons.mp hcalls
    obtain ⟨hspan, hspans⟩ := List.nodup_cons.mp hspans
    intro i hi
    rcases List.mem_cons.mp hi with rfl | hi
    · refine .inr (.inl ⟨rest.count_call_eq_zero hcall, ?_, reason⟩)
      rw [List.map_cons, List.count_cons_self, rest.count_span_eq_zero hspan]
    · -- The problem of this inclusion stands at another stretch than those of the others.
      refine (ih hcalls hspans i hi).cons_problem ?_
      exact fun heq => hspan (List.mem_map.mpr ⟨i, hi, heq.symm⟩)
  | @included j is ps ts t call path text rest ih =>
    obtain ⟨hcall, hcalls⟩ := List.nodup_cons.mp hcalls
    obtain ⟨hspan, hspans⟩ := List.nodup_cons.mp hspans
    intro i hi
    rcases List.mem_cons.mp hi with rfl | hi
    · refine .inl ⟨?_, rest.count_span_eq_zero hspan, text⟩
      rw [List.map_cons, call, List.count_cons_self, rest.count_call_eq_zero hcall]
    · -- The tree of this inclusion is of another call than those of the others.
      refine (ih hcalls hspans i hi).cons_tree fun heq => hcall ?_
      rw [call, Option.some_inj] at heq
      exact heq ▸ List.mem_map_of_mem hi
  | @unreadable j is ps ts t problem call path there unread rest ih =>
    obtain ⟨hcall, hcalls⟩ := List.nodup_cons.mp hcalls
    obtain ⟨hspan, hspans⟩ := List.nodup_cons.mp hspans
    intro i hi
    rcases List.mem_cons.mp hi with rfl | hi
    · refine .inr (.inr ⟨?_, ?_, there, unread⟩)
      · rw [List.map_cons, call, List.count_cons_self, rest.count_call_eq_zero hcall]
      · rw [List.map_cons, List.count_cons_self, rest.count_span_eq_zero hspan]
    · refine ((ih hcalls hspans i hi).cons_tree fun heq => hcall ?_).cons_problem ?_
      · rw [call, Option.some_inj] at heq
        exact heq ▸ List.mem_map_of_mem hi
      · exact fun heq => hspan (List.mem_map.mpr ⟨i, hi, heq.symm⟩)

end Followed

/-! ### One step of reading -/

section Steps

variable {ctx : Context} {stack : List Path} {dir : Path} {i : Include} {is : List Include}
  {found : Found} {load : Path → Option String → Option Nat → StateM Found BuildTree}

/-- What is refused is in the project, or is not there. -/
theorem reason_of_refusal? {included : List Path} {child : Path} {problem : Problem}
    (h : refusal? ctx stack included i child = some problem) :
    child ∈ stack ∨ child ∈ included ∨ ctx.source.hasFile ctx.disk child = false := by
  unfold refusal? at h
  split at h
  · next hstack => exact .inl (by simpa using hstack)
  split at h
  · next hincluded => exact .inr (.inl (by simpa using hincluded))
  split at h
  · next hfile => exact .inr (.inr (by simpa using hfile))
  · cases h

/-- What is not refused is there, and is not in the project. -/
theorem of_refusal?_eq_none {included : List Path} {child : Path}
    (h : refusal? ctx stack included i child = none) :
    child ∉ stack ∧ child ∉ included ∧ ctx.source.hasFile ctx.disk child = true := by
  unfold refusal? at h
  split at h
  · cases h
  split at h
  · cases h
  split at h
  · cases h
  · next hstack hincluded hfile =>
    exact ⟨by simpa using hstack, by simpa using hincluded, by simpa using hfile⟩

theorem follow_run_refused {problem : Problem}
    (h : refusal? ctx stack found.included i (buildFile (includedDir dir i)) = some problem) :
    (follow ctx load dir stack (i :: is)).run found =
      let rest := (follow ctx load dir stack is).run found
      ((⟨problem, i.span⟩ :: rest.1.1, rest.1.2), rest.2) := by
  conv => lhs; unfold follow
  simp only [StateT.run_bind, StateT.run_get, pure_bind, h]
  rfl

theorem follow_run_entered
    (h : refusal? ctx stack found.included i (buildFile (includedDir dir i)) = none) :
    (follow ctx load dir stack (i :: is)).run found =
      let text := ctx.source.read ctx.disk (buildFile (includedDir dir i))
      let tree := (load (includedDir dir i) text.toOption (some i.call)).run found
      let rest := (follow ctx load dir stack is).run tree.2
      match text with
      | .ok _ => ((rest.1.1, tree.1 :: rest.1.2), rest.2)
      | .error _ =>
        ((⟨.unreadableBuildFile i.dir, i.span⟩ :: rest.1.1, tree.1 :: rest.1.2), rest.2) := by
  conv => lhs; unfold follow
  simp only [StateT.run_bind, StateT.run_get, pure_bind, h]
  cases ctx.source.read ctx.disk (buildFile (includedDir dir i)) with
  | ok text => rfl
  | error e => rfl

theorem enter_included (path : Path) (text : Option String) (found : Found) :
    ((enter ctx path text).run found).2.included = path :: found.included := by
  cases text with
  | none => rfl
  | some text => rfl

/-- A file that is taken into the project has the tree of some text. -/
theorem enter_genuine (path : Path) (text : Option String) (found : Found)
    (h : found.cache.Genuine) :
    ((enter ctx path text).run found).2.cache.Genuine ∧
      ∀ s, ((enter ctx path text).run found).1 = some s → ∃ text, s = SourceFile.parse text := by
  cases text with
  | none => exact ⟨h, nofun⟩
  | some text =>
    obtain ⟨⟨text', hfile⟩, hcache⟩ := h.read path text (ctx.source.isOpen path)
    exact ⟨hcache, fun s hs => ⟨text', Option.some.inj hs ▸ hfile⟩⟩

/-- Only files that are in the project are kept. -/
def Found.Fresh (found : Found) : Prop := ∀ e ∈ found.cache.entries, e.1 ∈ found.included

/-- As long as only files of the project are kept, a file that is taken into it is parsed. -/
theorem enter_fresh {path : Path} (text : Option String) (h : found.Fresh) (hpath : path.Normal)
    (hnew : path ∉ found.included) :
    ((enter ctx path text).run found).2.Fresh ∧
      ((enter ctx path text).run found).1 = text.map SourceFile.parse := by
  cases text with
  | none => exact ⟨fun e he => List.mem_cons_of_mem _ (h e he), rfl⟩
  | some text =>
    have hnone : found.cache.entry? path = none := by
      refine List.lookup_eq_none_iff.mpr fun e he => ?_
      rw [bne_iff_ne, hpath.resolved.key_eq]
      rintro rfl
      exact hnew (h e he)
    refine ⟨fun e he => ?_, congrArg some (Cache.read_of_entry?_eq_none hnone text _)⟩
    rcases Cache.mem_entries_read he with hkey | hkept
    · rw [hkey, hpath.resolved.key_eq]
      exact List.mem_cons_self
    · exact List.mem_cons_of_mem _ (h e hkept)

/-- The use of the cache for a file, when it can be read. -/
def Context.use? (ctx : Context) (path : Path) : Option Cache.Use :=
  (ctx.source.read ctx.disk path).toOption.map (.read path · (ctx.source.isOpen path))

theorem enter_cache (path : Path) (found : Found) :
    ((enter ctx path (ctx.source.read ctx.disk path).toOption).run found).2.cache =
      Cache.play (ctx.use? path).toList found.cache := by
  unfold Context.use?
  cases ctx.source.read ctx.disk path with
  | error e => rfl
  | ok text => rfl

theorem load_file (depth : Nat) (text : Option String) (call : Option Nat) :
    ((BuildTree.load ctx depth stack dir text call).run found).1.file.call = call ∧
      ((BuildTree.load ctx depth stack dir text call).run found).1.file.path = buildFile dir := by
  cases depth with
  | zero => exact ⟨rfl, rfl⟩
  | succ depth => exact ⟨rfl, rfl⟩

end Steps

/-! ### What reading adds to a project -/

/-- The file is not analyzed yet, and includes nothing if it could not be read. -/
structure Raw (t : BuildTree) : Prop where
  analysis : t.file.analysis = none
  leaf : t.file.source = none → t.children = []

/-- Reading some trees adds their files to the project, each once, and every inclusion in them is
followed. The files are read by way of the cache, in the order of the trees. -/
structure Grows (ctx : Context) (found : Found) (ts : List BuildTree) (found' : Found) : Prop where
  included : found'.included = ((subtreesAll ts).map (·.file.path)).reverse ++ found.included
  nodup : found.included.Nodup → found'.included.Nodup
  normal : ∀ t ∈ subtreesAll ts, t.file.path.Normal
  followed : ∀ t ∈ subtreesAll ts, ∀ s, t.file.source = some s →
    Followed ctx (· ∈ found'.included) t.file.dir s.includes t.file.problems t.children
  genuine : found.cache.Genuine → found'.cache.Genuine ∧
    ∀ t ∈ subtreesAll ts, ∀ s, t.file.source = some s → ∃ text, s = SourceFile.parse text
  raw : ∀ t ∈ subtreesAll ts, t.Raw
  cache : found'.cache =
    Cache.play ((subtreesAll ts).filterMap fun t => ctx.use? t.file.path) found.cache
  /-- Where the cache is of no use, every file is parsed. -/
  fresh : found.Fresh → found'.Fresh ∧ ∀ t ∈ subtreesAll ts,
    t.file.source = (ctx.source.read ctx.disk t.file.path).toOption.map SourceFile.parse

theorem subtreesAll_append (ts us : List BuildTree) :
    subtreesAll (ts ++ us) = subtreesAll ts ++ subtreesAll us := by
  induction ts with
  | nil => rfl
  | cons t ts ih => rw [List.cons_append, subtreesAll, subtreesAll, ih, List.append_assoc]

theorem subtreesAll_singleton (t : BuildTree) : subtreesAll [t] = t.subtrees := by
  rw [subtreesAll, subtreesAll, List.append_nil]

namespace Grows

variable {ctx : Context} {found mid found' : Found} {ts us : List BuildTree}

theorem subset (h : Grows ctx found ts found') : ∀ p ∈ found.included, p ∈ found'.included := by
  intro p hp
  rw [h.included]
  exact List.mem_append_right _ hp

theorem nil (found : Found) : Grows ctx found [] found :=
  ⟨rfl, fun h => h, nofun, nofun, fun h => ⟨h, nofun⟩, nofun, rfl, fun h => ⟨h, nofun⟩⟩

theorem append (h : Grows ctx found ts mid) (h' : Grows ctx mid us found') :
    Grows ctx found (ts ++ us) found' where
  included := by
    rw [h'.included, h.included, subtreesAll_append, List.map_append, List.reverse_append,
      List.append_assoc]
  nodup hnodup := h'.nodup (h.nodup hnodup)
  normal t ht := by
    rw [subtreesAll_append, List.mem_append] at ht
    exact ht.elim (h.normal t) (h'.normal t)
  followed t ht s hs := by
    rw [subtreesAll_append, List.mem_append] at ht
    rcases ht with ht | ht
    · exact (h.followed t ht s hs).mono h'.subset
    · exact h'.followed t ht s hs
  genuine hcache := by
    obtain ⟨hmid, hts⟩ := h.genuine hcache
    obtain ⟨hfound', hus⟩ := h'.genuine hmid
    refine ⟨hfound', fun t ht => ?_⟩
    rw [subtreesAll_append, List.mem_append] at ht
    exact ht.elim (hts t) (hus t)
  raw t ht := by
    rw [subtreesAll_append, List.mem_append] at ht
    exact ht.elim (h.raw t) (h'.raw t)
  cache := by
    rw [h'.cache, h.cache, subtreesAll_append, List.filterMap_append, Cache.play_append]
  fresh hfound := by
    obtain ⟨hmid, hts⟩ := h.fresh hfound
    obtain ⟨hfound', hus⟩ := h'.fresh hmid
    refine ⟨hfound', fun t ht => ?_⟩
    rw [subtreesAll_append, List.mem_append] at ht
    exact ht.elim (hts t) (hus t)

/-- A file that is taken into the project, with the trees that its inclusions led to. -/
theorem node {f : BuildFile}
    (h : Grows ctx ((enter ctx f.path (ctx.source.read ctx.disk f.path).toOption).run found).2 ts
      found')
    (hsource : f.source =
      ((enter ctx f.path (ctx.source.read ctx.disk f.path).toOption).run found).1)
    (hraw : f.analysis = none) (hnew : f.path ∉ found.included) (hpath : f.path.Normal)
    (hfollowed : Followed ctx (· ∈ found'.included) f.dir
      ((f.source.map SourceFile.includes).getD []) f.problems ts) :
    Grows ctx found [.node f ts] found' := by
  have hsubtrees : subtreesAll [BuildTree.node f ts] = .node f ts :: subtreesAll ts := by
    rw [subtreesAll_singleton, subtrees]
  -- Each fact is one about the file, which comes first, and one about the trees below it.
  refine ⟨?_, fun hnodup => ?_, ?_, ?_, fun hcache => ?_, ?_, ?_, fun hfresh => ?_⟩
  · rw [h.included, enter_included, hsubtrees, List.map_cons, List.reverse_cons, List.append_assoc]
    rfl
  · refine h.nodup ?_
    rw [enter_included]
    exact List.nodup_cons.mpr ⟨hnew, hnodup⟩
  · rw [hsubtrees]
    exact List.forall_mem_cons.mpr ⟨hpath, h.normal⟩
  · rw [hsubtrees]
    refine List.forall_mem_cons.mpr ⟨fun s hs => ?_, h.followed⟩
    have hs' : f.source = some s := hs
    rw [hs'] at hfollowed
    exact hfollowed
  · obtain ⟨hmid, hentered⟩ := enter_genuine f.path (ctx.source.read ctx.disk f.path).toOption found
      hcache
    obtain ⟨hfound', hts⟩ := h.genuine hmid
    rw [← hsource] at hentered
    rw [hsubtrees]
    exact ⟨hfound', List.forall_mem_cons.mpr ⟨hentered, hts⟩⟩
  · rw [hsubtrees]
    refine List.forall_mem_cons.mpr ⟨⟨hraw, fun hnone => ?_⟩, h.raw⟩
    have hnone' : f.source = none := hnone
    rw [hnone'] at hfollowed
    exact hfollowed.trees_eq_nil
  · rw [h.cache, enter_cache, hsubtrees, List.filterMap_cons, BuildTree.file]
    cases ctx.use? f.path with
    | none => rfl
    | some use => rfl
  · obtain ⟨hmid, hentered⟩ := enter_fresh (ctx.source.read ctx.disk f.path).toOption hfresh hpath
      hnew
    obtain ⟨hfound', hts⟩ := h.fresh hmid
    rw [hsubtrees]
    exact ⟨hfound', List.forall_mem_cons.mpr ⟨hsource.trans hentered, hts⟩⟩

end Grows

section Reading

variable {ctx : Context} {stack : List Path} {dir : Path} {found : Found}

/-- Following the inclusions of a file, when reading each included file adds to the project. -/
theorem grows_follow {load : Path → Option String → Option Nat → StateM Found BuildTree}
    (dir : Path) (is : List Include) (found : Found)
    (hload : ∀ dir call found, dir.Normal → buildFile dir ∉ stack →
      ctx.source.hasFile ctx.disk (buildFile dir) = true →
      (∀ p ∈ stack, p ∈ found.included) → buildFile dir ∉ found.included →
      let text := (ctx.source.read ctx.disk (buildFile dir)).toOption
      Grows ctx found [((load dir text call).run found).1] ((load dir text call).run found).2)
    (hfile : ∀ dir text call found, ((load dir text call).run found).1.file.call = call ∧
      ((load dir text call).run found).1.file.path = buildFile dir)
    (hstack : ∀ p ∈ stack, p ∈ found.included) :
    let r := (follow ctx load dir stack is).run found
    Grows ctx found r.1.2 r.2 ∧ Followed ctx (· ∈ r.2.included) dir is r.1.1 r.1.2 := by
  induction is generalizing found with
  | nil => exact ⟨.nil found, .nil⟩
  | cons i is ih =>
    cases hrefusal : refusal? ctx stack found.included i (buildFile (includedDir dir i)) with
    | some problem =>
      obtain ⟨hgrows, hfollowed⟩ := ih found hstack
      rw [follow_run_refused hrefusal]
      -- What was met before is still met when all inclusions have been followed.
      refine ⟨hgrows, .refused problem ?_ hfollowed⟩
      rcases reason_of_refusal? hrefusal with hmem | hmem | hnone
      · exact .inl (hgrows.subset _ (hstack _ hmem))
      · exact .inl (hgrows.subset _ hmem)
      · exact .inr hnone
    | none =>
      obtain ⟨hnew, hnew', hthere⟩ := of_refusal?_eq_none hrefusal
      let text := ctx.source.read ctx.disk (buildFile (includedDir dir i))
      have htree := hload (includedDir dir i) (some i.call) found
        (Path.normal_normalize _) hnew hthere hstack hnew'
      obtain ⟨hcall, hpath⟩ := hfile (includedDir dir i) text.toOption (some i.call) found
      obtain ⟨hgrows, hfollowed⟩ := ih _ fun p hp => htree.subset p (hstack p hp)
      -- The file is in the project whether it can be read or not.
      rw [follow_run_entered hrefusal]
      cases hread : ctx.source.read ctx.disk (buildFile (includedDir dir i)) with
      | ok content =>
        simp only [text, hread] at htree hcall hpath hgrows hfollowed
        exact ⟨htree.append hgrows, .included hcall hpath ⟨content, hread⟩ hfollowed⟩
      | error e =>
        simp only [text, hread] at htree hcall hpath hgrows hfollowed
        exact ⟨htree.append hgrows, .unreadable _ hcall hpath hthere ⟨e, hread⟩ hfollowed⟩

/-- The files above the file that is read: they are all different, and are listed by the editor or
the disk. -/
structure Context.Stacked (ctx : Context) (stack : List Path) : Prop where
  nodup : stack.Nodup
  listed : ∀ p ∈ stack, p ∈ ctx.source.places ctx.disk

theorem Context.Stacked.length_le (h : ctx.Stacked stack) : stack.length ≤ ctx.size := by
  have hle := (List.subperm_of_subset h.nodup h.listed).length_le
  simpa [Source.places, Context.size] using hle

theorem Context.Stacked.cons (h : ctx.Stacked stack) {p : Path} (hp : p.Normal)
    (hnew : p ∉ stack) (hthere : ctx.source.hasFile ctx.disk p = true) :
    ctx.Stacked (p :: stack) where
  nodup := List.nodup_cons.mpr ⟨hnew, h.nodup⟩
  listed := List.forall_mem_cons.mpr ⟨Source.mem_places_of_hasFile hp.resolved hthere, h.listed⟩

/-- Reading a file adds it and all that it includes to the project. The files above it leave room
for it, so that the bound on the depth is not met. -/
theorem grows_load (depth : Nat) (call : Option Nat) (hdir : dir.Normal)
    (hstacked : ctx.Stacked (buildFile dir :: stack)) (hdepth : ctx.size ≤ depth + stack.length)
    (hstack : ∀ p ∈ stack, p ∈ found.included) (hnew : buildFile dir ∉ found.included) :
    let text := (ctx.source.read ctx.disk (buildFile dir)).toOption
    let r := (load ctx depth stack dir text call).run found
    Grows ctx found [r.1] r.2 := by
  induction depth generalizing stack dir call found with
  | zero =>
    -- The files above and this one would be more than there are listed places.
    have hle := hstacked.length_le
    simp only [List.length_cons] at hle
    omega
  | succ depth ih =>
    intro text
    let source := (enter ctx (buildFile dir) text).run found
    let includes := (source.1.map SourceFile.includes).getD []
    have henter : source.2.included = buildFile dir :: found.included := enter_included ..
    have hload : ∀ dir' call found', dir'.Normal → buildFile dir' ∉ buildFile dir :: stack →
        ctx.source.hasFile ctx.disk (buildFile dir') = true →
        (∀ p ∈ buildFile dir :: stack, p ∈ found'.included) → buildFile dir' ∉ found'.included →
        let text := (ctx.source.read ctx.disk (buildFile dir')).toOption
        let r := (load ctx depth (buildFile dir :: stack) dir' text call).run found'
        Grows ctx found' [r.1] r.2 := by
      intro dir' call found' hdir' hfresh hthere
      exact ih call hdir' (hstacked.cons (normal_buildFile hdir') hfresh hthere)
        (by simp only [List.length_cons]; omega)
    obtain ⟨hgrows, hfollowed⟩ := grows_follow dir includes source.2 hload
      (fun _ text call _ => load_file depth text call) (by
        rw [henter]
        exact fun p hp => (List.mem_cons.mp hp).elim (· ▸ List.mem_cons_self)
          fun hp => List.mem_cons_of_mem _ (hstack p hp))
    let trees := (follow ctx (load ctx depth (buildFile dir :: stack)) dir (buildFile dir :: stack)
      includes).run source.2
    exact Grows.node (f := ⟨dir, buildFile dir, call, source.1, trees.1.1, none⟩) hgrows rfl rfl
      hnew (normal_buildFile hdir) hfollowed

/-- Only what is not refused is read, so only there the reading matters. -/
theorem follow_congr {load load' : Path → Option String → Option Nat → StateM Found BuildTree}
    (h : ∀ dir text call, dir.Normal → buildFile dir ∉ stack →
      ctx.source.hasFile ctx.disk (buildFile dir) = true → load dir text call = load' dir text call)
    (dir : Path) (is : List Include) :
    follow ctx load dir stack is = follow ctx load' dir stack is := by
  induction is with
  | nil => rfl
  | cons i is ih =>
    funext found
    show (follow ctx load dir stack (i :: is)).run found =
      (follow ctx load' dir stack (i :: is)).run found
    cases hrefusal : refusal? ctx stack found.included i (buildFile (includedDir dir i)) with
    | some problem => rw [follow_run_refused hrefusal, follow_run_refused hrefusal, ih]
    | none =>
      obtain ⟨hnew, -, hthere⟩ := of_refusal?_eq_none hrefusal
      have hload := fun text call =>
        h (includedDir dir i) text call (Path.normal_normalize _) hnew hthere
      rw [follow_run_entered hrefusal, follow_run_entered hrefusal, ih]
      simp only [hload]

/-- Reading ends by itself: a larger bound on the depth changes nothing. -/
theorem load_add (depth more : Nat) (text : Option String) (call : Option Nat)
    (hstacked : ctx.Stacked (buildFile dir :: stack))
    (hdepth : ctx.size ≤ depth + stack.length) :
    load ctx (depth + more) stack dir text call = load ctx depth stack dir text call := by
  induction depth generalizing stack dir text call with
  | zero =>
    have hle := hstacked.length_le
    simp only [List.length_cons] at hle
    omega
  | succ depth ih =>
    have hfollow : ∀ is,
        follow ctx (load ctx (depth + more) (buildFile dir :: stack)) dir
            (buildFile dir :: stack) is =
          follow ctx (load ctx depth (buildFile dir :: stack)) dir (buildFile dir :: stack) is := by
      refine follow_congr (fun dir' text call hdir' hnew hthere => ?_) dir
      exact ih text call (hstacked.cons (normal_buildFile hdir') hnew hthere)
        (by simp only [List.length_cons]; omega)
    rw [show depth + 1 + more = depth + more + 1 by omega]
    simp only [load, hfollow]

end Reading

end BuildTree

namespace Project

open BuildTree (Context Accounted includedDir)

variable {disk : Disk} {source : Source} {root : Path} {text : String}

/-- The root file is listed like every other file of the project. -/
theorem stacked_root (hread : source.read disk (buildFile root.normalize) = .ok text) :
    Context.Stacked ⟨disk, source⟩ [buildFile root.normalize] := by
  have hnone : Context.Stacked ⟨disk, source⟩ [] := ⟨.nil, nofun⟩
  exact hnone.cons (normal_buildFile (Path.normal_normalize root)) nofun
    (Source.hasFile_of_read hread)

/-- Reading a project adds the files of its tree, starting from none. -/
theorem grows_parse (hread : source.read disk (buildFile root.normalize) = .ok text)
    (cache : Cache) :
    let r := (BuildTree.load ⟨disk, source⟩ (Context.size ⟨disk, source⟩) [] root.normalize
      (some text) none).run { cache }
    BuildTree.Grows ⟨disk, source⟩ { cache } [r.1] r.2 ∧
      r.2.included = (r.1.files.map BuildFile.path).reverse := by
  intro r
  have hgrows : BuildTree.Grows ⟨disk, source⟩ { cache } [r.1] r.2 := by
    have hload := BuildTree.grows_load (Context.size ⟨disk, source⟩) none
      (Path.normal_normalize root) (stacked_root hread) (by simp) nofun
      (show buildFile root.normalize ∉ (BuildTree.Found.mk [] cache).included from nofun)
    rw [hread] at hload
    exact hload
  refine ⟨hgrows, ?_⟩
  rw [hgrows.included, BuildTree.subtreesAll_singleton, BuildTree.files, List.map_map,
    List.append_nil]
  rfl

/-- What was read of a project is the files of its tree. -/
theorem grows_of_parse {cache cache' : Cache} {project : Project}
    (h : parse disk source cache root = .ok (project, cache')) :
    ∃ found, BuildTree.Grows ⟨disk, source⟩ { cache } [project.tree] found ∧
      found.included = (project.files.map BuildFile.path).reverse ∧ found.cache = cache' := by
  cases hread : source.read disk (buildFile root.normalize) with
  | error e =>
    rw [parse_eq_error hread] at h
    cases h
  | ok text =>
    rw [parse_eq_ok hread] at h
    cases h
    obtain ⟨hgrows, hincluded⟩ := grows_parse hread cache
    exact ⟨_, hgrows, hincluded, rfl⟩

/-- The files of a project are told apart by their paths, which are their own keys. -/
theorem paths_of_parse {cache cache' : Cache} {project : Project}
    (h : parse disk source cache root = .ok (project, cache')) :
    (project.files.map BuildFile.path).Nodup ∧ ∀ f ∈ project.files, f.path.key = f.path := by
  obtain ⟨found, hgrows, hincluded, -⟩ := grows_of_parse h
  constructor
  · have hnodup := hgrows.nodup .nil
    rw [hincluded, List.nodup_reverse] at hnodup
    exact hnodup
  · intro f hf
    obtain ⟨t, ht, rfl⟩ := List.mem_map.mp hf
    rw [← BuildTree.subtreesAll_singleton] at ht
    exact (hgrows.normal t ht).resolved.key_eq

/-- Every project is put together safely, whatever its files say and however they include each
other: from a root file that can be read, a project is read.

* Reading ends by itself: no larger bound on the depth gives another tree.
* No two files have paths that name the same place.
* In every file that was read, the trees and the problems of its inclusions come in the order of
  the calls, each tree at the path that its call names, and every inclusion is accounted for once.

The cache may hold the tree of any text under any fingerprint, and such a cache is left. -/
theorem parse_assembled {cache : Cache} (hcache : cache.Genuine)
    (hread : source.read disk (buildFile root.normalize) = .ok text) :
    let ctx : Context := ⟨disk, source⟩
    ∃ project cache', parse disk source cache root = .ok (project, cache') ∧ cache'.Genuine ∧
      (∀ more, ((BuildTree.load ctx (ctx.size + more) [] root.normalize (some text) none).run
        { cache }).1 = project.tree) ∧
      (project.files.map (·.path.key)).Nodup ∧
      ∀ t ∈ project.tree.subtrees, ∀ s, t.file.source = some s →
        (t.children.map fun c => (c.file.call, c.file.path)).Sublist
          (s.includes.map fun i => (some i.call, buildFile (includedDir t.file.dir i))) ∧
        (t.file.problems.map (·.span)).Sublist (s.includes.map (·.span)) ∧
        ∀ i ∈ s.includes, Accounted ctx (· ∈ project.files.map (·.path)) t.file.dir
          t.file.problems t.children i := by
  intro ctx
  obtain ⟨hgrows, hincluded⟩ := grows_parse hread cache
  have hparse := parse_eq_ok hread cache
  refine ⟨_, _, hparse, (hgrows.genuine hcache).1, fun more => ?_, ?_, fun t ht s hs => ?_⟩
  · rw [BuildTree.load_add _ more _ _ (stacked_root hread) (by simp [ctx])]
  · obtain ⟨hnodup, hkey⟩ := paths_of_parse hparse
    have hpaths := List.map_congr_left hkey
    rw [hpaths]
    exact hnodup
  · rw [← BuildTree.subtreesAll_singleton] at ht
    obtain ⟨text', rfl⟩ := (hgrows.genuine hcache).2 t ht s hs
    have hfollowed := hgrows.followed t ht _ hs
    simp only [hincluded, List.mem_reverse] at hfollowed
    exact ⟨hfollowed.trees_sublist, hfollowed.problems_sublist,
      hfollowed.accounted (SourceFile.nodup_call_includes text')
        (SourceFile.nodup_span_includes text')⟩

/-- A root file in the editor that includes one directory twice and another one that cannot be
read. The first directory includes the root again. -/
theorem parse_assembled_cycle :
    let disk : Disk := ⟨[(⟨true, ["p", "a", "meson.build"]⟩, .text "subdir('..')\n"),
      (⟨true, ["p", "b", "meson.build"]⟩, .bytes [0xff])]⟩
    let text := "subdir('a')\nsubdir('./a')\nsubdir('/p/b')\n"
    let source : Source := { overrides := [(⟨true, ["p", "meson.build"]⟩, text)] }
    Cache.Genuine {} ∧
      source.read disk (buildFile (Path.normalize ⟨true, ["p", "."]⟩)) = .ok text ∧
      ∃ project cache', parse disk source {} ⟨true, ["p", "."]⟩ = .ok (project, cache') ∧
        (project.files.map (·.path.key)).Nodup ∧
        ∀ t ∈ project.tree.subtrees, ∀ s, t.file.source = some s → ∀ i ∈ s.includes,
          Accounted ⟨disk, source⟩ (· ∈ project.files.map (·.path)) t.file.dir t.file.problems
            t.children i := by
  intro disk text source
  have hread : source.read disk (buildFile (Path.normalize ⟨true, ["p", "."]⟩)) = .ok text := rfl
  obtain ⟨project, cache', hparse, -, -, hnodup, hfollowed⟩ :=
    parse_assembled Cache.genuine_empty hread
  refine ⟨Cache.genuine_empty, hread, project, cache', hparse, hnodup, fun t ht s hs => ?_⟩
  exact (hfollowed t ht s hs).2.2

end Project

end MesonLens
