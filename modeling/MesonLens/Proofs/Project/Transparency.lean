import MesonLens.Proofs.Project.Assembly

/-!
# `MesonLens.Proofs.Project.Transparency`: the cache is transparent

One cache is shared by all that is read, for as long as the server runs. Between two reads of a file
it may be opened and closed, edited and edited back, or forgotten, and projects that hold the file
may be read. `Cache.Call` is one thing that is done with the cache. A project uses the cache once
for each of its files that can be read, so every list of calls comes down to a list of uses:
`Cache.history`.

* `Cache.Call.after_eq_play`: a call leaves the cache that its uses leave;
* `Cache.Faithful.play`: what is kept belongs to texts of the run;
* `Cache.entry?_play`: a file keeps its tree as long as it is not touched, that is neither read
  while it is closed nor forgotten;
* `Cache.transparent`: the cache shows in none of the results.
-/

set_option autoImplicit false

namespace MesonLens

namespace Cache

/-! ### Single uses -/

/-- Paths with one key are the same to the cache. -/
theorem entry?_congr (c : Cache) {p q : Path} (h : p.key = q.key) : c.entry? p = c.entry? q := by
  unfold entry?
  rw [h]

/-- The tree that a closed file is read with is kept for it. -/
theorem entry?_read_self (c : Cache) (p : Path) (text : String) :
    entry? (c.read p text false).2 p =
      some ⟨Digest.ofText text, (c.read p text false).1⟩ := by
  unfold Cache.read
  rw [if_neg Bool.false_ne_true]
  dsimp only
  split
  · next e hhit =>
    -- Nothing new is kept: the entry is there already, with this fingerprint.
    obtain ⟨he, hdigest⟩ := Option.filter_eq_some_iff.mp hhit
    have hsame : e.digest = Digest.ofText text := by simpa using hdigest
    rw [he, ← hsame]
  · simp [ entry?, insert, parse]

/-- A closed file is read with the tree that is kept for it, if this is the one of its text. -/
theorem read_of_kept {c : Cache} {p : Path} {text : String} {parsed : Parsed}
    (h : c.entry? p = some ⟨Digest.ofText text, parsed⟩) : c.read p text false = (parsed, c) := by
  have hhit : (c.entry? p).filter (·.digest == Digest.ofText text) =
      some ⟨Digest.ofText text, parsed⟩ :=
    Option.filter_eq_some_iff.mpr ⟨h, beq_self_eq_true _⟩
  unfold Cache.read
  rw [if_neg Bool.false_ne_true]
  dsimp only
  rw [hhit]

/-- The use replaces or drops what is kept for a path. -/
def Use.Touches (p : Path) : Use → Prop
  | read path _ isOpen => isOpen = false ∧ path.key = p.key
  | evict path => path.key = p.key

/-- A use of another path, or of an open file, leaves what is kept for a path. -/
theorem entry?_after {use : Use} {p : Path} (h : ¬ use.Touches p) (c : Cache) :
    entry? (use.after c) p = c.entry? p := by
  cases use with
  | evict path => exact lookup_filter_of_ne (fun heq => h heq.symm) c.entries
  | read path text isOpen =>
    cases isOpen with
    | true => rfl
    | false =>
      have hkey : p.key ≠ path.key := fun heq => h ⟨rfl, heq.symm⟩
      show entry? (c.read path text false).2 p = c.entry? p
      unfold Cache.read
      rw [if_neg Bool.false_ne_true]
      dsimp only
      split
      · rfl
      · -- The new entry and the one that it replaces are both under the other key.
        have hne : (p.key == path.key) = false := by simpa using hkey
        show ((path.key, _) :: c.entries.filter (·.1 ≠ path.key)).lookup p.key = _
        rw [List.lookup_cons, hne]
        exact lookup_filter_of_ne hkey c.entries

/-! ### Lists of uses -/

theorem entry?_play {uses : List Use} {p : Path} (h : ∀ use ∈ uses, ¬ use.Touches p) (c : Cache) :
    entry? (play uses c) p = c.entry? p := by
  induction uses generalizing c with
  | nil => rfl
  | cons use uses ih =>
    obtain ⟨huse, huses⟩ := List.forall_mem_cons.mp h
    exact (ih huses (use.after c)).trans (entry?_after huse c)

/-- A closed file is read with the tree of the last read, if it has the same text and nothing
touched it in between. -/
theorem read_play_of_untouched (c : Cache) (early : List Use) {mid : List Use} {path path' : Path}
    (text : String) (hkey : path'.key = path.key) (hmid : ∀ use ∈ mid, ¬ use.Touches path) :
    ((play (early ++ .read path' text false :: mid) c).read path text false).1 =
      ((play early c).read path' text false).1 := by
  let last := (play early c).read path' text false
  have hentry : entry? (play (early ++ .read path' text false :: mid) c) path =
      some ⟨Digest.ofText text, last.1⟩ := by
    calc entry? (play (early ++ .read path' text false :: mid) c) path
        = entry? (play mid last.2) path := by rw [play_append]; rfl
      _ = entry? last.2 path := entry?_play hmid last.2
      _ = entry? last.2 path' := entry?_congr last.2 hkey.symm
      _ = some ⟨Digest.ofText text, last.1⟩ := entry?_read_self (play early c) path' text
  rw [read_of_kept hentry]

/-- The texts that are read. -/
def Use.texts (uses : List Use) : Set String :=
  {text | ∃ path isOpen, Use.read path text isOpen ∈ uses}

theorem Use.texts_mono {uses more : List Use} (h : uses ⊆ more) : Use.texts uses ⊆ Use.texts more :=
  fun _ ⟨path, isOpen, hmem⟩ => ⟨path, isOpen, h hmem⟩

theorem Faithful.play {texts : Set String} (hinj : Set.InjOn Digest.ofText texts)
    {uses : List Use} (huses : Use.texts uses ⊆ texts) {c : Cache} (h : c.Faithful texts) :
    (Cache.play uses c).Faithful texts := by
  induction uses generalizing c with
  | nil => exact h
  | cons use uses ih =>
    refine ih ((Use.texts_mono (List.subset_cons_self use uses)).trans huses) ?_
    cases use with
    | evict path => exact h.evict path
    | read path text isOpen => exact (h.read hinj path (huses ⟨path, isOpen, .head _⟩) isOpen).2

/-! ### Calls -/

/-- Something that is done with a cache that all share. -/
inductive Call where
  | use (use : Use)
  /-- A project is read. -/
  | parse (disk : Disk) (source : Source) (root : Path)

/-- The uses of the files of a project. -/
def usesOf (disk : Disk) (source : Source) (project : Project) : List Use :=
  project.tree.subtrees.filterMap fun t => BuildTree.Context.use? ⟨disk, source⟩ t.file.path

theorem mem_usesOf {disk : Disk} {source : Source} {project : Project} {f : BuildFile}
    {text : String} (hf : f ∈ project.files) (hread : source.read disk f.path = .ok text) :
    Use.read f.path text (source.isOpen f.path) ∈ usesOf disk source project := by
  obtain ⟨t, ht, rfl⟩ := List.mem_map.mp hf
  refine List.mem_filterMap.mpr ⟨t, ht, ?_⟩
  simp [BuildTree.Context.use?, hread, Except.toOption]

/-- The cache that a call leaves. -/
def Call.after (c : Cache) : Call → Cache
  | use u => u.after c
  | parse disk source root =>
    match Project.parse disk source c root with
    | .ok (_, c') => c'
    | .error _ => c

/-- How a call uses the cache. -/
def Call.uses (c : Cache) : Call → List Use
  | use u => [u]
  | parse disk source root =>
    match Project.parse disk source c root with
    | .ok (project, _) => usesOf disk source project
    | .error _ => []

theorem Call.after_eq_play (c : Cache) (call : Call) : call.after c = play (call.uses c) c := by
  cases call with
  | use u => rfl
  | parse disk source root =>
    simp only [Call.after, Call.uses]
    cases hparse : Project.parse disk source c root with
    | error e => rfl
    | ok read =>
      obtain ⟨project, c'⟩ := read
      obtain ⟨found, hgrows, -, hcache⟩ := Project.grows_of_parse hparse
      rw [← hcache, hgrows.cache, BuildTree.subtreesAll_singleton]
      rfl

/-- The cache that several calls leave. -/
def run (calls : List Call) (c : Cache) : Cache := calls.foldl Call.after c

/-- How several calls use the cache. -/
def history : List Call → Cache → List Use
  | [], _ => []
  | call :: calls, c => call.uses c ++ history calls (call.after c)

theorem history_append (calls more : List Call) (c : Cache) :
    history (calls ++ more) c = history calls c ++ history more (run calls c) := by
  induction calls generalizing c with
  | nil => rfl
  | cons call calls ih =>
    rw [List.cons_append, history, history, ih, List.append_assoc]
    rfl

/-- Calls leave the cache that their uses leave. -/
theorem run_eq_play (calls : List Call) (c : Cache) : run calls c = play (history calls c) c := by
  induction calls generalizing c with
  | nil => rfl
  | cons call calls ih =>
    rw [history, play_append, ← Call.after_eq_play]
    exact ih (call.after c)

/-- The cache is transparent. Take any calls from an empty cache, and assume that the texts that are
read differ in their fingerprints. Every call finds the cache that the uses before it have left, and
uses it in its turn. For every use, in a call of its own or for a file of a project:

* reading a file gives the tree of its text;
* reading an open file leaves all that is kept;
* reading a closed file gives the same parse as the last use that touched the path, if that one was
  a read with the same text.

And every project is the one that is read with an empty cache. -/
theorem transparent (calls : List Call)
    (hinj : Set.InjOn Digest.ofText (Use.texts (history calls {}))) :
    (∀ before call after, calls = before ++ call :: after →
      run before {} = play (history before {}) {} ∧
        history before {} ++ call.uses (run before {}) <+: history calls {}) ∧
    (∀ before path text isOpen after,
      history calls {} = before ++ .read path text isOpen :: after →
      let cache := play before {}
      (cache.read path text isOpen).1.file = SourceFile.parse text ∧
        (isOpen = true → (cache.read path text isOpen).2.entries = cache.entries) ∧
        (isOpen = false → ∀ early path' mid, before = early ++ .read path' text false :: mid →
          path'.key = path.key → (∀ use ∈ mid, ¬ use.Touches path) →
          (cache.read path text isOpen).1 = ((play early {}).read path' text false).1)) ∧
    ∀ before disk source root after, calls = before ++ .parse disk source root :: after →
      (Project.parse disk source (run before {}) root).map Prod.fst =
        (Project.parse disk source {} root).map Prod.fst := by
  -- Whatever was done so far, what is kept belongs to texts of the run.
  have hfaithful : ∀ uses, uses ⊆ history calls {} →
      (play uses {}).Faithful (Use.texts (history calls {})) :=
    fun uses hsubset => faithful_empty.play hinj (Use.texts_mono hsubset)
  have hinitial : ∀ before call after, calls = before ++ call :: after →
      history before {} ++ call.uses (run before {}) <+: history calls {} := by
    intro before call after hcalls
    rw [hcalls, history_append, history, ← List.append_assoc]
    exact List.prefix_append _ _
  refine ⟨fun before call after hcalls => ?_, ?_, ?_⟩
  · exact ⟨run_eq_play before {}, hinitial before call after hcalls⟩
  · intro before path text isOpen after hsplit cache
    have htext : text ∈ Use.texts (history calls {}) := ⟨path, isOpen, by simp [hsplit]⟩
    have hcache : cache.Faithful _ := hfaithful before (by simp [hsplit])
    refine ⟨(hcache.read hinj path htext isOpen).1, ?_, ?_⟩
    · rintro rfl
      rfl
    · rintro rfl early path' mid rfl hkey hmid
      exact read_play_of_untouched {} early text hkey hmid
  · intro before disk source root after hcalls
    have hsubset := (hinitial before _ after hcalls).subset
    have hcache : (run before {}).Faithful (Use.texts (history calls {})) := by
      rw [run_eq_play]
      exact hfaithful _ (List.Subset.trans (List.subset_append_left _ _) hsubset)
    refine (Project.parse_faithful hinj hcache root ?_).1
    intro project cache' hparse f hf text hread
    refine ⟨f.path, source.isOpen f.path, hsubset (List.mem_append_right _ ?_)⟩
    simp only [Call.uses, hparse]
    exact mem_usesOf hf hread

/-- A file is read, read with another text while it is open, read as part of a project, and read
once more under another spelling of its path. There are two parses. -/
theorem transparent_edit :
    let path : Path := ⟨true, ["p", "meson.build"]⟩
    let source : Source := { overrides := [(path, "x = 1\n")] }
    let first : List Use := [.read path "x = 1\n" false, .read path "x = 2\n" true]
    let calls : List Call := first.map .use ++ [.parse {} source ⟨true, ["p"]⟩,
      .use (.read ⟨true, ["p", ".", "meson.build"]⟩ "x = 1\n" false)]
    Set.InjOn Digest.ofText (Use.texts (history calls {})) ∧
      (run calls {}).parses = 2 ∧
      ((run (calls.take 3) {}).read ⟨true, ["p", ".", "meson.build"]⟩ "x = 1\n" false).1 =
        ((play first {}).read path "x = 1\n" false).1 := by
  intro path source first calls
  have hhistory : history calls {} = first ++ [.read path "x = 1\n" false,
      .read ⟨true, ["p", ".", "meson.build"]⟩ "x = 1\n" false] := by
    decide +kernel
  have hinj : Set.InjOn Digest.ofText (Use.texts (history calls {})) := by
    have htexts : ∀ t ∈ Use.texts (history calls {}), t = "x = 1\n" ∨ t = "x = 2\n" := by
      rintro t ⟨p, isOpen, hmem⟩
      rw [hhistory] at hmem
      simp only [first, List.cons_append, List.nil_append, List.mem_cons, Use.read.injEq,
        List.not_mem_nil, or_false] at hmem
      rcases hmem with ⟨-, rfl, -⟩ | ⟨-, rfl, -⟩ | ⟨-, rfl, -⟩ | ⟨-, rfl, -⟩ <;> simp
    have hdiffer : Digest.ofText "x = 1\n" ≠ Digest.ofText "x = 2\n" := by decide +kernel
    intro s hs t ht hdigest
    rcases htexts s hs with rfl | rfl <;> rcases htexts t ht with rfl | rfl
    · rfl
    · exact absurd hdigest hdiffer
    · exact absurd hdigest.symm hdiffer
    · rfl
  have hbefore : history (calls.take 3) {} = first ++ [.read path "x = 1\n" false] := by
    decide +kernel
  obtain ⟨hcalls, huses, -⟩ := transparent calls hinj
  refine ⟨hinj, by decide +kernel, ?_⟩
  rw [(hcalls (calls.take 3) _ [] rfl).1, hbefore]
  -- The last use that touched the path is the one of the project.
  refine (huses _ _ _ false [] ?_).2.2 rfl first path [] rfl (by decide) nofun
  rw [hhistory]
  rfl

end Cache

end MesonLens
