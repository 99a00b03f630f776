import Mathlib.Data.Set.Function
import MesonLens.Project.Basic

/-!
# `MesonLens.Proofs.Project.Loading`: the cache does not show in a project

A project is read by way of a cache, which gives the tree of a text by its fingerprint. As
long as no two of the texts have one fingerprint, the project is the one that is read with
an empty cache.

* `Cache.Faithful`: every tree of the cache is the one of its text; reading a file by way of
  such a cache parses its text (`Cache.Faithful.read`), and leaves such a cache behind;
* `BuildTree.Steady`: a step of reading that a faithful cache does not show in; `steady_load`
  says so of reading a file and all that it includes;
* `Project.parse_faithful`: the project itself. Only the texts of its files need to differ in their
  fingerprints, so `Steady` asks for this of what the step gives and not beforehand.

A cache may keep a tree that was read for an older text of a file, and a rebuild that was
given up leaves its trees there. So `Faithful` says nothing about which file an entry is for:
an entry belongs to some text of the run, and this is all that reading relies on.
-/

set_option autoImplicit false

namespace MesonLens

namespace Cache

/-- Every tree that is kept is the one of some text, under the fingerprint of the text. -/
def Faithful (texts : Set String) (c : Cache) : Prop :=
  ∀ entry ∈ c.entries, ∃ text ∈ texts,
    entry.2.digest = Digest.ofText text ∧ entry.2.parsed.file = SourceFile.parse text

variable {texts : Set String} {c : Cache}

theorem faithful_empty : ({} : Cache).Faithful texts := by
  simp [Faithful]

theorem Faithful.evict (h : c.Faithful texts) (p : Path) : (c.evict p).Faithful texts :=
  fun entry hentry => h entry ((List.mem_filter.mp hentry).1)

theorem Faithful.parse (h : c.Faithful texts) (text : String) : (c.parse text).2.Faithful texts :=
  h

theorem Faithful.insert (h : c.Faithful texts) (p : Path) {e : CacheEntry} {text : String}
    (htext : text ∈ texts) (hdigest : e.digest = Digest.ofText text)
    (hfile : e.parsed.file = SourceFile.parse text) : (c.insert p e).Faithful texts := by
  intro entry hentry
  rcases List.mem_cons.mp hentry with rfl | hkept
  · exact ⟨text, htext, hdigest, hfile⟩
  · exact h entry ((List.mem_filter.mp hkept).1)

/-- What is kept for a path is one of the entries. -/
theorem Faithful.of_kept (h : c.Faithful texts) {p : Path} {e : CacheEntry}
    (he : c.entry? p = some e) :
    ∃ text ∈ texts, e.digest = Digest.ofText text ∧ e.parsed.file = SourceFile.parse text := by
  obtain ⟨before, after, hsplit, -⟩ := List.lookup_eq_some_iff.mp he
  exact h (p.key, e) (by simp [hsplit])

/-- Reading a file by way of a faithful cache parses its text, and the cache stays faithful.
The fingerprints of the texts are to be different. -/
theorem Faithful.read (hinj : Set.InjOn Digest.ofText texts) (h : c.Faithful texts) (p : Path)
    {text : String} (htext : text ∈ texts) (isOpen : Bool) :
    (c.read p text isOpen).1.file = SourceFile.parse text ∧
      (c.read p text isOpen).2.Faithful texts := by
  unfold Cache.read
  split
  · exact ⟨rfl, h.parse text⟩
  · dsimp only
    split
    · next e hhit =>
      obtain ⟨he, hdigest⟩ := Option.filter_eq_some_iff.mp hhit
      obtain ⟨old, hold, holdDigest, hfile⟩ := h.of_kept he
      -- The entry may be older than this read, but equal fingerprints mean equal texts.
      have hsame : old = text := hinj hold htext (by rw [← holdDigest]; simpa using hdigest)
      exact ⟨hsame ▸ hfile, h⟩
    · exact ⟨rfl, (h.parse text).insert p htext rfl rfl⟩

/-- Something that is asked of a cache. -/
inductive Use where
  | read (path : Path) (text : String) (isOpen : Bool)
  | evict (path : Path)
  deriving DecidableEq

/-- The cache that a use leaves. -/
def Use.after (c : Cache) : Use → Cache
  | read path text isOpen => (c.read path text isOpen).2
  | evict path => c.evict path

/-- The cache that several uses leave. -/
def play (uses : List Use) (c : Cache) : Cache := uses.foldl Use.after c

theorem play_append (uses more : List Use) (c : Cache) :
    play (uses ++ more) c = play more (play uses c) := List.foldl_append

end Cache

/-- What is read of a file that is there is a text that the editor holds or one of the disk. -/
theorem Source.mem_of_read {s : Source} {disk : Disk} {texts : Set String}
    (hheld : ∀ o ∈ s.overrides, o.2 ∈ texts)
    (hdisk : ∀ p text, disk.read p = .ok text → text ∈ texts)
    {p : Path} {text : String} (hread : s.read disk p = .ok text) : text ∈ texts := by
  unfold Source.read at hread
  split at hread
  · next held hoverride =>
    obtain ⟨before, after, hsplit, -⟩ := List.lookup_eq_some_iff.mp hoverride
    cases hread
    exact hheld (p.key, text) (by simp [hsplit])
  · cases hread' : disk.read p with
    | error e => simp [hread', Except.mapError] at hread
    | ok found =>
      rw [hread'] at hread
      cases hread
      exact hdisk p text hread'

namespace BuildTree

section Steady

variable {texts : Set String} {α β : Type}

/-- The same files were met, and both caches are faithful. -/
structure Found.Alike (texts : Set String) (a b : Found) : Prop where
  included : a.included = b.included
  left : a.cache.Faithful texts
  right : b.cache.Faithful texts

/-- A step of reading gives the same from any two faithful caches, when `Q` holds of what it
gives. -/
def Steady (texts : Set String) (m : StateM Found α) (Q : α → Prop) : Prop :=
  ∀ a b, Found.Alike texts a b → Q (m.run a).1 →
    (m.run a).1 = (m.run b).1 ∧ Found.Alike texts (m.run a).2 (m.run b).2

variable {P : α → Prop} {Q : β → Prop}

theorem Steady.pure (x : β) : Steady texts (pure x : StateM Found β) Q :=
  fun _ _ h _ => ⟨rfl, h⟩

/-- Two steps one after the other. What the second gives is to tell enough of the first. -/
theorem Steady.bind {m : StateM Found α} {k : α → StateM Found β} (hm : Steady texts m P)
    (hk : ∀ x, Steady texts (k x) Q) (hP : ∀ x s, Q ((k x).run s).1 → P x) :
    Steady texts (m >>= k) Q := by
  intro a b h hQ
  obtain ⟨hvalue, hfound⟩ := hm a b h (hP _ _ hQ)
  have hleft : (m >>= k).run a = (k (m.run b).1).run (m.run a).2 := by
    rw [← hvalue]
    rfl
  rw [hleft] at hQ ⊢
  exact hk (m.run b).1 _ _ hfound hQ

/-- A step may look at the files that were met. -/
theorem Steady.bind_get {k : Found → StateM Found β}
    (hsame : ∀ a b : Found, a.included = b.included → k a = k b)
    (hk : ∀ a, Steady texts (k a) Q) : Steady texts (get >>= k) Q := by
  intro a b h hQ
  have hleft : (get >>= k).run a = (k b).run a := by
    rw [← hsame a b h.included]
    rfl
  rw [hleft] at hQ ⊢
  exact hk b a b h hQ

theorem steady_parseText (hinj : Set.InjOn Digest.ofText texts) (ctx : Context) (p : Path)
    (text : String) : Steady texts (parseText ctx p text) fun _ => text ∈ texts := by
  intro a b h htext
  obtain ⟨hleft, hleft'⟩ := h.left.read hinj p htext (ctx.source.isOpen p)
  obtain ⟨hright, hright'⟩ := h.right.read hinj p htext (ctx.source.isOpen p)
  exact ⟨hleft.trans hright.symm, h.included, hleft', hright'⟩

/-- Taking a file into the tree is steady. -/
theorem steady_enter (hinj : Set.InjOn Digest.ofText texts) (ctx : Context) (p : Path)
    (text : Option String) :
    Steady texts (enter ctx p text) fun _ => ∀ t ∈ text, t ∈ texts := by
  have hsource : Steady texts (text.mapM (parseText ctx p)) fun _ => ∀ t ∈ text, t ∈ texts := by
    cases text with
    | none => exact .pure _
    | some t =>
      exact (steady_parseText hinj ctx p t).bind (fun _ => .pure _) fun _ _ h => h t rfl
  have hmark : Steady texts
      (modify fun found : Found => { found with included := p :: found.included })
      fun _ => True :=
    fun _ _ h _ => ⟨rfl, congrArg (p :: ·) h.included, h.left, h.right⟩
  refine hsource.bind (fun _ => hmark.bind (fun _ => .pure _) fun _ _ _ => trivial) ?_
  exact fun _ _ h => h

/-- The texts of the files of some trees are among the texts. -/
def Context.Told (ctx : Context) (texts : Set String) (ts : List BuildTree) : Prop :=
  ∀ t ∈ subtreesAll ts, ∀ text, ctx.source.read ctx.disk t.file.path = .ok text → text ∈ texts

theorem Context.Told.head {ctx : Context} {t : BuildTree} {ts : List BuildTree}
    (h : ctx.Told texts (t :: ts)) : ctx.Told texts [t] := by
  intro u hu
  simp only [subtreesAll, List.append_nil] at hu
  exact h u (List.mem_append_left _ hu)

theorem Context.Told.tail {ctx : Context} {t : BuildTree} {ts : List BuildTree}
    (h : ctx.Told texts (t :: ts)) : ctx.Told texts ts :=
  fun u hu => h u (List.mem_append_right _ hu)

theorem Context.Told.children {ctx : Context} {f : BuildFile} {ts : List BuildTree}
    (h : ctx.Told texts [node f ts]) : ctx.Told texts ts := by
  intro u hu
  refine h u ?_
  simp only [subtreesAll, subtrees, List.append_nil]
  exact List.mem_cons_of_mem _ hu

theorem Context.Told.self {ctx : Context} {t : BuildTree} (h : ctx.Told texts [t]) :
    ∀ text ∈ (ctx.source.read ctx.disk t.file.path).toOption, text ∈ texts := by
  intro text htext
  obtain ⟨f, ts⟩ := t
  refine h (node f ts) (by simp [subtreesAll, subtrees]) text ?_
  cases hread : ctx.source.read ctx.disk (node f ts).file.path with
  | error e => simp [hread, Except.toOption] at htext
  | ok found =>
    rw [hread] at htext
    cases htext
    rfl

/-- Following inclusions is steady when reading each included file is. -/
theorem steady_follow (ctx : Context)
    {load : Path → Option String → Option Nat → StateM Found BuildTree} (dir : Path)
    (stack : List Path)
    (hload : ∀ (child : Path) (call : Option Nat),
      Steady texts (load child (ctx.source.read ctx.disk (buildFile child)).toOption call)
        fun t => ctx.Told texts [t])
    (is : List Include) :
    Steady texts (follow ctx load dir stack is) fun r => ctx.Told texts r.2 := by
  induction is with
  | nil => exact .pure _
  | cons i rest ih =>
    refine Steady.bind_get (fun a b h => by rw [h]) fun found => ?_
    split
    · exact ih.bind (fun _ => .pure _) fun _ _ h => h
    · have hchild := hload (includedDir dir i) (some i.call)
      -- The tree of the file is the first of those that are left, whether it was read or not.
      generalize ctx.source.read ctx.disk (buildFile (includedDir dir i)) = text at hchild ⊢
      cases text with
      | ok text =>
        refine hchild.bind (fun _ => ih.bind (fun _ => .pure _) fun _ _ h => ?_) fun _ _ h => ?_
        · exact Context.Told.tail h
        · exact Context.Told.head h
      | error e =>
        refine hchild.bind (fun _ => ih.bind (fun _ => .pure _) fun _ _ h => ?_) fun _ _ h => ?_
        · exact Context.Told.tail h
        · exact Context.Told.head h

/-- Reading a file and all that it includes is steady. -/
theorem steady_load (hinj : Set.InjOn Digest.ofText texts) (ctx : Context) (depth : Nat)
    (stack : List Path) (dir : Path) (call : Option Nat) :
    Steady texts (load ctx depth stack dir (ctx.source.read ctx.disk (buildFile dir)).toOption call)
      fun t => ctx.Told texts [t] := by
  induction depth generalizing stack dir call with
  | zero => exact (steady_enter hinj ctx _ _).bind (fun _ => .pure _) fun _ _ h => h.self
  | succ depth ih =>
    refine (steady_enter hinj ctx _ _).bind (fun source => ?_) fun _ _ h => h.self
    refine (steady_follow ctx dir _ (fun child call => ih _ child call) _).bind
      (fun _ => .pure _) fun _ _ h => h.children

end Steady

end BuildTree

namespace Project

/-- The project that is read from nothing and analyzed. -/
def fresh (disk : Disk) (c : Catalog) (source : Source) (root : Path) : Except NoProject Project :=
  (parse disk source {} root).map fun read => read.1.analyze c

/-- A project that was read, from the read as an option. -/
theorem ok_of_toOption {result : Except NoProject (Project × Cache)}
    {read : Project × Cache} (h : result.toOption = some read) : result = .ok (read.1, read.2) := by
  cases result with
  | error e => cases h
  | ok read =>
    cases h
    rfl

theorem parse_eq_error {disk : Disk} {source : Source} {root : Path} {e : ReadError}
    (hread : source.read disk (buildFile root.normalize) = .error e) (cache : Cache) :
    parse disk source cache root = .error ⟨root.normalize, e⟩ := by
  unfold parse
  dsimp only
  rw [hread]
  rfl

theorem parse_eq_ok {disk : Disk} {source : Source} {root : Path} {text : String}
    (hread : source.read disk (buildFile root.normalize) = .ok text) (cache : Cache) :
    parse disk source cache root =
      let read := (BuildTree.load ⟨disk, source⟩ (BuildTree.Context.size ⟨disk, source⟩) []
        root.normalize (some text) none).run { cache }
      .ok ({ root := root.normalize, tree := read.1 }, read.2.cache) := by
  unfold parse
  dsimp only
  rw [hread]
  rfl

/-- What is read by way of a faithful cache is what is read with an empty one, and the cache
stays faithful. Only the texts of the files that are read matter. -/
theorem parse_faithful {texts : Set String} (hinj : Set.InjOn Digest.ofText texts) {disk : Disk}
    {source : Source} {cache : Cache} (hcache : cache.Faithful texts) (root : Path)
    (htexts : ∀ p c, parse disk source cache root = .ok (p, c) →
      ∀ f ∈ p.files, ∀ text, source.read disk f.path = .ok text → text ∈ texts) :
    (parse disk source cache root).map Prod.fst = (parse disk source {} root).map Prod.fst ∧
      ∀ p c, parse disk source cache root = .ok (p, c) → c.Faithful texts := by
  cases hread : source.read disk (buildFile root.normalize) with
  | error e =>
    rw [parse_eq_error hread, parse_eq_error hread]
    exact ⟨rfl, nofun⟩
  | ok text =>
    have hload := BuildTree.steady_load hinj ⟨disk, source⟩
      (BuildTree.Context.size ⟨disk, source⟩) [] root.normalize none { cache } {}
      ⟨rfl, hcache, Cache.faithful_empty⟩
    rw [show (source.read disk (buildFile root.normalize)).toOption = some text by rw [hread]; rfl]
      at hload
    obtain ⟨htree, hfound⟩ := hload fun t ht => by
      refine htexts _ _ (parse_eq_ok hread cache) t.file (List.mem_map_of_mem ?_)
      simpa [BuildTree.subtreesAll] using ht
    rw [parse_eq_ok hread, parse_eq_ok hread]
    refine ⟨congrArg (fun tree => Except.ok (Project.mk root.normalize tree false)) htree, ?_⟩
    intro p c hparse
    cases hparse
    exact hfound.left

theorem parse_cache {texts : Set String} (hinj : Set.InjOn Digest.ofText texts) {disk : Disk}
    {source : Source} (htexts : ∀ p text, source.read disk p = .ok text → text ∈ texts)
    {cache : Cache} (hcache : cache.Faithful texts) (root : Path) :
    (parse disk source cache root).map Prod.fst = (parse disk source {} root).map Prod.fst ∧
      ∀ p c, parse disk source cache root = .ok (p, c) → c.Faithful texts :=
  parse_faithful hinj hcache root fun _ _ _ f _ text => htexts f.path text

end Project

end MesonLens
