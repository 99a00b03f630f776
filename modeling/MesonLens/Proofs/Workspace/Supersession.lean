import MesonLens.Proofs.Project.Loading
import MesonLens.Workspace.Run

/-!
# `MesonLens.Proofs.Workspace.Supersession`: only a rebuild for the last change shows anything

Changes and the moves of any number of rebuilds may come in any order. A rebuild looks at the
generation several times, and a change may come right after it has looked: it may read files
that are newer than the change it is for. What it has found is then never shown, since the
generation is looked at once more when it is.

`Flight.Sound` is the invariant of a rebuild under way. It speaks about what was read only as
long as there is no later change: a change makes it say nothing about the results, and no
other action changes the files. `Run.Sound` adds what is kept about the whole run, and
`sound_ofActions` proves it for every sequence of actions.

`committed_eq_fresh` is the main result. The disk is fixed, and the fingerprints of the texts
of the run are different, so that the cache does not show (`Project.parse_cache`).
-/

set_option autoImplicit false

namespace MesonLens

/-- The text that a change brings. -/
def Signal.text? : Signal → Option String
  | opened _ text | changed _ text => some text
  | _ => none

theorem Attempt.eq_ended {a : Attempt} {o : Outcome} (h : a.outcome? = some o) : a = .ended o := by
  cases a with
  | ended o' => cases h; rfl
  | _ => cases h

namespace Workspace

/-- The root, the files and the generation are the same. -/
structure SameFiles (w w' : Workspace) : Prop where
  root : w'.root = w.root
  source : w'.source = w.source
  generation : w'.generation = w.generation

/-- The editor is shown the same. -/
structure SameShown (w w' : Workspace) : Prop where
  project : w'.project = w.project
  published : w'.published = w.published
  committed : w'.committed = w.committed

theorem SameFiles.refl (w : Workspace) : SameFiles w w := ⟨rfl, rfl, rfl⟩

theorem SameShown.refl (w : Workspace) : SameShown w w := ⟨rfl, rfl, rfl⟩

/-! ### Changes -/

/-- What a change does to the files depends on the files only. -/
theorem source_record_congr {w w' : Workspace} (h : w.source = w'.source) (s : Signal) :
    (w.record s).source = (w'.record s).source := by
  cases s with
  | deleted paths =>
    simp only [record]
    induction paths generalizing w w' with
    | nil => exact h
    | cons p rest ih => exact ih (by simp only [forget, h])
  | _ => simp only [record, h]

/-- The parts of a workspace that no change touches. -/
theorem record_eq (w : Workspace) (s : Signal) :
    (w.record s).root = w.root ∧ SameShown w (w.record s) := by
  cases s with
  | deleted paths =>
    simp only [record]
    induction paths generalizing w with
    | nil => exact ⟨rfl, .refl w⟩
    | cons p rest ih =>
      obtain ⟨hroot, hshown⟩ := ih (w.forget p)
      exact ⟨hroot, hshown.project, hshown.published, hshown.committed⟩
  | _ => exact ⟨rfl, rfl, rfl, rfl⟩

/-- A change keeps the cache faithful, and the editor holds no text but those of the changes. -/
theorem faithful_record {w : Workspace} {texts : Set String} (hcache : w.cache.Faithful texts)
    (hheld : ∀ o ∈ w.source.overrides, o.2 ∈ texts) {s : Signal} (hs : ∀ t ∈ s.text?, t ∈ texts) :
    (w.record s).cache.Faithful texts ∧ ∀ o ∈ (w.record s).source.overrides, o.2 ∈ texts := by
  have hset : ∀ p : Path, ∀ text ∈ texts,
      ∀ o ∈ (w.source.setOverride p text).overrides, o.2 ∈ texts := by
    intro p text htext o ho
    rcases List.mem_cons.mp ho with rfl | ho
    · exact htext
    · exact hheld o (List.mem_filter.mp ho).1
  have hremove : ∀ p : Path, ∀ o ∈ (w.source.removeOverride p).overrides, o.2 ∈ texts :=
    fun p o ho => hheld o (List.mem_filter.mp ho).1
  cases s with
  | opened path text => exact ⟨hcache, hset path text (hs text rfl)⟩
  | changed path text => exact ⟨hcache, hset path text (hs text rfl)⟩
  | saved path => exact ⟨hcache, hremove path⟩
  | closed path => exact ⟨hcache, hremove path⟩
  | created paths => exact ⟨hcache, hheld⟩
  | reload => exact ⟨hcache, hheld⟩
  | deleted paths =>
    -- Each deleted path is dropped from what is held and from the cache.
    clear hset hremove hs
    simp only [record]
    induction paths generalizing w with
    | nil => exact ⟨hcache, hheld⟩
    | cons p rest ih =>
      exact ih (hcache.evict p) fun o ho => hheld o (List.mem_filter.mp ho).1

end Workspace

namespace Flight

open Workspace

/-- What a rebuild has found is right, as long as there was no later change. -/
structure Sound (disk : Disk) (c : Catalog) (w : Workspace) (f : Flight) : Prop where
  le : f.generation ≤ w.generation
  /-- While it goes on, a rebuild knows its generation. -/
  going : f.attempt.outcome? = none → f.attempt.generation? = some f.generation
  parsed : ∀ g result, f.attempt = .parsed g result → g = w.generation →
    (Project.parse disk w.source {} w.root).map Prod.fst = result
  analyzed : ∀ g project, f.attempt = .analyzed g project → g = w.generation →
    Project.fresh disk c w.source w.root = .ok project

variable {disk : Disk} {c : Catalog} {w w' : Workspace} {f : Flight}

theorem sound_start {g : Nat} (hg : g ≤ w.generation) : Sound disk c w { generation := g } :=
  ⟨hg, fun _ => rfl, nofun, nofun⟩

/-- Other rebuilds do not disturb what a rebuild has found. -/
theorem Sound.sameFiles (h : Sound disk c w f) (hw : SameFiles w w') : Sound disk c w' f := by
  obtain ⟨hroot, hsource, hgeneration⟩ := hw
  refine ⟨hgeneration ▸ h.le, h.going, ?_, ?_⟩
  · rw [hroot, hsource, hgeneration]
    exact h.parsed
  · rw [hroot, hsource, hgeneration]
    exact h.analyzed

/-- After a change nothing is said about what a rebuild has found. -/
theorem Sound.apply (h : Sound disk c w f) (s : Signal) : Sound disk c (w.apply s) f := by
  have hlater : ∀ g, f.attempt.generation? = some g → g ≠ (w.apply s).generation := by
    intro g hg heq
    have hgoing : f.attempt.outcome? = none := by
      cases hf : f.attempt with
      | ended o => simp [hf, Attempt.generation?] at hg
      | _ => rfl
    have hself : f.generation = g := Option.some.inj ((h.going hgoing).symm.trans hg)
    have hle := h.le
    have hnew : (w.apply s).generation = w.generation + 1 := rfl
    omega
  refine ⟨Nat.le_succ_of_le h.le, h.going, fun g result hf hg => ?_, fun g project hf hg => ?_⟩
  · exact absurd hg (hlater g (by rw [hf]; rfl))
  · exact absurd hg (hlater g (by rw [hf]; rfl))

/-- A rebuild that has looked, and goes on before any change, makes the step of `Attempt.step`. -/
theorem next_eq_step (hgoing : f.attempt.generation? = some f.generation)
    (hlast : f.generation = w.generation) (hchecked : f.checked = true) :
    f.next disk c w = (f.attempt.step disk c w, false) := by
  have hstep : f.attempt.step disk c w = f.attempt.advance disk c w := by
    rw [Attempt.step, hgoing]
    exact if_pos hlast
  rw [next, if_neg (by rw [hchecked]; decide), hstep, ite_self]

/-- What the next move of a rebuild under way can be. It looks at the generation; it finds out
that there is a later change; it goes through a phase, whatever changes came since it looked;
or it shows what it has found, and then there is no later change. -/
theorem next_cases (hgoing : f.attempt.generation? = some f.generation) (disk : Disk)
    (c : Catalog) (w : Workspace) :
    f.next disk c w = (⟨w, f.attempt, []⟩, true) ∨
    f.next disk c w = (⟨w, .ended .superseded, []⟩, false) ∨
    (f.next disk c w = (f.attempt.advance disk c w, false) ∧
      (f.attempt.isReady = true → f.generation = w.generation)) := by
  unfold next
  split
  · split
    · exact .inl rfl
    · exact .inr (.inl rfl)
  · split
    · next hready =>
      rw [Attempt.step, hgoing]
      dsimp only
      split
      · next hlast => exact .inr (.inr ⟨rfl, fun _ => hlast⟩)
      · exact .inr (.inl rfl)
    · next hready => exact .inr (.inr ⟨rfl, fun h => absurd h hready⟩)

end Flight

namespace Move

open Workspace

/-- What is known of every move of a run. -/
structure Sound (disk : Disk) (c : Catalog) (m : Move) : Prop where
  sameFiles : SameFiles m.before m.after
  /-- A rebuild that does not show what it has found changes nothing that is shown. -/
  quiet : m.outcome? = none ∨ m.outcome? = some .superseded → SameShown m.before m.after ∧
    ∀ n ∈ m.notices, ∃ phase, n = .finished m.generation phase
  /-- A rebuild that shows a project is for the last change, and shows the fresh project. -/
  committed : ∀ g, m.outcome? = some (.committed g) →
    g = m.generation ∧ g = m.before.generation ∧ ∃ project,
      Project.fresh disk c m.before.source m.before.root = .ok project ∧
        (m.after, m.notices) = m.before.publish g project
  failed : m.outcome? = some .failed → m.after.committed = m.before.committed

/-- A move leaves the committed generation as it is, or sets it to the last one. -/
theorem Sound.committed_cases {disk : Disk} {c : Catalog} {m : Move} (h : m.Sound disk c) :
    (m.committed? = none ∧ m.after.committed = m.before.committed) ∨
    (m.committed? = some m.before.generation ∧ m.after.committed = m.before.generation) := by
  unfold committed?
  cases ho : m.outcome? with
  | none => exact .inl ⟨rfl, (h.quiet (.inl ho)).1.committed⟩
  | some o =>
    cases o with
    | superseded => exact .inl ⟨rfl, (h.quiet (.inr ho)).1.committed⟩
    | failed => exact .inl ⟨rfl, h.failed ho⟩
    | committed g =>
      obtain ⟨-, rfl, project, -, hpublish⟩ := h.committed g ho
      exact .inr ⟨rfl, congrArg (fun shown => shown.1.committed) hpublish⟩

end Move

namespace Flight

open Workspace

variable {disk : Disk} {c : Catalog} {w : Workspace} {f : Flight} {texts : Set String}

/-- A rebuild `f` becomes `f'` by a sound move, and leaves a faithful cache behind. -/
structure Moves (disk : Disk) (c : Catalog) (texts : Set String) (w : Workspace) (f' : Flight)
    (m : Move) : Prop where
  move : m.Sound disk c
  flight : f'.Sound disk c w
  cache : m.after.cache.Faithful texts

/-- Reading the files. A later change may have come, and then nothing is claimed of what was
read. -/
theorem Sound.moves_waiting (h : f.Sound disk c w) (hf : f.attempt = .waiting f.generation)
    (hinj : Set.InjOn Digest.ofText texts) (hcache : w.cache.Faithful texts)
    (htexts : ∀ p text, w.source.read disk p = .ok text → text ∈ texts) (i : Nat) :
    let s := f.attempt.advance disk c w
    Moves disk c texts w { f with attempt := s.attempt, checked := false }
      ⟨i, f.generation, w, s.workspace, s.notices, s.attempt.outcome?⟩ := by
  obtain ⟨hsame, hkept⟩ := Project.parse_cache hinj htexts hcache w.root
  -- What is read from the cache is what would be read without it, so the invariant holds of the
  -- result, whether it is a project or not.
  have hfound : ∀ result, (Project.parse disk w.source w.cache w.root).map Prod.fst = result →
      Sound disk c w { f with attempt := .parsed f.generation result, checked := false } := by
    intro result hresult
    refine ⟨h.le, fun _ => rfl, fun g r hg _ => ?_, nofun⟩
    cases hg
    exact hsame.symm.trans hresult
  rw [hf]
  unfold Attempt.advance
  cases hparse : Project.parse disk w.source w.cache w.root with
  | error e =>
    refine ⟨⟨.refl w, fun _ => ⟨.refl w, by simp⟩, nofun, nofun⟩, ?_, hcache⟩
    exact hfound _ (by rw [hparse]; rfl)
  | ok read =>
    refine ⟨⟨⟨rfl, rfl, rfl⟩, fun _ => ⟨⟨rfl, rfl, rfl⟩, by simp⟩, nofun, nofun⟩, ?_, ?_⟩
    · exact hfound _ (by rw [hparse]; rfl)
    · exact hkept read.1 read.2 hparse

/-- Analyzing the files, or showing that there is no project. -/
theorem Sound.moves_parsed (h : f.Sound disk c w) {result : Except NoProject Project}
    (hf : f.attempt = .parsed f.generation result) (hcache : w.cache.Faithful texts) (i : Nat) :
    let s := f.attempt.advance disk c w
    Moves disk c texts w { f with attempt := s.attempt, checked := false }
      ⟨i, f.generation, w, s.workspace, s.notices, s.attempt.outcome?⟩ := by
  have hread := h.parsed _ _ hf
  rw [hf]
  cases result with
  | error e =>
    refine ⟨⟨⟨rfl, rfl, rfl⟩, ?_, nofun, fun _ => rfl⟩, ⟨h.le, nofun, nofun, nofun⟩, hcache⟩
    simp [Attempt.advance, Attempt.outcome?]
  | ok project =>
    refine ⟨⟨.refl w, fun _ => ⟨.refl w, by simp [Attempt.advance]⟩, nofun, nofun⟩,
      ⟨h.le, fun _ => rfl, nofun, fun g p hg hlast => ?_⟩, hcache⟩
    cases hg
    -- The files are analyzed as they were read, and nothing was changed since.
    unfold Project.fresh
    cases hparse : Project.parse disk w.source {} w.root with
    | error e =>
      rw [hparse] at hread
      cases hread hlast
    | ok read =>
      rw [hparse] at hread
      cases hread hlast
      rfl

/-- Showing a project. There is no later change, so it is the right one. -/
theorem Sound.moves_analyzed (h : f.Sound disk c w) {project : Project}
    (hf : f.attempt = .analyzed f.generation project) (hlast : f.generation = w.generation)
    (hcache : w.cache.Faithful texts) (i : Nat) :
    let s := f.attempt.advance disk c w
    Moves disk c texts w { f with attempt := s.attempt, checked := false }
      ⟨i, f.generation, w, s.workspace, s.notices, s.attempt.outcome?⟩ := by
  have hfresh := h.analyzed _ _ hf hlast
  rw [hf]
  refine ⟨⟨⟨rfl, rfl, rfl⟩, ?_, fun g hg => ?_, nofun⟩, ⟨h.le, nofun, nofun, nofun⟩, hcache⟩
  · simp [Attempt.advance, Attempt.outcome?]
  · cases hg
    exact ⟨rfl, hlast, project, hfresh, rfl⟩

/-- A rebuild under way makes a sound move. -/
theorem Sound.next (h : f.Sound disk c w) (hgoing : f.attempt.outcome? = none)
    (hinj : Set.InjOn Digest.ofText texts) (hcache : w.cache.Faithful texts)
    (htexts : ∀ p text, w.source.read disk p = .ok text → text ∈ texts) (i : Nat) :
    Moves disk c texts w (f.moved disk c w) (f.nextMove disk c w i) := by
  unfold nextMove moved
  -- To look, or to find out that there is a later change, changes nothing. What a phase does
  -- depends on how far the rebuild is.
  obtain hlook | hover | ⟨hphase, hlast⟩ := next_cases (h.going hgoing) disk c w
  · rw [hlook]
    refine ⟨⟨.refl w, fun _ => ⟨.refl w, by simp⟩, ?_, ?_⟩,
      ⟨h.le, h.going, h.parsed, h.analyzed⟩, hcache⟩
    · simp [hgoing]
    · simp [hgoing]
  · rw [hover]
    refine ⟨⟨.refl w, fun _ => ⟨.refl w, by simp⟩, ?_, ?_⟩, ⟨h.le, nofun, nofun, nofun⟩, hcache⟩
    · simp [Attempt.outcome?]
    · simp [Attempt.outcome?]
  · rw [hphase]
    have hself := h.going hgoing
    cases hf : f.attempt with
    | ended o => simp [hf, Attempt.outcome?] at hgoing
    | waiting g =>
      obtain rfl : g = f.generation := by simpa [hf, Attempt.generation?] using hself
      rw [← hf]
      exact h.moves_waiting hf hinj hcache htexts i
    | parsed g result =>
      obtain rfl : g = f.generation := by simpa [hf, Attempt.generation?] using hself
      rw [← hf]
      exact h.moves_parsed hf hcache i
    | analyzed g project =>
      obtain rfl : g = f.generation := by simpa [hf, Attempt.generation?] using hself
      rw [← hf]
      exact h.moves_analyzed hf (hlast (by rw [hf]; rfl)) hcache i

end Flight

namespace Run

open Workspace

/-- The texts that a run can meet. -/
def texts (disk : Disk) (actions : List Action) : Set String :=
  {t | (∃ p, disk.read p = .ok t) ∨ ∃ s, .signal s ∈ actions ∧ s.text? = some t}

/-- The moves of a run, each with the files that there were after the changes before it. -/
structure Recorded (disk : Disk) (c : Catalog) (root : Path) (options : RebuildOptions)
    (signals : List Signal) (m : Move) : Prop where
  sound : m.Sound disk c
  sameRoot : m.before.root = root.normalize
  le : m.before.generation ≤ signals.length
  source : m.before.source = (afterSignals root options (signals.take m.before.generation)).source

theorem Recorded.append {disk : Disk} {c : Catalog} {root : Path} {options : RebuildOptions}
    {signals : List Signal} {m : Move} (h : Recorded disk c root options signals m) (s : Signal) :
    Recorded disk c root options (signals ++ [s]) m := by
  refine ⟨h.sound, h.sameRoot, by simpa using Nat.le_succ_of_le h.le, ?_⟩
  rw [List.take_append_of_le_length h.le]
  exact h.source

/-- The invariant of a run. -/
structure Sound (disk : Disk) (c : Catalog) (root : Path) (options : RebuildOptions)
    (texts : Set String) (r : Run) : Prop where
  sameRoot : r.workspace.root = root.normalize
  generation : r.workspace.generation = r.signals.length
  source : r.workspace.source = (afterSignals root options r.signals).source
  cache : r.workspace.cache.Faithful texts
  held : ∀ o ∈ r.workspace.source.overrides, o.2 ∈ texts
  flights : ∀ f ∈ r.flights, f.Sound disk c r.workspace
  moves : ∀ m ∈ r.history, Recorded disk c root options r.signals m
  /-- A rebuild that made its last move is over. -/
  ended : ∀ m ∈ r.history, ∀ o, m.outcome? = some o →
    ∃ f, r.flights[m.flight]? = some f ∧ f.attempt = .ended o
  le : r.workspace.committed ≤ r.workspace.generation
  commits_le : ∀ g ∈ r.history.filterMap Move.committed?, g ≤ r.workspace.committed
  commits : (r.history.filterMap Move.committed?).Pairwise (· ≤ ·)

variable {disk : Disk} {c : Catalog} {root : Path} {options : RebuildOptions}
  {texts : Set String} {r : Run}

theorem sound_empty : Sound disk c root options texts { workspace := .ofRoot root options } where
  sameRoot := rfl
  generation := rfl
  source := rfl
  cache := Cache.faithful_empty
  held := nofun
  flights := nofun
  moves := nofun
  ended := nofun
  le := Nat.le_refl 0
  commits_le := nofun
  commits := .nil

theorem Sound.signal (h : Sound disk c root options texts r) {s : Signal}
    (hs : ∀ t ∈ s.text?, t ∈ texts) :
    Sound disk c root options texts (r.step disk c (.signal s)) := by
  obtain ⟨hroot, hshown⟩ := record_eq r.workspace s
  obtain ⟨hcache, hheld⟩ := faithful_record h.cache h.held hs
  have hcommitted : (r.workspace.apply s).committed = r.workspace.committed := hshown.committed
  exact {
    sameRoot := hroot.trans h.sameRoot
    generation := by simp [step, Workspace.apply, h.generation]
    source := by
      simp only [step, afterSignals, List.foldl_append, List.foldl_cons, List.foldl_nil]
      exact source_record_congr h.source s
    cache := hcache
    held := hheld
    flights := fun f hf => (h.flights f hf).apply s
    moves := fun m hm => (h.moves m hm).append s
    ended := h.ended
    le := hcommitted.trans_le (Nat.le_succ_of_le h.le)
    commits_le := fun g hg => hcommitted ▸ h.commits_le g hg
    commits := h.commits }

theorem Sound.start (h : Sound disk c root options texts r) (g : Nat) :
    Sound disk c root options texts (r.step disk c (.start g)) := by
  simp only [step]
  split
  · next hg =>
    refine { h with flights := fun f hf => ?_, ended := fun m hm o ho => ?_ }
    · rcases List.mem_append.mp hf with hf | hf
      · exact h.flights f hf
      · rw [List.mem_singleton.mp hf]
        exact Flight.sound_start hg.2
    · obtain ⟨f, hf, hended⟩ := h.ended m hm o ho
      exact ⟨f, by rw [List.getElem?_append_left (List.getElem?_eq_some_iff.mp hf).1]; exact hf,
        hended⟩
  · exact h

/-- The commits of a run stay in order with one more move. -/
theorem Sound.commits_append (h : Sound disk c root options texts r) {m : Move}
    (hm : m.Sound disk c) (hbefore : m.before = r.workspace) :
    m.after.committed ≤ r.workspace.generation ∧
      (∀ g ∈ (r.history ++ [m]).filterMap Move.committed?, g ≤ m.after.committed) ∧
      ((r.history ++ [m]).filterMap Move.committed?).Pairwise (· ≤ ·) := by
  have hearlier : ∀ g ∈ r.history.filterMap Move.committed?, g ≤ r.workspace.generation :=
    fun g hg => (h.commits_le g hg).trans h.le
  rw [List.filterMap_append]
  obtain ⟨hnone, hsame⟩ | ⟨hsome, hset⟩ := hm.committed_cases
  · rw [hsame, hbefore, show [m].filterMap Move.committed? = [] by simp [hnone], List.append_nil]
    exact ⟨h.le, h.commits_le, h.commits⟩
  · rw [hset, show [m].filterMap Move.committed? = [m.before.generation] by simp [hsome], hbefore]
    refine ⟨Nat.le_refl _, fun g hg => ?_, ?_⟩
    · rcases List.mem_append.mp hg with hg | hg
      · exact hearlier g hg
      · exact (List.mem_singleton.mp hg).le
    · refine List.pairwise_append.mpr ⟨h.commits, List.pairwise_singleton _ _, ?_⟩
      intro g hg g' hg'
      rw [List.mem_singleton.mp hg']
      exact hearlier g hg

/-- A sound move of a rebuild under way keeps the invariant. -/
theorem Sound.add_move (h : Sound disk c root options texts r) {i : Nat} {f f' : Flight}
    (hi : r.flights[i]? = some f) (hgoing : f.attempt.outcome? = none) {m : Move}
    (hm : m.Sound disk c) (hplace : m.flight = i) (hbefore : m.before = r.workspace)
    (hflight : f'.Sound disk c r.workspace) (hcache : m.after.cache.Faithful texts)
    (hover : ∀ o, m.outcome? = some o → f'.attempt = .ended o) :
    Sound disk c root options texts { r with
      workspace := m.after, flights := r.flights.set i f', history := r.history ++ [m] } := by
  have hfiles : SameFiles r.workspace m.after := hbefore ▸ hm.sameFiles
  have hlength : i < r.flights.length := (List.getElem?_eq_some_iff.mp hi).1
  obtain ⟨hle, hcommitsLe, hcommits⟩ := h.commits_append hm hbefore
  refine {
    sameRoot := hfiles.root.trans h.sameRoot
    generation := hfiles.generation.trans h.generation
    source := hfiles.source.trans h.source
    cache := hcache
    held := fun o ho => h.held o (hfiles.source ▸ ho)
    flights := fun g hg => ?_
    moves := fun n hn => ?_
    ended := fun n hn o ho => ?_
    le := hfiles.generation ▸ hle
    commits_le := hcommitsLe
    commits := hcommits }
  · rcases List.mem_or_eq_of_mem_set hg with hg | rfl
    · exact (h.flights g hg).sameFiles hfiles
    · exact hflight.sameFiles hfiles
  · rcases List.mem_append.mp hn with hn | hn
    · exact h.moves n hn
    · rw [List.mem_singleton.mp hn]
      refine ⟨hm, hbefore ▸ h.sameRoot, hbefore ▸ h.generation.le, ?_⟩
      rw [hbefore, h.generation, List.take_length]
      exact h.source
  · rcases List.mem_append.mp hn with hn | hn
    · obtain ⟨g, hg, hended⟩ := h.ended n hn o ho
      -- A rebuild that is over does not move, so the move is that of another one.
      have hother : i ≠ n.flight := by
        rintro rfl
        obtain rfl : f = g := Option.some.inj (hi.symm.trans hg)
        rw [hended] at hgoing
        cases hgoing
      exact ⟨g, by rw [List.getElem?_set_ne hother]; exact hg, hended⟩
    · rw [List.mem_singleton.mp hn] at ho ⊢
      exact ⟨f', by rw [hplace, List.getElem?_set_self hlength], hover o ho⟩

/-- An action keeps the invariant. -/
theorem Sound.step (h : Sound disk c root options texts r)
    (hinj : Set.InjOn Digest.ofText texts) (hdisk : ∀ p text, disk.read p = .ok text → text ∈ texts)
    (a : Action) (ha : ∀ s, a = .signal s → ∀ t ∈ s.text?, t ∈ texts) :
    Sound disk c root options texts (r.step disk c a) := by
  cases a with
  | signal s => exact h.signal (ha s rfl)
  | start g => exact h.start g
  | move i =>
    simp only [Run.step]
    cases hi : r.flights[i]? with
    | none => exact h
    | some f =>
      dsimp only
      split
      · exact h
      · next hgoing =>
        have hgoing : f.attempt.outcome? = none := by simpa using hgoing
        obtain ⟨hmove, hflight, hcache⟩ := (h.flights f (List.mem_of_getElem? hi)).next hgoing
          hinj h.cache (fun p text => Source.mem_of_read h.held hdisk) i
        exact h.add_move hi hgoing hmove rfl rfl hflight hcache fun o ho => Attempt.eq_ended ho

/-- Every run is sound. -/
theorem sound_ofActions (disk : Disk) (c : Catalog) (root : Path) (options : RebuildOptions)
    (actions : List Action) (hinj : Set.InjOn Digest.ofText (Run.texts disk actions)) :
    Sound disk c root options (Run.texts disk actions) (ofActions disk c root options actions) := by
  unfold ofActions
  have hgo : ∀ (as : List Action) (r : Run), (∀ a ∈ as, a ∈ actions) →
      Sound disk c root options (Run.texts disk actions) r →
        Sound disk c root options (Run.texts disk actions) (as.foldl (Run.step disk c) r) := by
    intro as
    induction as with
    | nil => exact fun r _ h => h
    | cons a rest ih =>
      intro r hsub h
      refine ih _ (fun b hb => hsub b (List.mem_cons_of_mem a hb)) (h.step hinj ?_ a ?_)
      · exact fun p text hread => .inl ⟨p, hread⟩
      · rintro s rfl t ht
        exact .inr ⟨s, hsub _ List.mem_cons_self, ht⟩
  exact hgo actions _ (fun _ h => h) sound_empty

/-- What a rebuild shows. Changes, and the moves of any number of rebuilds, come in any order,
on a fixed disk and with different fingerprints for the texts of the run.

* A rebuild that commits is for the generation that it commits. It stores the project that is
  read from nothing after the changes up to this generation and no others. It publishes the
  diagnostics of this project, and clears the files that were shown and are not in it.
* A rebuild that is superseded leaves what is shown and committed alone in all of its moves.
  It tells the outside which phases it has finished, and nothing else.
* The committed generations never decrease. -/
theorem committed_eq_fresh (disk : Disk) (c : Catalog) (root : Path) (options : RebuildOptions)
    (actions : List Action) (hinj : Set.InjOn Digest.ofText (Run.texts disk actions)) :
    let run := ofActions disk c root options actions
    (∀ m ∈ run.history, ∀ g, m.outcome? = some (.committed g) →
      g = m.generation ∧ g ≤ run.signals.length ∧ ∃ project,
        Project.fresh disk c (afterSignals root options (run.signals.take g)).source
            root.normalize = .ok project ∧
          m.after.project = some project ∧
          m.after.published = project.diagnostics.map Prod.fst ∧
          m.after.committed = g ∧
          m.notices = project.diagnostics.map (fun d => .publish d.1 d.2) ++
            (m.before.published.filter fun p =>
              p ∉ project.diagnostics.map Prod.fst).map fun p => .publish p []) ∧
    (∀ m ∈ run.history, ∀ f, run.flights[m.flight]? = some f →
      f.attempt.outcome? = some .superseded →
        SameShown m.before m.after ∧ ∀ n ∈ m.notices, ∃ phase, n = .finished m.generation phase) ∧
    (run.history.filterMap Move.committed?).Pairwise (· ≤ ·) := by
  intro run
  have hrun : Sound disk c root options (Run.texts disk actions) run :=
    sound_ofActions disk c root options actions hinj
  refine ⟨fun m hm g hg => ?_, fun m hm f hf hsuperseded => ?_, hrun.commits⟩
  · have hmove := hrun.moves m hm
    obtain ⟨hgeneration, hlast, project, hfresh, hpublish⟩ := hmove.sound.committed g hg
    rw [hmove.source, hmove.sameRoot, ← hlast] at hfresh
    obtain ⟨hafter, hnotices⟩ := Prod.mk.inj hpublish
    refine ⟨hgeneration, hlast ▸ hmove.le, project, hfresh, ?_, ?_, ?_, ?_⟩
    · rw [hafter]
    · rw [hafter]
    · rw [hafter]
    · rw [hnotices]
      simp
  · refine (hrun.moves m hm).sound.quiet ?_
    cases ho : m.outcome? with
    | none => exact .inl rfl
    | some o =>
      -- A move that ended the rebuild ended it in the way in which it is over.
      obtain ⟨f', hf', hended⟩ := hrun.ended m hm o ho
      obtain rfl : f = f' := Option.some.inj (hf.symm.trans hf')
      rw [hended] at hsuperseded
      exact .inr hsuperseded

/-- There is no text on an empty disk, which has a root directory and nothing in it. -/
theorem read_empty_ne_ok (p : Path) (text : String) : ({} : Disk).read p ≠ .ok text := by
  intro h
  have hentry : ∀ parts, Disk.entry? {} parts = some .directory ∨
      Disk.entry? {} parts = none := by
    intro parts
    by_cases hparts : parts = []
    · exact .inl (by simp [ Disk.entry?, hparts])
    · exact .inr (by simp [ Disk.entry?, hparts])
  unfold Disk.read at h
  cases hfind : ({} : Disk).find p with
  | error e => simp [hfind, bind, Except.bind] at h
  | ok there =>
    obtain hplace | hplace := hentry there.parts
    · simp [hfind, hplace, bind, Except.bind] at h
    · simp [hfind, hplace, bind, Except.bind] at h

/-- The text of a file changes right after the first rebuild has read it. A second rebuild goes
through all of its phases. -/
def editWhileReading : List Action :=
  [.signal (.opened (Path.ofString "/proj/meson.build") "x = 1\n"), .start 1, .move 0, .move 0,
    .signal (.changed (Path.ofString "/proj/meson.build") "x = y\n"), .start 2, .move 0,
    .move 1, .move 1, .move 1, .move 1, .move 1, .move 1]

/-- The first rebuild is superseded, but it has told that it had read the files. -/
theorem superseded_tells_phase :
    ∃ m ∈ (ofActions {} {} (Path.ofString "/proj") {} editWhileReading).history,
      ((ofActions {} {} (Path.ofString "/proj") {} editWhileReading).flights[m.flight]?.bind
        (·.attempt.outcome?)) = some .superseded ∧ m.notices ≠ [] := by
  have hlength : ∃ m ∈ (ofActions {} {} (Path.ofString "/proj") {} editWhileReading).history,
      ((ofActions {} {} (Path.ofString "/proj") {} editWhileReading).flights[m.flight]?.bind
        (·.attempt.outcome?)) = some .superseded ∧ 0 < m.notices.length := by
    decide +kernel
  obtain ⟨m, hm, hsuperseded, hnotices⟩ := hlength
  exact ⟨m, hm, hsuperseded, List.ne_nil_of_length_pos hnotices⟩

/-- The second rebuild commits the project with the changed text. -/
theorem committed_eq_fresh_edit :
    Set.InjOn Digest.ofText (Run.texts {} editWhileReading) ∧
      ∃ m ∈ (ofActions {} {} (Path.ofString "/proj") {} editWhileReading).history,
        m.outcome? = some (.committed 2) ∧ ∃ project,
          Project.fresh {} {} (afterSignals (Path.ofString "/proj") {}
            ((ofActions {} {} (Path.ofString "/proj") {} editWhileReading).signals.take 2)).source
            (Path.ofString "/proj").normalize = .ok project ∧
          m.after.project = some project := by
  have hinj : Set.InjOn Digest.ofText (Run.texts {} editWhileReading) := by
    have htexts : ∀ t ∈ Run.texts {} editWhileReading, t = "x = 1\n" ∨ t = "x = y\n" := by
      rintro t (⟨p, hread⟩ | ⟨s, hs, htext⟩)
      · exact absurd hread (read_empty_ne_ok p t)
      · simp only [editWhileReading, List.mem_cons, Action.signal.injEq, reduceCtorEq,
          List.not_mem_nil, false_or, or_false] at hs
        rcases hs with rfl | rfl
        · exact .inl (Option.some.inj htext).symm
        · exact .inr (Option.some.inj htext).symm
    have hdiffer : Digest.ofText "x = 1\n" ≠ Digest.ofText "x = y\n" := by decide +kernel
    intro s hs t ht hdigest
    rcases htexts s hs with rfl | rfl <;> rcases htexts t ht with rfl | rfl
    · rfl
    · exact absurd hdigest hdiffer
    · exact absurd hdigest.symm hdiffer
    · rfl
  have hcommit : ∃ m ∈ (ofActions {} {} (Path.ofString "/proj") {} editWhileReading).history,
      m.outcome? = some (.committed 2) := by
    decide +kernel
  obtain ⟨m, hm, hcommitted⟩ := hcommit
  obtain ⟨-, -, project, hfresh, hproject, -⟩ :=
    (committed_eq_fresh {} {} (Path.ofString "/proj") {} editWhileReading hinj).1 m hm 2 hcommitted
  exact ⟨hinj, m, hm, hcommitted, project, hfresh, hproject⟩

end Run

end MesonLens
