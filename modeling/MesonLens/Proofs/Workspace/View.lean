import MesonLens.Proofs.Project.Lineage
import MesonLens.Proofs.Workspace.Supersession

/-!
# `MesonLens.Proofs.Workspace.View`: the editor shows the project that is stored

The editor keeps what it was told last about each file. So a file that leaves the project has to be
cleared, and `Workspace.published` is there to know which files may show something.

* `lastShown?`: what was published last for a file, by a list of notices;
* `Workspace.Shown`: the invariant. `published` are the files of the stored project, each of them
  shows its diagnostics, and no other path shows anything. To publish a project keeps it, and so
  does to clear the workspace (`Workspace.Shown.publish`, `Workspace.Shown.clear`);
* `Run.shown_ofEvents`: the invariant holds in every run, also when the files on disk change while
  it goes on.

Files are compared by their paths, and notices by the keys of paths. The two agree because the
paths of a project are their own keys (`Project.paths_of_parse`), in a rebuild under way as in the
stored project: `Project.Keyed` goes with a project from its reading to its publication.
-/

set_option autoImplicit false

namespace MesonLens

/-! ### What was published last -/

/-- What a notice publishes for a file. -/
def Notice.shown? (p : Path) : Notice → Option (List Diagnostic)
  | .publish q ds => if q.key = p.key then some ds else none
  | .finished .. => none

theorem Notice.shown?_publish {p q : Path} {ds ds' : List Diagnostic} :
    (Notice.publish q ds).shown? p = some ds' ↔ q.key = p.key ∧ ds = ds' := by
  simp [shown?]

/-- What was published last for a file. -/
def lastShown? (p : Path) (notices : List Notice) : Option (List Diagnostic) :=
  notices.reverse.findSome? (Notice.shown? p)

section LastShown

variable {p : Path} {ns ms : List Notice}

theorem lastShown?_append : lastShown? p (ns ++ ms) = (lastShown? p ms).or (lastShown? p ns) := by
  simp only [lastShown?, List.reverse_append, List.findSome?_append]

theorem lastShown?_eq_none (h : ∀ n ∈ ns, n.shown? p = none) : lastShown? p ns = none := by
  rw [lastShown?, List.findSome?_eq_none_iff]
  exact fun n hn => h n (List.mem_reverse.mp hn)

/-- What is published for a file is shown if nothing else is published for it. -/
theorem lastShown?_eq_some {ds : List Diagnostic} (hsome : ∃ n ∈ ns, n.shown? p = some ds)
    (honly : ∀ n ∈ ns, ∀ ds', n.shown? p = some ds' → ds' = ds) : lastShown? p ns = some ds := by
  cases hlast : lastShown? p ns with
  | none =>
    obtain ⟨n, hn, hds⟩ := hsome
    rw [lastShown?, List.findSome?_eq_none_iff] at hlast
    rw [hlast n (List.mem_reverse.mpr hn)] at hds
    cases hds
  | some ds' =>
    obtain ⟨n, hn, hds'⟩ := List.exists_of_findSome?_eq_some hlast
    rw [honly n (List.mem_reverse.mp hn) ds' hds']

end LastShown

/-! ### Projects -/

namespace Project

/-- The files are told apart by the keys of their paths, which are the paths. -/
structure Keyed (project : Project) : Prop where
  nodup : (project.diagnostics.map Prod.fst).Nodup
  key_eq : ∀ p ∈ project.diagnostics.map Prod.fst, p.key = p

theorem map_fst_diagnostics (project : Project) :
    project.diagnostics.map Prod.fst = project.files.map BuildFile.path := by
  rw [diagnostics, List.map_map]
  rfl

theorem keyed_of_parse {disk : Disk} {source : Source} {root : Path} {cache cache' : Cache}
    {project : Project} (h : parse disk source cache root = .ok (project, cache')) :
    project.Keyed := by
  obtain ⟨hnodup, hkey⟩ := paths_of_parse h
  refine ⟨by rw [map_fst_diagnostics]; exact hnodup, fun p hp => ?_⟩
  rw [map_fst_diagnostics] at hp
  obtain ⟨f, hf, rfl⟩ := List.mem_map.mp hp
  exact hkey f hf

theorem Keyed.analyze {project : Project} (h : project.Keyed) (c : Catalog) :
    (project.analyze c).Keyed := by
  have hpaths : (project.analyze c).diagnostics.map Prod.fst =
      project.diagnostics.map Prod.fst := by
    rw [map_fst_diagnostics, map_fst_diagnostics, paths_analyze]
  exact ⟨hpaths ▸ h.nodup, hpaths ▸ h.key_eq⟩

/-- Only one file of the project has a given key. -/
theorem Keyed.eq_of_key {project : Project} (h : project.Keyed) {d e : Path × List Diagnostic}
    (hd : d ∈ project.diagnostics) (he : e ∈ project.diagnostics) (hkey : d.1.key = e.1.key) :
    d = e := by
  rw [h.key_eq _ (List.mem_map_of_mem hd), h.key_eq _ (List.mem_map_of_mem he)] at hkey
  exact List.inj_on_of_nodup_map h.nodup hd he hkey

end Project

/-! ### The workspace -/

namespace Workspace

/-- What the stored project has to do with what was published. -/
structure Shown (w : Workspace) (notices : List Notice) : Prop where
  published : w.published = (w.project.map fun p => p.diagnostics.map Prod.fst).getD []
  keyed : ∀ project ∈ w.project, project.Keyed
  files : ∀ project ∈ w.project, ∀ d ∈ project.diagnostics, lastShown? d.1 notices = some d.2
  others : ∀ p, (∀ q ∈ w.published, q.key ≠ p.key) → (lastShown? p notices).getD [] = []

variable {w w' : Workspace} {ns ms : List Notice}

theorem shown_ofRoot (root : Path) (options : RebuildOptions) : (ofRoot root options).Shown [] :=
  ⟨rfl, nofun, nofun, fun _ _ => rfl⟩

theorem Shown.key_eq (h : w.Shown ns) : ∀ p ∈ w.published, p.key = p := by
  intro p hp
  rw [h.published] at hp
  cases hproject : w.project with
  | none => simp [hproject] at hp
  | some project =>
    rw [hproject] at hp
    exact (h.keyed project hproject).key_eq p hp

/-- Notices that publish nothing change nothing. -/
theorem Shown.append_quiet (h : w.Shown ns) (hw : SameShown w w')
    (hquiet : ∀ n ∈ ms, ∀ p, n.shown? p = none) : w'.Shown (ns ++ ms) := by
  have hlast : ∀ p, lastShown? p (ns ++ ms) = lastShown? p ns := by
    intro p
    rw [lastShown?_append, lastShown?_eq_none fun n hn => hquiet n hn p, Option.none_or]
  refine ⟨?_, ?_, ?_, ?_⟩
  · rw [hw.published, hw.project]
    exact h.published
  · rw [hw.project]
    exact h.keyed
  · intro project hproject d hd
    rw [hlast]
    exact h.files project (hw.project ▸ hproject) d hd
  · intro p hp
    rw [hlast]
    exact h.others p (hw.published ▸ hp)

/-- To clear some paths, and others not, leaves nothing shown at a path that showed nothing or is
cleared. -/
theorem Shown.getD_of_cleared (h : w.Shown ns) {p : Path}
    (hclear : ∀ n ∈ ms, ∀ ds, n.shown? p = some ds → ds = [])
    (hall : ∀ q ∈ w.published, q.key = p.key → ∃ n ∈ ms, n.shown? p = some []) :
    (lastShown? p (ns ++ ms)).getD [] = [] := by
  rw [lastShown?_append]
  by_cases hshown : ∃ n ∈ ms, n.shown? p = some []
  · rw [lastShown?_eq_some hshown hclear]
    rfl
  · -- Nothing was published for this path, so it shows what it showed before.
    have hnone : lastShown? p ms = none := by
      refine lastShown?_eq_none fun n hn => ?_
      cases hds : n.shown? p with
      | none => rfl
      | some ds =>
        rw [hclear n hn ds hds] at hds
        exact absurd ⟨n, hn, hds⟩ hshown
    rw [hnone, Option.none_or]
    exact h.others p fun q hq hkey => hshown (hall q hq hkey)

/-- The files of the project and the files that left it. -/
theorem mem_publish {generation : Nat} {project : Project} {n : Notice} :
    n ∈ (w.publish generation project).2 ↔
      (∃ d ∈ project.diagnostics, n = .publish d.1 d.2) ∨
      ∃ q ∈ w.published, q ∉ project.diagnostics.map Prod.fst ∧ n = .publish q [] := by
  simp only [publish, List.mem_append, List.mem_map, List.mem_filter, Bool.not_eq_true',
    List.contains_eq_mem, decide_eq_false_iff_not]
  constructor
  · rintro (⟨d, hd, rfl⟩ | ⟨q, ⟨hq, hnew⟩, rfl⟩)
    · exact .inl ⟨d, hd, rfl⟩
    · exact .inr ⟨q, hq, hnew, rfl⟩
  · rintro (⟨d, hd, rfl⟩ | ⟨q, hq, hnew, rfl⟩)
    · exact .inl ⟨d, hd, rfl⟩
    · exact .inr ⟨q, ⟨hq, hnew⟩, rfl⟩

/-- To publish a project shows its diagnostics, and clears what is not in it. -/
theorem Shown.publish (h : w.Shown ns) (generation : Nat) {project : Project}
    (hkeyed : project.Keyed) :
    (w.publish generation project).1.Shown (ns ++ (w.publish generation project).2) := by
  refine ⟨rfl, fun _ hproject => ?_, fun _ hproject d hd => ?_, fun p hp => ?_⟩
  · cases hproject
    exact hkeyed
  · cases hproject
    have hlast : lastShown? d.1 (w.publish generation project).2 = some d.2 := by
      refine lastShown?_eq_some ?_ fun n hn ds hds => ?_
      · exact ⟨_, mem_publish.mpr (.inl ⟨d, hd, rfl⟩), Notice.shown?_publish.mpr ⟨rfl, rfl⟩⟩
      · rcases mem_publish.mp hn with ⟨e, he, rfl⟩ | ⟨q, hq, hnew, rfl⟩
        · obtain ⟨hkey, rfl⟩ := Notice.shown?_publish.mp hds
          rw [hkeyed.eq_of_key he hd hkey]
        · -- A file that has left the project is not one of its files under another path.
          obtain ⟨hkey, -⟩ := Notice.shown?_publish.mp hds
          have hmem := List.mem_map_of_mem (f := Prod.fst) hd
          rw [h.key_eq q hq, hkeyed.key_eq _ hmem] at hkey
          exact absurd (hkey ▸ hmem) hnew
    rw [lastShown?_append, hlast, Option.some_or]
  · have hfiles : ∀ q ∈ project.diagnostics.map Prod.fst, q.key ≠ p.key := hp
    refine h.getD_of_cleared (fun n hn ds hds => ?_) fun q hq hkey => ?_
    · rcases mem_publish.mp hn with ⟨e, he, rfl⟩ | ⟨q, -, -, rfl⟩
      · exact absurd (Notice.shown?_publish.mp hds).1 (hfiles _ (List.mem_map_of_mem he))
      · exact (Notice.shown?_publish.mp hds).2.symm
    · have hnew : q ∉ project.diagnostics.map Prod.fst := fun hmem => hfiles q hmem hkey
      exact ⟨_, mem_publish.mpr (.inr ⟨q, hq, hnew, rfl⟩), Notice.shown?_publish.mpr ⟨hkey, rfl⟩⟩

/-- Without a project nothing is shown. -/
theorem Shown.clear (h : w.Shown ns) : w.clear.1.Shown (ns ++ w.clear.2) := by
  have hnotices : w.clear.2 = w.published.map fun q => .publish q [] := rfl
  refine ⟨rfl, nofun, nofun, fun p _ => ?_⟩
  refine h.getD_of_cleared (fun n hn ds hds => ?_) fun q hq hkey => ?_
  · rw [hnotices] at hn
    obtain ⟨q, -, rfl⟩ := List.mem_map.mp hn
    exact (Notice.shown?_publish.mp hds).2.symm
  · rw [hnotices]
    exact ⟨_, List.mem_map_of_mem hq, Notice.shown?_publish.mpr ⟨hkey, rfl⟩⟩

end Workspace

/-! ### Rebuilds and runs -/

/-- A project that a rebuild has found tells its files apart. -/
def Attempt.Keyed (a : Attempt) : Prop :=
  (∀ g project, a = .parsed g (.ok project) → project.Keyed) ∧
    ∀ g project, a = .analyzed g project → project.Keyed

theorem Attempt.keyed_waiting (g : Nat) : (Attempt.waiting g).Keyed := ⟨nofun, nofun⟩

namespace Workspace

variable {w : Workspace} {ns : List Notice}

/-- Whatever a rebuild does next, the editor shows the stored project. -/
theorem Shown.advance (h : w.Shown ns) (disk : Disk) (c : Catalog) {a : Attempt} (ha : a.Keyed) :
    let s := a.advance disk c w
    s.workspace.Shown (ns ++ s.notices) ∧ s.attempt.Keyed := by
  have hfinished : ∀ g phase, ∀ n ∈ [Notice.finished g phase], ∀ p, n.shown? p = none := by
    intro g phase n hn p
    rw [List.mem_singleton.mp hn]
    rfl
  cases a with
  | waiting g =>
    unfold Attempt.advance
    cases hparse : Project.parse disk w.source w.cache w.root with
    | error e =>
      -- What the editor shows is cleared by the next move.
      exact ⟨h.append_quiet (.refl w) (hfinished g _), nofun, nofun⟩
    | ok read =>
      refine ⟨h.append_quiet ⟨rfl, rfl, rfl⟩ (hfinished g _), fun _ project hproject => ?_, nofun⟩
      cases hproject
      exact Project.keyed_of_parse hparse
  | parsed g result =>
    cases result with
    | error e => exact ⟨h.clear, nofun, nofun⟩
    | ok project =>
      refine ⟨h.append_quiet (.refl w) (hfinished g _), nofun, fun _ analyzed hproject => ?_⟩
      cases hproject
      exact (ha.1 g project rfl).analyze c
  | analyzed g project => exact ⟨h.publish g (ha.2 g project rfl), nofun, nofun⟩
  | ended outcome => exact ⟨h.append_quiet (.refl w) nofun, nofun, nofun⟩

end Workspace

/-- The next move of a rebuild leaves the workspace alone and tells nothing, or is its next
phase. -/
theorem Flight.next_quiet_or_advance (disk : Disk) (c : Catalog) (w : Workspace) (f : Flight) :
    ((f.next disk c w).1 = ⟨w, f.attempt, []⟩ ∨
      (f.next disk c w).1 = ⟨w, .ended .superseded, []⟩) ∨
    (f.next disk c w).1 = f.attempt.advance disk c w := by
  unfold next
  split
  · split
    · exact .inl (.inl rfl)
    · exact .inl (.inr rfl)
  split
  · unfold Attempt.step
    split
    · split
      · exact .inr rfl
      · exact .inl (.inr rfl)
    · exact .inl (.inl rfl)
  · exact .inr rfl

/-- Whatever move a rebuild makes, the editor shows the stored project. -/
theorem Workspace.Shown.next {w : Workspace} {ns : List Notice} (h : w.Shown ns) (disk : Disk)
    (c : Catalog) {f : Flight} (hf : f.attempt.Keyed) :
    let s := (f.next disk c w).1
    s.workspace.Shown (ns ++ s.notices) ∧ s.attempt.Keyed := by
  rcases Flight.next_quiet_or_advance disk c w f with (hnext | hnext) | hnext
  · rw [hnext]
    exact ⟨h.append_quiet (.refl w) nofun, hf⟩
  · rw [hnext]
    exact ⟨h.append_quiet (.refl w) nofun, nofun, nofun⟩
  · rw [hnext]
    exact h.advance disk c hf

namespace Run

/-- The run of a workspace by actions, each with the disk that it finds. -/
def ofEvents (c : Catalog) (root : Path) (options : RebuildOptions)
    (events : List (Disk × Action)) : Run :=
  events.foldl (fun r e => r.step e.1 c e.2) { workspace := .ofRoot root options }

/-- A run on a disk that stays the same. -/
theorem ofActions_eq_ofEvents (disk : Disk) (c : Catalog) (root : Path)
    (options : RebuildOptions) (actions : List Action) :
    ofActions disk c root options actions =
      ofEvents c root options (actions.map fun a => (disk, a)) := by
  rw [ofEvents, List.foldl_map]
  rfl

/-- All that the outside was told. -/
def notices (r : Run) : List Notice := r.history.flatMap Move.notices

/-- What the editor shows for a file: what was published last for it. -/
def view (r : Run) (p : Path) : List Diagnostic := (lastShown? p r.notices).getD []

/-- What is kept in every run. -/
structure Shown (r : Run) : Prop where
  workspace : r.workspace.Shown r.notices
  flights : ∀ f ∈ r.flights, f.attempt.Keyed

variable {disk : Disk} {c : Catalog} {r : Run}

theorem Shown.advance (h : r.Shown) {i : Nat} {f : Flight} (hi : r.flights[i]? = some f) :
    (r.advance disk c i f).Shown := by
  obtain ⟨hworkspace, hattempt⟩ :=
    h.workspace.next disk c (h.flights f (List.mem_of_getElem? hi))
  have hnotices : (r.advance disk c i f).notices =
      r.notices ++ (f.next disk c r.workspace).1.notices := by
    show (r.history ++ [f.nextMove disk c r.workspace i]).flatMap Move.notices = _
    rw [List.flatMap_append, List.flatMap_singleton]
    rfl
  refine ⟨?_, fun g hg => ?_⟩
  · rw [hnotices]
    exact hworkspace
  · rcases List.mem_or_eq_of_mem_set hg with hg | rfl
    · exact h.flights g hg
    · exact hattempt

/-- An action keeps the invariant. -/
theorem Shown.step (h : r.Shown) (a : Action) : (r.step disk c a).Shown := by
  cases a with
  | signal s =>
    obtain ⟨-, hproject, hpublished, hcommitted⟩ := r.workspace.record_eq s
    have hsame : Workspace.SameShown r.workspace (r.workspace.apply s) :=
      ⟨hproject, hpublished, hcommitted⟩
    have hshown : (r.workspace.apply s).Shown (r.notices ++ []) :=
      h.workspace.append_quiet hsame (by simp)
    rw [List.append_nil] at hshown
    exact ⟨hshown, h.flights⟩
  | start g =>
    simp only [Run.step]
    split
    · refine ⟨h.workspace, fun f hf => ?_⟩
      rcases List.mem_append.mp hf with hf | hf
      · exact h.flights f hf
      · rw [List.mem_singleton.mp hf]
        exact Attempt.keyed_waiting g
    · exact h
  | move i =>
    simp only [Run.step]
    cases hi : r.flights[i]? with
    | none => exact h
    | some f =>
      dsimp only
      split
      · exact h
      · exact h.advance hi

/-- The invariant holds in every run. -/
theorem shown_ofEvents (c : Catalog) (root : Path) (options : RebuildOptions)
    (events : List (Disk × Action)) : (ofEvents c root options events).Shown := by
  have hgo : ∀ (es : List (Disk × Action)) (r : Run), r.Shown →
      (es.foldl (fun r e => r.step e.1 c e.2) r).Shown := by
    intro es
    induction es with
    | nil => exact fun r h => h
    | cons e es ih => exact fun r h => ih _ (h.step e.2)
  exact hgo events _ ⟨Workspace.shown_ofRoot root options, nofun⟩

/-- The editor shows the diagnostics of the project that is stored, after every action of every
run: those of each of its files, and nothing for any other path. Without a project it shows
nothing. The files on disk may change at any time. -/
theorem view_follows_project (c : Catalog) (root : Path) (options : RebuildOptions)
    (events : List (Disk × Action)) :
    let run := ofEvents c root options events
    (∀ project, run.workspace.project = some project →
      (∀ d ∈ project.diagnostics, run.view d.1 = d.2) ∧
        ∀ p, (∀ d ∈ project.diagnostics, d.1.key ≠ p.key) → run.view p = []) ∧
    (run.workspace.project = none → ∀ p, run.view p = []) := by
  intro run
  have hshown : run.workspace.Shown run.notices :=
    (shown_ofEvents c root options events).workspace
  refine ⟨fun project hproject => ⟨fun d hd => ?_, fun p hp => ?_⟩, fun hproject p => ?_⟩
  · rw [view, hshown.files project hproject d hd, Option.getD_some]
  · refine hshown.others p ?_
    rw [hshown.published, hproject]
    exact List.forall_mem_map.mpr hp
  · refine hshown.others p ?_
    rw [hshown.published, hproject]
    exact nofun

end Run

end MesonLens
