import MesonLens.Workspace.Basic

/-!
# `MesonLens.Workspace.Rebuild`: rebuilding a project

A rebuild goes on in steps, and changes may come in between: the files are read,
they are analyzed, and the result is published. Before each step the rebuild
gives up when there is a later generation, so that only a rebuild for the last
change is published.

* `Attempt.step`: one step of a rebuild;
* `Attempt.run`: a rebuild that nothing interrupts.
-/

set_option autoImplicit false

namespace MesonLens

/-- A phase of a rebuild that takes time. -/
inductive Phase where
  | parse | analysis
  deriving DecidableEq, Repr

/-- The name of a phase. -/
def Phase.display : Phase → String
  | parse => "parse"
  | analysis => "analysis"

/-- What a rebuild tells the outside. -/
inductive Notice where
  | finished (generation : Nat) (phase : Phase)
  /-- What to show for a file from now on. -/
  | publish (path : Path) (diagnostics : List Diagnostic)
  deriving Repr

/-- How a rebuild ended. -/
inductive Outcome where
  | committed (generation : Nat)
  /-- There was a later change; nothing was published. -/
  | superseded
  /-- The root file could not be read. -/
  | failed
  deriving DecidableEq, Repr

/-- How far a rebuild has come. -/
inductive Attempt where
  | waiting (generation : Nat)
  | parsed (generation : Nat) (result : Except NoProject Project)
  | analyzed (generation : Nat) (project : Project)
  | ended (outcome : Outcome)

namespace Workspace

/-- Shows a project. Files that are no longer in it are shown without
diagnostics. -/
def publish (w : Workspace) (generation : Nat) (project : Project) : Workspace × List Notice :=
  let found := project.diagnostics
  let files := found.map Prod.fst
  let stale := w.published.filter (!files.contains ·)
  ({ w with project := some project, published := files, committed := generation },
    found.map (fun (p, ds) => .publish p ds) ++ stale.map fun p => .publish p [])

/-- Shows that there is no project. -/
def clear (w : Workspace) : Workspace × List Notice :=
  ({ w with project := none, published := [] }, w.published.map fun p => .publish p [])

end Workspace

namespace Attempt

/-- What a step leads to. -/
structure Step where
  workspace : Workspace
  attempt : Attempt
  notices : List Notice := []

/-- The generation that a rebuild is for, while it goes on. -/
def generation? : Attempt → Option Nat
  | waiting g | parsed g _ | analyzed g _ => some g
  | ended _ => none

/-- Goes on with a rebuild for the last change. -/
def advance (disk : Disk) (c : Catalog) (w : Workspace) : Attempt → Step
  | waiting g =>
    let notices := [.finished g .parse]
    -- What was parsed stays in the cache even when the rebuild is given up later.
    match Project.parse disk w.source w.cache w.root with
    | .ok (project, cache) => ⟨{ w with cache }, parsed g (.ok project), notices⟩
    | .error e => ⟨w, parsed g (.error e), notices⟩
  | parsed g (.ok project) => ⟨w, analyzed g (project.analyze c), [.finished g .analysis]⟩
  | parsed _ (.error _) =>
    let (w, notices) := w.clear
    ⟨w, ended .failed, notices⟩
  | analyzed g project =>
    let (w, notices) := w.publish g project
    ⟨w, ended (.committed g), notices⟩
  | ended outcome => ⟨w, ended outcome, []⟩

/-- One step of a rebuild. It gives up when there was a later change. -/
def step (disk : Disk) (c : Catalog) (w : Workspace) (a : Attempt) : Step :=
  match a.generation? with
  | some g => if g = w.generation then a.advance disk c w else ⟨w, ended .superseded, []⟩
  | none => ⟨w, a, []⟩

/-- Goes on for a number of steps. -/
def steps (disk : Disk) (c : Catalog) : Nat → Workspace → Attempt → Step
  | 0, w, a => ⟨w, a, []⟩
  | n + 1, w, a =>
    let first := a.step disk c w
    let rest := steps disk c n first.workspace first.attempt
    { rest with notices := first.notices ++ rest.notices }

/-- A rebuild that nothing interrupts; it has three steps. -/
def run (disk : Disk) (c : Catalog) (w : Workspace) (generation : Nat) :
    Workspace × List Notice :=
  let last := steps disk c 3 w (waiting generation)
  (last.workspace, last.notices)

end Attempt

end MesonLens
