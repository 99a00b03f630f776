import MesonLens.Workspace.Rebuild

/-!
# `MesonLens.Workspace.Run`: changes and rebuilds in any order

`Attempt.step` looks at the generation and goes on at once. When rebuilds run beside each
other, a change may come in between, so here these are two moves. A `Flight` is a rebuild
that goes on by such moves:

* it looks at the generation, and is over when there is a later one;
* it goes through a phase: it reads the files, or analyzes them;
* it shows what it has found. This is one move, which looks at the generation once more.

A `Run` is what becomes of a workspace by a sequence of actions: changes, new rebuilds, and
moves of the rebuilds that are under way. It keeps every move that was made.
-/

set_option autoImplicit false

namespace MesonLens

namespace Attempt

/-- How a rebuild ended, once it has. -/
def outcome? : Attempt → Option Outcome
  | ended outcome => some outcome
  | _ => none

/-- The rebuild has all that it can show. -/
def isReady : Attempt → Bool
  | parsed _ (.error _) | analyzed .. => true
  | _ => false

end Attempt

/-- A rebuild beside others. -/
structure Flight where
  generation : Nat
  attempt : Attempt := .waiting generation
  /-- The rebuild was for the last change when it looked, and has not gone on since. -/
  checked : Bool := false

/-- A move of a rebuild. -/
structure Move where
  /-- The rebuild, by its place among all rebuilds of the run. -/
  flight : Nat
  generation : Nat
  before : Workspace
  after : Workspace
  notices : List Notice
  /-- How the rebuild ended, when this was its last move. -/
  outcome? : Option Outcome

/-- The generation that a move has shown. -/
def Move.committed? (m : Move) : Option Nat :=
  match m.outcome? with
  | some (.committed g) => some g
  | _ => none

/-- The next move of a rebuild. -/
def Flight.next (disk : Disk) (c : Catalog) (w : Workspace) (f : Flight) :
    Attempt.Step × Bool :=
  if !f.checked then
    if f.generation = w.generation then (⟨w, f.attempt, []⟩, true)
    else (⟨w, .ended .superseded, []⟩, false)
  else if f.attempt.isReady then (f.attempt.step disk c w, false)
  else (f.attempt.advance disk c w, false)

/-- The rebuild after its next move. -/
def Flight.moved (disk : Disk) (c : Catalog) (w : Workspace) (f : Flight) : Flight :=
  let (s, checked) := f.next disk c w
  { f with attempt := s.attempt, checked }

/-- The next move of the rebuild at a place among all rebuilds. -/
def Flight.nextMove (disk : Disk) (c : Catalog) (w : Workspace) (i : Nat) (f : Flight) : Move :=
  let (s, _) := f.next disk c w
  ⟨i, f.generation, w, s.workspace, s.notices, s.attempt.outcome?⟩

/-- What can happen to a workspace. -/
inductive Action where
  | signal (s : Signal)
  /-- A rebuild starts, for a generation that there has been. -/
  | start (generation : Nat)
  /-- A rebuild makes its next move. -/
  | move (flight : Nat)

/-- A workspace with its rebuilds, and how it got there. -/
structure Run where
  workspace : Workspace
  /-- The changes, the first one first. -/
  signals : List Signal := []
  flights : List Flight := []
  /-- The moves, the first one first. -/
  history : List Move := []

namespace Run

/-- A rebuild makes its next move. -/
def advance (disk : Disk) (c : Catalog) (r : Run) (i : Nat) (f : Flight) : Run :=
  let m := f.nextMove disk c r.workspace i
  { r with
    workspace := m.after
    flights := r.flights.set i (f.moved disk c r.workspace)
    history := r.history ++ [m] }

/-- One action. A rebuild that is over makes no more moves. -/
def step (disk : Disk) (c : Catalog) (r : Run) : Action → Run
  | .signal s => { r with workspace := r.workspace.apply s, signals := r.signals ++ [s] }
  | .start g =>
    if 1 ≤ g ∧ g ≤ r.workspace.generation then
      { r with flights := r.flights ++ [{ generation := g }] }
    else r
  | .move i =>
    match r.flights[i]? with
    | none => r
    | some f => if f.attempt.outcome?.isSome then r else r.advance disk c i f

/-- The run of a workspace by actions. -/
def ofActions (disk : Disk) (c : Catalog) (root : Path) (options : RebuildOptions)
    (actions : List Action) : Run :=
  actions.foldl (step disk c) { workspace := .ofRoot root options }

end Run

/-- The workspace after changes alone. -/
def Workspace.afterSignals (root : Path) (options : RebuildOptions) (signals : List Signal) :
    Workspace :=
  signals.foldl apply (ofRoot root options)

end MesonLens
