import MesonLens.Editor.Formatting
import MesonLens.Editor.InlayHint
import MesonLens.Text.Blank
import MesonLens.Text.Value
import MesonLens.Workspace.Basic

/-!
# `MesonLens.Server.Settings`: what the client can choose

The client sends its choices in sections. `Section.decode?` reads one, and
`Settings.apply` overlays it on the settings in force.

* `Settings`: the settings in force, with their defaults;
* `Section`: the values that a section supplies.
-/

set_option autoImplicit false

namespace MesonLens

/-- The settings in force. -/
structure Settings where
  hintsEnabled : Bool := true
  hintParameters : Bool := true
  hintTypes : Bool := true
  formatter : Command := ⟨"muon", ["fmt", "-"]⟩
  debounceMs : Nat := 100
  maxConcurrent : Nat := 2
  deriving DecidableEq, Repr

/-- The values that a section supplies. -/
structure Section where
  hintsEnabled : Option Bool := none
  hintParameters : Option Bool := none
  hintTypes : Option Bool := none
  formatCommand : Option String := none
  formatArgs : Option (List String) := none
  debounceMs : Option Nat := none
  maxConcurrent : Option Nat := none
  deriving DecidableEq, Repr

namespace Section

/-- The parts of a value that is a record: its named fields, or the items of an
array in the order of the names. An array may not have more items than there
are names. -/
def record? (names : List String) : Value → Option (List (Option Value))
  | .object fields => some (names.map fun name => fields.lookup name)
  | .array items =>
    -- Items that are missing at the end count as fields that are not there.
    if names.length < items.length then none
    else some (names.mapIdx fun i _ => items[i]?)
  | _ => none

/-- A value that may be missing or null. -/
def optional? {α : Type} (read : Value → Option α) : Option Value → Option (Option α)
  | none | some .null => some none
  | some j => (read j).map some

/-- A whole number of at most 64 bits. -/
def word? (j : Value) : Option Nat :=
  j.nat?.filter (· ≤ 0xffffffffffffffff)

/-- A list of strings. -/
def strings? (j : Value) : Option (List String) := do
  let items ← j.array?
  items.mapM Value.string?

/-- Reads the choices about hints. -/
def decodeHints? (section' : Section) : Option Value → Option Section
  | none => some section'
  | some j => do
    match ← record? ["enabled", "parameters", "types"] j with
    | [enabled, parameters, types] =>
      pure { section' with
        hintsEnabled := ← optional? Value.bool? enabled
        hintParameters := ← optional? Value.bool? parameters
        hintTypes := ← optional? Value.bool? types }
    | _ => none

/-- Reads the choices about formatting. -/
def decodeFormatting? (section' : Section) : Option Value → Option Section
  | none => some section'
  | some j => do
    match ← record? ["command", "args"] j with
    | [command, args] =>
      pure { section' with
        formatCommand := ← optional? Value.string? command
        formatArgs := ← optional? strings? args }
    | _ => none

/-- Reads the choices about rebuilds. -/
def decodePerformance? (section' : Section) : Option Value → Option Section
  | none => some section'
  | some j => do
    match ← record? ["debounceMs", "maxConcurrent"] j with
    | [debounce, concurrent] =>
      pure { section' with
        debounceMs := ← optional? word? debounce
        maxConcurrent := ← optional? word? concurrent }
    | _ => none

/-- Reads a section; nothing when it is malformed. What it does not know it
passes over. -/
def decode? (j : Value) : Option Section := do
  match ← record? ["inlayHints", "formatting", "performance"] j with
  | [hints, formatting, performance] =>
    let s ← decodeHints? {} hints
    let s ← decodeFormatting? s formatting
    decodePerformance? s performance
  | _ => none

end Section

namespace Settings

/-- The hints to show, if any. -/
def hintOptions? (s : Settings) : Option HintOptions :=
  if s.hintsEnabled then some ⟨s.hintTypes, s.hintParameters⟩ else none

/-- How rebuilds are scheduled; at least one at a time runs. -/
def rebuildOptions (s : Settings) : RebuildOptions :=
  ⟨s.debounceMs, max s.maxConcurrent 1⟩

/-- Overlays a section. Hints that it does not mention are on again; a blank
command and a limit of zero are passed over; all else that it does not mention
stays. -/
def apply (s : Settings) (given : Section) : Settings where
  hintsEnabled := given.hintsEnabled.getD true
  hintParameters := given.hintParameters.getD true
  hintTypes := given.hintTypes.getD true
  formatter :=
    { program := (given.formatCommand.filter fun c => !c.toList.all isBlank).getD
        s.formatter.program
      args := given.formatArgs.getD s.formatter.args }
  debounceMs := given.debounceMs.getD s.debounceMs
  maxConcurrent := (given.maxConcurrent.filter (0 < ·)).getD s.maxConcurrent

end Settings

end MesonLens
