import MesonLens.Server.Session
import Mathlib.Data.List.Induction

/-!
# `MesonLens.Proofs.Server.Overlay`: what a history of sections leaves

Every time that an editor is asked for its settings it answers with a section, which is overlaid on
the settings in force. What is in force then depends on all sections so far (`Settings.overlaid`).

A setting can be overlaid in two ways. Either what the section says is taken where it says
something valid, and the setting stays as it was otherwise; then the last section that supplies a
value decides (`Settings.overlaid_of_keeps`). Or the setting is taken from the section alone, with
its default where the section does not mention it; then the last section decides, whatever was
chosen before (`Settings.overlaid_of_resets`). The formatter and the rebuilds are of the first
kind, the three choices about hints of the second.

* `Session.settings_loadSettings`: an answer that is no section changes nothing, so the settings of
  a session are those of the sections among the answers;
* `Session.settings_supplied`: each setting after any answers, and when a choice about hints is the
  one that was made last;
* `Session.hints_forgotten`: hints that were turned off are on again after a section that does not
  mention them.
-/

set_option autoImplicit false

namespace MesonLens

namespace Section

/-- The value that the last section to supply one supplies, or the default when none does. -/
def lastSupplied {α : Type} (supplies? : Section → Option α) (default : α)
    (given : List Section) : α :=
  (given.filterMap supplies?).getLast?.getD default

/-- The program for formatting, unless its name is blank. -/
def program? (s : Section) : Option String :=
  s.formatCommand.filter fun c => !c.toList.all isBlank

/-- How many rebuilds may run at once, unless it is none. -/
def limit? (s : Section) : Option Nat := s.maxConcurrent.filter (0 < ·)

theorem lastSupplied_concat {α : Type} (supplies? : Section → Option α) (default : α)
    (given : List Section) (last : Section) :
    lastSupplied supplies? default (given ++ [last]) =
      (supplies? last).getD (lastSupplied supplies? default given) := by
  cases h : supplies? last <;> simp [lastSupplied, h]

end Section

namespace Settings

/-- The settings after some sections, each overlaid on what the ones before it left. -/
def overlaid (given : List Section) : Settings := given.foldl apply {}

theorem overlaid_concat (given : List Section) (last : Section) :
    overlaid (given ++ [last]) = (overlaid given).apply last := by
  simp [overlaid]

section
variable {α : Type} (read : Settings → α) {supplies? : Section → Option α}

/-- A setting that stays as it was when a section supplies no value for it. -/
theorem overlaid_of_keeps (h : ∀ s g, read (apply s g) = (supplies? g).getD (read s))
    (given : List Section) :
    read (overlaid given) = Section.lastSupplied supplies? (read {}) given := by
  induction given using List.reverseRecOn with
  | nil => rfl
  | append_singleton given last ih =>
    rw [overlaid_concat, h, Section.lastSupplied_concat, ih]

/-- A setting that has its default again when a section supplies no value for it. -/
theorem overlaid_of_resets (h : ∀ s g, read (apply s g) = (supplies? g).getD (read {}))
    (given : List Section) :
    read (overlaid given) = (given.getLast?.bind supplies?).getD (read {}) := by
  induction given using List.reverseRecOn with
  | nil => rfl
  | append_singleton given last _ => simp [overlaid_concat, h]

/-- Then the setting is the value that was supplied last if and only if the last section is the one
that supplied it, or the value is the default anyway. -/
theorem overlaid_eq_lastSupplied_iff
    (h : ∀ s g, read (apply s g) = (supplies? g).getD (read {})) (given : List Section) :
    read (overlaid given) = Section.lastSupplied supplies? (read {}) given ↔
      (∀ last ∈ given.getLast?, (supplies? last).isSome) ∨
        Section.lastSupplied supplies? (read {}) given = read {} := by
  rw [overlaid_of_resets read h]
  induction given using List.reverseRecOn with
  | nil => simp [Section.lastSupplied]
  | append_singleton given last _ =>
    rw [Section.lastSupplied_concat]
    cases hlast : supplies? last with
    | none =>
      -- The default is in force, and it is the last choice only when the two are the same.
      simp only [List.getLast?_concat, Option.bind_some, hlast, Option.getD_none, Option.mem_def,
        Option.some.injEq, forall_eq', Option.isSome_none, Bool.false_eq_true, false_or]
      exact eq_comm
    | some value => simp [hlast]

end

/-- The three choices about hints, each with what a section says of it. -/
def hintChoices : List ((Settings → Bool) × (Section → Option Bool)) :=
  [(hintsEnabled, Section.hintsEnabled), (hintParameters, Section.hintParameters),
    (hintTypes, Section.hintTypes)]

/-- Every choice about hints is on at first, and on again after a section that does not mention
it. -/
theorem apply_hintChoices :
    ∀ choice ∈ hintChoices, choice.1 {} = true ∧
      ∀ s g, choice.1 (apply s g) = (choice.2 g).getD (choice.1 {}) := by
  simp [hintChoices, apply]

end Settings

namespace Session

open Settings Section

/-- After some answers of an editor the settings are those of the sections among the answers. An
answer that is none, null or malformed leaves them as they are. -/
theorem settings_loadSettings (envs : List Environment) :
    (envs.foldl loadSettings {}).settings =
      overlaid (envs.filterMap fun env => givenSection? env.settings) := by
  induction envs using List.reverseRecOn with
  | nil => rfl
  | append_singleton envs env ih =>
    rw [List.foldl_append, List.filterMap_append, List.foldl_cons, List.foldl_nil, loadSettings]
    cases hgiven : givenSection? env.settings with
    | none => simp [hgiven, ih]
    | some given => simp [hgiven, ih, overlaid_concat]

/-- The settings after any answers of an editor, by the sections among the answers.

* The formatter and the rebuilds: each setting has the value of the last section that supplies a
  valid one, and its default when none does.
* The hints: each choice is what the last section says, and on when that one does not mention it.
  So it is the choice that was made last if and only if the last section mentions it, or the choice
  made last is the default. -/
theorem settings_supplied (envs : List Environment) :
    let given := envs.filterMap fun env => givenSection? env.settings
    let s := (envs.foldl loadSettings {}).settings
    s.formatter.program = lastSupplied program? "muon" given ∧
    s.formatter.args = lastSupplied formatArgs ["fmt", "-"] given ∧
    s.debounceMs = lastSupplied Section.debounceMs 100 given ∧
    s.maxConcurrent = lastSupplied limit? 2 given ∧
    ∀ choice ∈ hintChoices,
      choice.1 s = (given.getLast?.bind choice.2).getD true ∧
      (choice.1 s = lastSupplied choice.2 true given ↔
        (∀ last ∈ given.getLast?, (choice.2 last).isSome) ∨
          lastSupplied choice.2 true given = true) := by
  intro given s
  have hs : s = overlaid given := settings_loadSettings envs
  rw [hs]
  refine ⟨?_, ?_, ?_, ?_, ?_⟩
  · exact overlaid_of_keeps (fun s => s.formatter.program) (fun _ _ => rfl) given
  · exact overlaid_of_keeps (fun s => s.formatter.args) (fun _ _ => rfl) given
  · exact overlaid_of_keeps Settings.debounceMs (fun _ _ => rfl) given
  · exact overlaid_of_keeps Settings.maxConcurrent (fun _ _ => rfl) given
  · intro choice hchoice
    obtain ⟨hdefault, hresets⟩ := apply_hintChoices choice hchoice
    have hvalue := overlaid_of_resets choice.1 hresets given
    have hlast := overlaid_eq_lastSupplied_iff choice.1 hresets given
    rw [hdefault] at hvalue hlast
    exact ⟨hvalue, hlast⟩

/-- Hints are turned off, and then a section comes that does not mention them. They are on again. -/
theorem hints_forgotten :
    let answer (v : Value) : Environment :=
      { disk := {}, catalog := {}, settings := .sections [v], run := fun _ _ => .notStarted "" }
    let off : Value := .object [("inlayHints", .object [("enabled", .bool false)])]
    let envs := [answer off, answer (.object [])]
    let given := envs.filterMap fun env => givenSection? env.settings
    given = [{ hintsEnabled := some false }, {}] ∧
      lastSupplied Section.hintsEnabled true given = false ∧
      (envs.foldl loadSettings {}).settings.hintsEnabled = true := by
  intro answer off envs given
  have hgiven : given = [{ hintsEnabled := some false }, {}] := rfl
  exact ⟨hgiven, by rw [hgiven]; rfl, rfl⟩

end Session

end MesonLens
