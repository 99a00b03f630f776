import MesonLens.Analysis.Analyzer

/-!
# `MesonLens.Proofs.Analysis.Checks`: what a check can do

Between the steps that note something about a file the analysis checks: the arguments of a call
against a signature, the placeholders of a string, the name of a module. `Analyze.Checks` says what
all of these have in common: a check tells of problems, and leaves everything else alone. There is
one lemma for each check, so that no later proof opens one.
-/

set_option autoImplicit false

namespace MesonLens

namespace Analyze

variable {α β : Type}

/-- The step changes the list of problems at most. -/
def Checks (m : Analyze α) : Prop :=
  ∀ a, ∃ problems, (m.run a).2 = { a with diagnostics := problems }

namespace Checks

theorem pure (v : α) : Checks (Pure.pure v : Analyze α) := fun a => ⟨a.diagnostics, rfl⟩

theorem get : Checks (MonadState.get : Analyze Analysis) := fun a => ⟨a.diagnostics, rfl⟩

theorem report (problem : Problem) (span : Span) : Checks (Analyze.report problem span) :=
  fun _ => ⟨_, rfl⟩

theorem bind {m : Analyze α} {k : α → Analyze β} (hm : Checks m) (hk : ∀ v, Checks (k v)) :
    Checks (m >>= k) := by
  intro a
  obtain ⟨mid, hmid⟩ := hm a
  obtain ⟨problems, hproblems⟩ := hk (m.run a).1 (m.run a).2
  refine ⟨problems, ?_⟩
  show ((k (m.run a).1).run (m.run a).2).2 = _
  rw [hproblems, hmid]

theorem forIn (l : List α) (f : α → PUnit → Analyze (ForInStep PUnit))
    (hf : ∀ v u, Checks (f v u)) : ∀ u, Checks (ForIn.forIn l u f) := by
  induction l with
  | nil => exact fun u => pure u
  | cons v l ih =>
    intro u
    rw [List.forIn_cons]
    refine (hf v u).bind fun r => ?_
    cases r with
    | done u => exact pure u
    | yield u => exact ih u

theorem checkPlaceholders (value : String) (span : Span) :
    Checks (Analyze.checkPlaceholders value span) := by
  unfold Analyze.checkPlaceholders
  refine bind (forIn _ _ (fun p u => ?_) _) fun _ => pure _
  refine get.bind fun a => ?_
  split
  · exact pure _
  · exact (report _ _).bind fun _ => pure _

theorem checkCount (f : Signature TypeSet) (given : Nat) (span : Span) :
    Checks (Analyze.checkCount f given span) := by
  have hlimit : ∀ limit, Checks (if limit < given then
      Analyze.report (.tooManyPositional f.id limit given) span else Pure.pure ()) := by
    intro limit
    split
    · exact report _ _
    · exact pure _
  unfold Analyze.checkCount
  by_cases h : given < f.minPositional
  · simp only [if_pos h]
    refine (report _ _).bind fun _ => ?_
    split
    · exact hlimit _
    · exact pure _
  · simp only [if_neg h]
    split
    · exact hlimit _
    · exact pure _

theorem checkPositional (ctx : Context) (f : Signature TypeSet) (args : List PositionalArg) :
    ∀ place, Checks (Analyze.checkPositional ctx f place args) := by
  induction args with
  | nil => exact fun place => pure _
  | cons arg rest ih =>
    intro place
    rw [Analyze.checkPositional]
    split
    · split
      · exact ih _
      · exact (report _ _).bind fun _ => ih _
    · exact ih _

theorem checkKeyword (ctx : Context) (f : Signature TypeSet) (arg : KeywordArg) :
    Checks (Analyze.checkKeyword ctx f arg) := by
  unfold Analyze.checkKeyword
  split <;> split
  · exact pure _
  · exact report _ _
  · exact pure _
  · exact report _ _

theorem checkMissing (f : Signature TypeSet) (args : CallArgs) (span : Span) :
    Checks (Analyze.checkMissing f args span) := by
  unfold Analyze.checkMissing
  split
  · exact pure _
  · refine bind (forIn _ _ (fun param u => ?_) _) fun _ => pure _
    split
    · exact pure _
    · exact (report _ _).bind fun _ => pure _

theorem checkCall (ctx : Context) (f : Signature TypeSet) (args : CallArgs) (span : Span) :
    Checks (Analyze.checkCall ctx f args span) := by
  unfold Analyze.checkCall
  refine (checkCount _ _ _).bind fun _ => (checkPositional _ _ _ _).bind fun _ => ?_
  refine bind (forIn _ _ (fun arg u => ?_) _) fun _ => checkMissing _ _ _
  exact (checkKeyword _ _ _).bind fun _ => pure _

theorem importModule (ctx : Context) (args : CallArgs) :
    Checks (Analyze.importModule ctx args) := by
  unfold Analyze.importModule
  split
  · exact pure _
  · split
    · exact pure _
    · exact (report _ _).bind fun _ => pure _

theorem getVariable (args : CallArgs) : Checks (Analyze.getVariable args) := by
  unfold Analyze.getVariable
  split
  · exact pure _
  · refine get.bind fun a => ?_
    split
    · exact pure _
    · split
      · exact (report _ _).bind fun _ => pure _
      · exact pure _

end Checks

end Analyze

end MesonLens
