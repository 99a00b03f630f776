import Mathlib.Logic.Relation
import MesonLens.Project.Tree
import MesonLens.Proofs.Files.Places

/-!
# `MesonLens.Proofs.Files.Spellings`: all spellings of a path resolve to one

A path can be spelled in many ways: slashes are repeated, and parts stand in it that lead nowhere,
such as `.` and a name with `..` behind it. `Path.Shortens` leaves out one such part, anywhere in
the path, and two paths are spellings of one place (`Path.Respells`) if parts can be left out and
put in until one has become the other.

`Path.normalize` does not look for such parts. It goes over the names once, from the first to the
last, and a `..` takes back the name that was kept last. The two agree:

* `Path.reaches_normalize`: a path is resolved by leaving parts out;
* `Path.Shortens.normalize_eq`: leaving a part out does not change what a path is resolved to;
* `Path.normalize_eq_iff`: so paths are resolved to the same one if and only if they are spellings
  of one place.

`Path.normalize_canonical` adds the shape of a resolved path (`Path.Canonical`), what becomes of a
path that is seen from a resolved directory, and that inclusions are told apart by the places they
name and not by how these are spelled.
-/

set_option autoImplicit false

namespace MesonLens

namespace Path

variable {absolute : Bool} {stack : List String} {name : String} {p p' q : Path}

/-! ### Spellings -/

/-- A name that leads further down. -/
def IsName (name : String) : Prop := name ≠ "" ∧ name ≠ "." ∧ name ≠ ".."

/-- A part of the path that leads nowhere is left out. -/
inductive Shortens : Path → Path → Prop where
  /-- Nothing stands between two slashes, or a dot. -/
  | blank {absolute : Bool} {before : List String} {name : String} {after : List String} :
      name = "" ∨ name = "." →
        Shortens ⟨absolute, before ++ name :: after⟩ ⟨absolute, before ++ after⟩
  /-- A name is taken back. -/
  | back {absolute : Bool} {before : List String} {name : String} {after : List String} :
      IsName name →
        Shortens ⟨absolute, before ++ name :: ".." :: after⟩ ⟨absolute, before ++ after⟩
  /-- The root is its own parent. -/
  | root {after : List String} : Shortens ⟨true, ".." :: after⟩ ⟨true, after⟩

/-- The paths differ only by parts that lead nowhere. -/
def Respells : Path → Path → Prop := Relation.EqvGen Shortens

/-! ### One name -/

theorem step_of_blank (h : name = "" ∨ name = ".") : step absolute stack name = stack := if_pos h

theorem step_up : step absolute stack ".." = up absolute stack := by
  rw [step, if_neg (by decide), if_pos rfl]

theorem IsName.step_eq (h : IsName name) : step absolute stack name = name :: stack := by
  rw [step, if_neg (by simp [h.1, h.2.1]), if_neg h.2.2]

theorem IsName.up_eq (h : IsName name) : up absolute (name :: stack) = stack := if_neg h.2.2

/-- Resolving one more name leaves a part out, or puts the name to those that are kept. -/
theorem reaches_step (name : String) (rest : List String) (h : Resolved ⟨absolute, stack⟩) :
    Relation.ReflTransGen Shortens ⟨absolute, stack.reverse ++ name :: rest⟩
      ⟨absolute, (step absolute stack name).reverse ++ rest⟩ := by
  by_cases hblank : name = "" ∨ name = "."
  · rw [step_of_blank hblank]
    exact .single (.blank hblank)
  by_cases hup : name = ".."
  · subst hup
    rw [step_up]
    cases stack with
    | nil =>
      cases absolute with
      | true => exact .single .root
      | false =>
        -- The path leads out of where it starts, and `..` is kept.
        exact .refl
    | cons top below =>
      by_cases htop : top = ".."
      · -- There is no name to take back, and `..` stays.
        rw [up, if_pos htop, List.reverse_cons (a := ".."), List.append_assoc]
        exact .refl
      · obtain ⟨hempty, hdot, -⟩ := h top List.mem_cons_self
        have hname : IsName top := ⟨hempty, hdot, htop⟩
        rw [hname.up_eq, List.reverse_cons, List.append_assoc]
        exact .single (.back hname)
  · have hname : IsName name := ⟨fun h => hblank (.inl h), fun h => hblank (.inr h), hup⟩
    rw [hname.step_eq, List.reverse_cons, List.append_assoc]
    exact .refl

/-! ### Resolving -/

theorem reaches_foldl_step (names : List String) (h : Resolved ⟨absolute, stack⟩) :
    Relation.ReflTransGen Shortens ⟨absolute, stack.reverse ++ names⟩
      ⟨absolute, (names.foldl (step absolute) stack).reverse⟩ := by
  induction names generalizing stack with
  | nil => rw [List.append_nil]; exact .refl
  | cons name names ih => exact (reaches_step name names h).trans (ih (resolved_step name h))

/-- A path is resolved by leaving parts out. -/
theorem reaches_normalize (p : Path) : Relation.ReflTransGen Shortens p p.normalize := by
  have hnone : Resolved ⟨p.absolute, []⟩ := nofun
  exact reaches_foldl_step p.parts hnone

/-- A path is resolved to the same as one with a part less. -/
theorem Shortens.normalize_eq (h : Shortens p q) : p.normalize = q.normalize := by
  cases h with
  | blank hblank =>
    simp only [normalize, List.foldl_append, List.foldl_cons, step_of_blank hblank]
  | back hname =>
    simp only [normalize, List.foldl_append, List.foldl_cons, hname.step_eq, step_up, hname.up_eq]
  | root => rfl

theorem Respells.normalize_eq (h : Respells p q) : p.normalize = q.normalize := by
  induction h with
  | rel _ _ h => exact h.normalize_eq
  | refl => rfl
  | symm _ _ _ ih => exact ih.symm
  | trans _ _ _ _ _ ih₁ ih₂ => exact ih₁.trans ih₂

theorem respells_normalize (p : Path) : Respells p p.normalize :=
  Relation.EqvGen.reflTransGen_le_eqvGen Shortens _ _ (reaches_normalize p)

/-- Paths are resolved to the same one if and only if they are spellings of one place. -/
theorem normalize_eq_iff (p q : Path) : p.normalize = q.normalize ↔ Respells p q := by
  refine ⟨fun h => ?_, Respells.normalize_eq⟩
  have hp := respells_normalize p
  rw [h] at hp
  exact .trans _ _ _ hp (.symm _ _ (respells_normalize q))

/-! ### Seen from a directory -/

theorem Shortens.join (h : Shortens p p') (hq : q.absolute = false) :
    Shortens (p.join q) (p'.join q) := by
  cases h with
  | blank hblank => simpa [Path.join, hq] using .blank hblank
  | back hname => simpa [Path.join, hq] using .back hname
  | root => simpa [Path.join, hq] using .root

/-- It does not matter how the directory is spelled that a path is seen from. -/
theorem Respells.join (h : Respells p p') (q : Path) : Respells (p.join q) (p'.join q) := by
  cases hq : q.absolute with
  | true =>
    -- A path from the root is seen as itself from everywhere.
    rw [Path.join, Path.join, if_pos hq, if_pos hq]
    exact .refl q
  | false =>
    induction h with
    | rel _ _ h => exact .rel _ _ (h.join hq)
    | refl => exact .refl _
    | symm _ _ _ ih => exact .symm _ _ ih
    | trans _ _ _ _ _ ih₁ ih₂ => exact .trans _ _ _ ih₁ ih₂

/-! ### The shape of a resolved path -/

/-- First the path goes up, which one from the root does not, and then down name by name. -/
def Canonical (p : Path) : Prop :=
  ∃ ups names, p.parts = List.replicate ups ".." ++ names ∧ (∀ name ∈ names, IsName name) ∧
    (p.absolute = true → ups = 0)

theorem up_replicate (ups : Nat) :
    up false (List.replicate ups "..") = List.replicate (ups + 1) ".." := by
  cases ups with
  | zero => rfl
  | succ n => simp [up, List.replicate_succ]

/-- Names that were kept, the innermost first, have the shape if no `..` was kept after a name that
leads further down. -/
theorem canonical_reverse {names : List String} {ups : Nat} (hnames : ∀ name ∈ names, IsName name)
    (hroot : absolute = true → ups = 0) :
    Canonical ⟨absolute, (names ++ List.replicate ups "..").reverse⟩ :=
  ⟨ups, names.reverse, by simp, by simpa using hnames, hroot⟩

/-- One more name keeps the shape. -/
theorem canonical_step (name : String) (h : Canonical ⟨absolute, stack.reverse⟩) :
    Canonical ⟨absolute, (step absolute stack name).reverse⟩ := by
  by_cases hblank : name = "" ∨ name = "."
  · rwa [step_of_blank hblank]
  obtain ⟨ups, down, hparts, hdown, hroot⟩ := h
  -- The names are taken in the order of the stack, the innermost first.
  obtain ⟨names, rfl⟩ : ∃ names, down = names.reverse := ⟨down.reverse, by simp⟩
  have hnames : ∀ name ∈ names, IsName name := by simpa using hdown
  obtain rfl : stack = names ++ List.replicate ups ".." := by
    rw [← List.reverse_inj, show stack.reverse = _ from hparts]
    simp
  by_cases hup : name = ".."
  · subst hup
    rw [step_up]
    cases names with
    | nil =>
      -- There is no name to take back.
      cases absolute with
      | true =>
        obtain rfl := hroot rfl
        exact canonical_reverse hnames fun _ => rfl
      | false =>
        have hrelative : false = true → ups + 1 = 0 := nofun
        rw [List.nil_append, up_replicate]
        exact canonical_reverse hnames hrelative
    | cons top below =>
      rw [List.cons_append, (hnames top List.mem_cons_self).up_eq]
      exact canonical_reverse (fun name hname => hnames name (List.mem_cons_of_mem _ hname)) hroot
  · have hname : IsName name := ⟨fun h => hblank (.inl h), fun h => hblank (.inr h), hup⟩
    rw [hname.step_eq, ← List.cons_append]
    exact canonical_reverse (List.forall_mem_cons.mpr ⟨hname, hnames⟩) hroot

theorem canonical_foldl_step (names : List String) (h : Canonical ⟨absolute, stack.reverse⟩) :
    Canonical ⟨absolute, (names.foldl (step absolute) stack).reverse⟩ := by
  induction names generalizing stack with
  | nil => exact h
  | cons name names ih => exact ih (canonical_step name h)

theorem canonical_normalize (p : Path) : p.normalize.Canonical :=
  canonical_foldl_step p.parts ⟨0, [], rfl, nofun, fun _ => rfl⟩

/-! ### Inclusions -/

theorem buildFile_inj : buildFile p = buildFile q ↔ p = q := by
  refine ⟨fun h => ?_, congrArg buildFile⟩
  obtain ⟨habsolute, hparts⟩ := Path.mk.inj h
  exact congrArg₂ Path.mk habsolute (List.append_cancel_right hparts)

/-- Resolved paths stand for all spellings.

* Resolving a path again changes nothing.
* A resolved path goes up first, unless it is from the root, and then down name by name.
* A path is the same from a directory and from the resolved directory.
* Two paths are resolved to the same one if and only if they differ by parts that lead nowhere.
* Two inclusions have the same build file if and only if the paths of their directories, each seen
  from the directory of its file, differ by parts that lead nowhere. -/
theorem normalize_canonical (p : Path) :
    p.normalize.normalize = p.normalize ∧ p.normalize.Canonical ∧
      (∀ q : Path, (p.normalize.join q).normalize = (p.join q).normalize) ∧
      (∀ q : Path, p.normalize = q.normalize ↔ Respells p q) ∧
      ∀ (q : Path) (i j : Include),
        buildFile (BuildTree.includedDir p i) = buildFile (BuildTree.includedDir q j) ↔
          Respells (p.join (ofString i.dir)) (q.join (ofString j.dir)) := by
  refine ⟨normal_normalize p, canonical_normalize p, fun q => ?_, normalize_eq_iff p, ?_⟩
  · exact ((respells_normalize p).join q).normalize_eq.symm
  · intro q i j
    rw [buildFile_inj]
    exact normalize_eq_iff _ _

example : BuildTree.includedDir ⟨true, ["p"]⟩ ⟨0, "./a//../../b/", {}⟩ = ⟨true, ["b"]⟩ := by decide

end Path

end MesonLens
