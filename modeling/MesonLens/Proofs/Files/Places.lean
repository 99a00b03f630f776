import MesonLens.Files.Source

/-!
# `MesonLens.Proofs.Files.Places`: a resolved path names one place

Files are told apart by their paths, and the paths of a project are resolved by their names alone.
So two things are to be shown of a path that `Path.normalize` gives:

* it is its own key (`Path.Resolved.key_eq`), so that equal paths and equal keys are the same, and
  it is found when it is looked up, which resolves it again (`Path.normal_normalize`);
* it leads to the place with just its names (`Disk.follow_ok`), so that a file that is there is one
  that the disk or the editor lists (`Source.mem_places_of_hasFile`). There are finitely many of
  those.
-/

set_option autoImplicit false

namespace MesonLens

/-- Dropping what is kept under one key leaves what is kept under the others. -/
theorem lookup_filter_of_ne {κ ν : Type} [DecidableEq κ] {k k' : κ} (h : k ≠ k')
    (l : List (κ × ν)) : (l.filter (·.1 ≠ k')).lookup k = l.lookup k := by
  induction l with
  | nil => rfl
  | cons p l ih =>
    obtain ⟨key, e⟩ := p
    by_cases hkey : key = k'
    · have hne : (k == key) = false := by simpa [hkey] using h
      rw [List.filter_cons_of_neg (by simp [hkey]), List.lookup_cons, hne]
      exact ih
    · rw [List.filter_cons_of_pos (by simp [hkey]), List.lookup_cons, List.lookup_cons, ih]

/-- Nothing is kept under a key that was dropped. -/
theorem lookup_filter_self {κ ν : Type} [DecidableEq κ] (k : κ) (l : List (κ × ν)) :
    (l.filter (·.1 ≠ k)).lookup k = none := by
  rw [List.lookup_eq_none_iff]
  intro p hp
  simpa using Ne.symm (of_decide_eq_true (List.mem_filter.mp hp).2)

namespace Path

/-- Every name of the path leads to some place: none is empty or a single dot, and a path from the
root has no `..`. -/
def Resolved (p : Path) : Prop :=
  ∀ name ∈ p.parts, name ≠ "" ∧ name ≠ "." ∧ (p.absolute = true → name ≠ "..")

/-- One more name keeps the names resolved. -/
theorem resolved_step {absolute : Bool} {names : List String} (name : String)
    (h : Resolved ⟨absolute, names⟩) : Resolved ⟨absolute, step absolute names name⟩ := by
  unfold step
  split
  · exact h
  · next hname =>
    split
    · -- Going up drops the last name, or adds `..` to a path that is not from the root.
      cases names with
      | nil =>
        cases absolute with
        | true => exact h
        | false => simp [Resolved, up]
      | cons top below =>
        by_cases htop : top = ".."
        · have hrelative : absolute = false := by
            cases absolute with
            | true => exact absurd htop ((h top List.mem_cons_self).2.2 rfl)
            | false => rfl
          intro n hn
          rw [up, if_pos htop] at hn
          rcases List.mem_cons.mp hn with rfl | hn
          · simp [hrelative]
          · exact h n hn
        · intro n hn
          rw [up, if_neg htop] at hn
          exact h n (List.mem_cons_of_mem _ hn)
    · next hup =>
      intro n hn
      rcases List.mem_cons.mp hn with rfl | hn
      · exact ⟨fun heq => hname (.inl heq), fun heq => hname (.inr heq), fun _ => hup⟩
      · exact h n hn

theorem resolved_foldl_step {absolute : Bool} (names resolved : List String)
    (h : Resolved ⟨absolute, resolved⟩) :
    Resolved ⟨absolute, names.foldl (step absolute) resolved⟩ := by
  induction names generalizing resolved with
  | nil => exact h
  | cons name names ih => exact ih _ (resolved_step name h)

theorem resolved_normalize (p : Path) : p.normalize.Resolved := by
  intro name hname
  exact resolved_foldl_step p.parts [] (by simp [Resolved]) name (List.mem_reverse.mp hname)

/-- A resolved path is its own key. -/
theorem Resolved.key_eq {p : Path} (h : p.Resolved) : p.key = p := by
  have hnames : (p.parts.filter fun name => name ≠ "" ∧ name ≠ ".") = p.parts := by
    rw [List.filter_eq_self]
    intro name hname
    simpa using ⟨(h name hname).1, (h name hname).2.1⟩
  have hdot : p.parts.head? ≠ some "." := by
    intro hhead
    exact (h "." (List.mem_of_head? hhead)).2.1 rfl
  unfold key
  rw [if_neg (by simp [hdot]), hnames]

/-! ### Resolving once more -/

/-- Names that resolve to themselves do so with one more name. The innermost name comes first. -/
theorem foldl_step_reverse {absolute : Bool} {names : List String} (name : String)
    (hresolved : Resolved ⟨absolute, names⟩)
    (h : names.reverse.foldl (step absolute) [] = names) :
    (step absolute names name).reverse.foldl (step absolute) [] = step absolute names name := by
  have hsnoc : ∀ top : String,
      (top :: names).reverse.foldl (step absolute) [] = step absolute names top := by
    intro top
    rw [List.reverse_cons, List.foldl_append, h]
    rfl
  by_cases hname : name = "" ∨ name = "."
  · rw [step, if_pos hname]
    exact h
  by_cases hup : name = ".."
  · subst hup
    cases names with
    | nil =>
      cases absolute with
      | true => rfl
      | false => rfl
    | cons top below =>
      obtain ⟨hempty, hdot, -⟩ := hresolved top List.mem_cons_self
      by_cases htop : top = ".."
      · have hstep : step absolute (top :: below) ".." = ".." :: top :: below := by
          simp [step, up, htop]
        rw [hstep, hsnoc, hstep]
      · -- Going up takes back the last name that was resolved.
        have hstep : step absolute (top :: below) ".." = below := by simp [step, up, htop]
        rw [List.reverse_cons, List.foldl_append, List.foldl_cons, List.foldl_nil, step,
          if_neg (by simp [hempty, hdot]), if_neg htop] at h
        rw [hstep]
        exact (List.cons.inj h).2
  · have hstep : step absolute names name = name :: names := by simp [step, hname, hup]
    rw [hstep, hsnoc, hstep]

/-- Resolving the path changes nothing. -/
def Normal (p : Path) : Prop := p.normalize = p

theorem normal_normalize (p : Path) : p.normalize.Normal := by
  have hfold : ∀ (names resolved : List String), Resolved ⟨p.absolute, resolved⟩ →
      resolved.reverse.foldl (step p.absolute) [] = resolved →
      (names.foldl (step p.absolute) resolved).reverse.foldl (step p.absolute) [] =
        names.foldl (step p.absolute) resolved := by
    intro names
    induction names with
    | nil => exact fun _ _ h => h
    | cons name names ih =>
      exact fun _ hresolved h =>
        ih _ (resolved_step name hresolved) (foldl_step_reverse name hresolved h)
  exact congrArg (fun names => Path.mk p.absolute names.reverse)
    (hfold p.parts [] (by simp [Resolved]) rfl)

theorem Normal.resolved {p : Path} (h : p.Normal) : p.Resolved := by
  have hresolved := resolved_normalize p
  rwa [show p.normalize = p from h] at hresolved

theorem Normal.child {p : Path} (h : p.Normal) {name : String}
    (hname : name ≠ "" ∧ name ≠ "." ∧ name ≠ "..") : (p.child name).Normal := by
  have hparts : (p.parts.foldl (step p.absolute) []).reverse = p.parts := congrArg Path.parts h
  have hnames : ((p.parts ++ [name]).foldl (step p.absolute) []).reverse = p.parts ++ [name] := by
    rw [List.foldl_append, List.foldl_cons, List.foldl_nil, step, if_neg (by simp [hname]),
      if_neg hname.2.2, List.reverse_cons, hparts]
  exact congrArg (Path.mk p.absolute) hnames

end Path

namespace Disk

/-- Along names of places, going from a place that is there leads on name by name. -/
theorem follow_ok {d : Disk} {here names there : List String}
    (hnames : ∀ name ∈ names, name ≠ "" ∧ name ≠ "." ∧ name ≠ "..")
    (hhere : (d.entry? here).isSome) (h : d.follow here names = .ok there) :
    there = here ++ names ∧ (d.entry? there).isSome := by
  induction names generalizing here with
  | nil =>
    cases h
    exact ⟨(List.append_nil _).symm, hhere⟩
  | cons name names ih =>
    obtain ⟨hempty, hdot, hup⟩ := hnames name List.mem_cons_self
    unfold follow at h
    split at h
    · cases h
    -- No name stays at the place or goes up, so each step leads one place further in.
    simp only [hempty, hdot, or_self, if_false] at h
    split at h
    · cases h
    split at h
    · next hthere =>
      obtain ⟨heq, hsome⟩ := ih (fun n hn => hnames n (List.mem_cons_of_mem _ hn)) hthere h
      exact ⟨by rw [heq, List.append_assoc]; rfl, hsome⟩
    · cases h

/-- Where there is something that is no directory, the disk lists it. -/
theorem mem_keys_of_entry? {d : Disk} {parts : List String} (hsome : (d.entry? parts).isSome)
    (hfile : d.isDirectoryAt parts = false) : place parts ∈ d.entries.map Prod.fst := by
  unfold isDirectoryAt at hfile
  cases hlookup : d.entries.lookup (place parts) with
  | some e =>
    obtain ⟨before, after, hsplit, -⟩ := List.lookup_eq_some_iff.mp hlookup
    simp [hsplit]
  | none =>
    have hentry : d.entry? parts = some .directory := by
      unfold entry? at hsome ⊢
      rw [hlookup] at hsome ⊢
      dsimp only at hsome ⊢
      split at hsome
      · next h => rw [if_pos h]
      · cases hsome
    rw [hentry] at hfile
    cases hfile

theorem mem_keys_of_isFile {d : Disk} {p : Path} (hp : p.Resolved) (h : d.isFile p = true) :
    p ∈ d.entries.map Prod.fst := by
  unfold isFile at h
  split at h
  · next there hfind =>
    unfold find at hfind
    split at hfind
    · cases hfind
    unfold resolve at hfind
    split at hfind
    · cases hfind
    split at hfind
    · next habsolute =>
      cases hfollow : d.follow [] p.parts with
      | error e => rw [hfollow] at hfind; cases hfind
      | ok parts =>
        rw [hfollow] at hfind
        cases hfind
        -- A resolved path from the root leads to the place that it spells.
        have hnames : ∀ name ∈ p.parts, name ≠ "" ∧ name ≠ "." ∧ name ≠ ".." := fun name hname =>
          ⟨(hp name hname).1, (hp name hname).2.1, (hp name hname).2.2 habsolute⟩
        have hroot : (d.entry? []).isSome := by
          unfold entry?
          split
          · rfl
          · rfl
        obtain ⟨heq, hsome⟩ := follow_ok hnames hroot hfollow
        have hplace : p = place parts := by
          rw [heq, List.nil_append, place, ← habsolute]
        rw [hplace]
        exact mem_keys_of_entry? hsome (Bool.not_eq_true' _ ▸ h)
    · cases hfind
  · cases h

end Disk

namespace Source

/-- The places that the editor or the disk lists. -/
def places (s : Source) (disk : Disk) : List Path :=
  s.overrides.map Prod.fst ++ disk.entries.map Prod.fst

/-- A file that is there is at one of the listed places. -/
theorem mem_places_of_hasFile {s : Source} {disk : Disk} {p : Path} (hp : p.Resolved)
    (h : s.hasFile disk p = true) : p ∈ s.places disk := by
  rw [hasFile, Bool.or_eq_true] at h
  rcases h with h | h
  · obtain ⟨text, htext⟩ := Option.isSome_iff_exists.mp h
    rw [override?, hp.key_eq] at htext
    obtain ⟨before, after, hsplit, -⟩ := List.lookup_eq_some_iff.mp htext
    simp [places, hsplit]
  · exact List.mem_append_right _ (Disk.mem_keys_of_isFile hp h)

/-- A file that can be read is there. -/
theorem hasFile_of_read {s : Source} {disk : Disk} {p : Path} {text : String}
    (h : s.read disk p = .ok text) : s.hasFile disk p = true := by
  unfold read at h
  split at h
  · next held hheld => simp [hasFile, hasOverride, hheld]
  · -- A text that is not held comes from the disk, where a directory has no text.
    rw [hasFile, Bool.or_eq_true]
    right
    unfold Disk.isFile
    unfold Disk.read at h
    cases hfind : disk.find p with
    | error e => rw [hfind] at h; cases h
    | ok there =>
      rw [hfind] at h
      show (!disk.isDirectoryAt there.parts) = true
      unfold Disk.isDirectoryAt
      split
      · next hentry =>
        simp only [bind, Except.bind, hentry] at h
        cases h
      · rfl

end Source

end MesonLens
