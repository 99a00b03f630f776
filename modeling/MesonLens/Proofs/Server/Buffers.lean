import MesonLens.Proofs.Files.Addresses
import MesonLens.Server.Session

/-!
# `MesonLens.Proofs.Server.Buffers`: what the editor shows is what is analyzed

A session keeps the documents by address. The workspace keeps the texts that take the place of
files by path, and the set of open files. Messages change the three one by one, and a rebuild may
come at any time. `InStep` says how the three fit together; each kind of change keeps it
(`InStep.put`, `InStep.save`, `InStep.drop`), hence every message does (`Session.Fits.handle`).

`Session.buffers_in_step` is the main result: it holds after every sequence of messages and
rebuilds, when documents have the addresses of resolved paths.
-/

set_option autoImplicit false

namespace MesonLens

/-! ### Files and their addresses -/

/-- The address is that of the file, and the file is known by this path. -/
structure Url.Names (url : Url) (p : Path) : Prop where
  ofPath : Url.ofPath? p = some url
  toPath : url.toPath? = some p
  key : p.key = p

namespace Url.Names

variable {url url' : Url} {p p' : Path}

theorem of_normal (hwritten : p.Written) (hnormal : p.Normal) (h : ofPath? p = some url) :
    url.Names p :=
  ⟨h, toPath?_ofPath? hwritten hnormal h, hnormal.resolved.key_eq⟩

/-- A path that some address names has an address of its own. -/
theorem of_toPath? (h : url.toPath? = some p) : ∃ url' : Url, url'.Names p := by
  obtain ⟨hwritten, hnormal, habsolute⟩ := normal_of_toPath? h
  have hsome : ∃ url', ofPath? p = some url' := by
    rw [ofPath?, if_pos habsolute]
    exact ⟨_, rfl⟩
  obtain ⟨url', hurl'⟩ := hsome
  exact ⟨url', of_normal hwritten hnormal hurl'⟩

theorem url_eq (h : url.Names p) (h' : url'.Names p) : url = url' :=
  Option.some.inj (h.ofPath.symm.trans h'.ofPath)

theorem path_eq (h : url.Names p) (h' : url.Names p') : p = p' :=
  Option.some.inj (h.toPath.symm.trans h'.toPath)

theorem key_ne (h : url.Names p) (h' : url'.Names p') (hne : url ≠ url') : p.key ≠ p'.key := by
  rw [h.key, h'.key]
  rintro rfl
  exact hne (h.url_eq h')

end Url.Names

/-! ### What was said about a document -/

namespace Message

/-- The message brings a text of the document. -/
def Edits (url : Url) : Message → Prop
  | opened u _ | changed u _ => u = url
  | _ => False

/-- The document was saved, and no text of it was brought since. -/
def SavedSince (url : Url) (said : List Message) : Prop :=
  ∃ before after, said = before ++ saved url :: after ∧ ∀ m ∈ after, ¬ m.Edits url

theorem savedSince_append_saved (url : Url) (said : List Message) :
    SavedSince url (said ++ [saved url]) :=
  ⟨said, [], rfl, fun _ h => absurd h List.not_mem_nil⟩

theorem SavedSince.append {url : Url} {said : List Message} (h : SavedSince url said)
    {m : Message} (hm : ¬ m.Edits url) : SavedSince url (said ++ [m]) := by
  obtain ⟨before, after, rfl, hafter⟩ := h
  refine ⟨before, after ++ [m], by simp, fun m' hm' => ?_⟩
  rcases List.mem_append.mp hm' with hm' | hm'
  · exact hafter m' hm'
  · exact List.mem_singleton.mp hm' ▸ hm

/-- The documents that come and go have addresses of resolved paths, and the files that are gone
are named by addresses. -/
def Addressed : Message → Prop
  | opened url _ | changed url _ | saved url | closed url =>
    ∃ text, Url.ofPath? (Path.ofString text).normalize = some url
  | deleted paths => ∀ p ∈ paths, ∃ url : Url, url.toPath? = some p
  | _ => True

theorem names_of_ofPath? {url : Url}
    (h : ∃ text, Url.ofPath? (Path.ofString text).normalize = some url) : ∃ p, url.Names p := by
  obtain ⟨text, htext⟩ := h
  exact ⟨_, .of_normal (Path.written_ofString text).normalize (Path.normal_normalize _) htext⟩

end Message

/-! ### The texts and the open files -/

namespace Source

variable {src : Source} {p q : Path} {text t : String}

theorem mem_setOverride :
    (q, t) ∈ (src.setOverride p text).overrides ↔
      q = p.key ∧ t = text ∨ (q, t) ∈ src.overrides ∧ q ≠ p.key := by
  simp [setOverride]

theorem mem_removeOverride :
    (q, t) ∈ (src.removeOverride p).overrides ↔ (q, t) ∈ src.overrides ∧ q ≠ p.key := by
  simp [removeOverride]

theorem mem_opened_openFile (h : q ∈ (src.openFile p text).opened) : q = p ∨ q ∈ src.opened := by
  unfold openFile at h
  dsimp only at h
  split at h
  · exact .inr h
  · exact List.mem_cons.mp h

theorem override?_eq_none_iff :
    src.override? p = none ↔ ∀ text, (p.key, text) ∉ src.overrides := by
  rw [override?, List.lookup_eq_none_iff]
  constructor
  · intro h text hmem
    simpa using h _ hmem
  · rintro h ⟨q, text⟩ hmem
    simp only [bne_iff_ne, ne_eq]
    rintro rfl
    exact h text hmem

/-- Closing files drops their texts and nothing else. -/
theorem mem_overrides_foldl_close (paths : List Path) :
    (q, t) ∈ (paths.foldl close src).overrides ↔
      (q, t) ∈ src.overrides ∧ ∀ p ∈ paths, q ≠ p.key := by
  induction paths generalizing src with
  | nil => simp
  | cons p paths ih =>
    have hclose : (q, t) ∈ (src.close p).overrides ↔ (q, t) ∈ src.overrides ∧ q ≠ p.key :=
      mem_removeOverride
    rw [List.foldl_cons, ih, hclose, and_assoc, List.forall_mem_cons]

/-- Of the files that are closed none stays open. -/
theorem mem_opened_foldl_close (paths : List Path) :
    q ∈ (paths.foldl close src).opened ↔ q ∈ src.opened ∧ ∀ p ∈ paths, q.key ≠ p.key := by
  induction paths generalizing src with
  | nil => simp
  | cons p paths ih =>
    have hclose : q ∈ (src.close p).opened ↔ q ∈ src.opened ∧ q.key ≠ p.key := by
      simp [close]
    rw [List.foldl_cons, ih, hclose, and_assoc, List.forall_mem_cons]

/-- What a change does to the texts and the open files. -/
def after (src : Source) : Signal → Source
  | .opened p text => src.openFile p text
  | .changed p text => src.setOverride p text
  | .saved p => src.removeOverride p
  | .closed p => src.close p
  | .created _ | .reload => src
  | .deleted paths => paths.foldl close src

end Source

theorem Workspace.source_record (w : Workspace) (signal : Signal) :
    (w.record signal).source = w.source.after signal := by
  cases signal with
  | deleted paths =>
    show (paths.foldl forget w).source = paths.foldl Source.close w.source
    induction paths generalizing w with
    | nil => rfl
    | cons p paths ih => exact ih (w.forget p)
  | _ => rfl

/-! ### How the three fit together -/

/-- The documents that are shown, the texts that take the place of files and the open files fit
together after some messages. -/
structure InStep (shown : Url → Option String) (src : Source) (said : List Message) : Prop where
  /-- A text is held for a file only as its document shows it. -/
  held : ∀ p text, (p, text) ∈ src.overrides → ∃ url : Url, url.Names p ∧ shown url = some text
  /-- A document is one of a file, and its text is held unless it was saved. -/
  kept : ∀ url text, shown url = some text → ∃ p, url.Names p ∧
    (src.override? p = none → Message.SavedSince url said)
  /-- An open file has a document. -/
  opened : ∀ p ∈ src.opened, ∃ url : Url, url.Names p ∧ (shown url).isSome

namespace InStep

variable {shown : Url → Option String} {src : Source} {said : List Message}

theorem empty : InStep (fun _ => none) {} [] where
  held _ _ h := absurd h List.not_mem_nil
  kept _ _ h := nomatch h
  opened _ h := absurd h List.not_mem_nil

/-- A message that brings no text may be said besides. -/
theorem say (h : InStep shown src said) {m : Message} (hm : ∀ url, ¬ m.Edits url) :
    InStep shown src (said ++ [m]) where
  held := h.held
  kept url text htext := by
    obtain ⟨p, hp, hsaved⟩ := h.kept url text htext
    exact ⟨p, hp, fun hnone => (hsaved hnone).append (hm url)⟩
  opened := h.opened

/-- A document comes with a new text. It may be opened by that. -/
theorem put (h : InStep shown src said) {url : Url} {p : Path} (hp : url.Names p)
    {text : String} {src' : Source} (hover : src'.overrides = (src.setOverride p text).overrides)
    (hopen : ∀ q ∈ src'.opened, q = p ∨ q ∈ src.opened) {m : Message}
    (hm : ∀ u, m.Edits u → u = url) :
    InStep (fun u => if u = url then some text else shown u) src' (said ++ [m]) where
  held q t hmem := by
    rw [hover, Source.mem_setOverride, hp.key] at hmem
    rcases hmem with ⟨rfl, rfl⟩ | ⟨hmem, hne⟩
    · exact ⟨url, hp, if_pos rfl⟩
    · obtain ⟨u, hu, htext⟩ := h.held q t hmem
      have hother : u ≠ url := fun heq => hne ((heq ▸ hu).path_eq hp)
      exact ⟨u, hu, (if_neg hother).trans htext⟩
  kept u t htext := by
    by_cases hu : u = url
    · -- The text that has just come is held.
      subst hu
      refine ⟨p, hp, fun hnone => absurd ?_ (Source.override?_eq_none_iff.mp hnone text)⟩
      rw [hover]
      exact Source.mem_setOverride.mpr (.inl ⟨rfl, rfl⟩)
    · rw [if_neg hu] at htext
      obtain ⟨q, hq, hsaved⟩ := h.kept u t htext
      refine ⟨q, hq, fun hnone => (hsaved ?_).append fun hedit => hu (hm u hedit)⟩
      rw [Source.override?_eq_none_iff, hover] at hnone
      exact Source.override?_eq_none_iff.mpr fun t' ht' =>
        hnone t' (Source.mem_setOverride.mpr (.inr ⟨ht', hq.key_ne hp hu⟩))
  opened q hq := by
    rcases hopen q hq with rfl | hq
    · exact ⟨url, hp, by rw [if_pos rfl]; rfl⟩
    · obtain ⟨u, hu, hsome⟩ := h.opened q hq
      refine ⟨u, hu, ?_⟩
      split
      · rfl
      · exact hsome

/-- A document is saved, so that the disk tells its text. -/
theorem save (h : InStep shown src said) {url : Url} {p : Path} (hp : url.Names p) :
    InStep shown (src.removeOverride p) (said ++ [.saved url]) where
  held q t hmem := h.held q t (Source.mem_removeOverride.mp hmem).1
  kept u t htext := by
    obtain ⟨q, hq, hsaved⟩ := h.kept u t htext
    refine ⟨q, hq, fun hnone => ?_⟩
    by_cases hu : u = url
    · exact hu ▸ Message.savedSince_append_saved u said
    · refine (hsaved ?_).append id
      rw [Source.override?_eq_none_iff] at hnone
      exact Source.override?_eq_none_iff.mpr fun t' ht' =>
        hnone t' (Source.mem_removeOverride.mpr ⟨ht', hq.key_ne hp hu⟩)
  opened := h.opened

/-- Documents go with their files. -/
theorem drop (h : InStep shown src said) {paths : List Path} {gone : List Url}
    (hgone : ∀ url, url ∈ gone ↔ ∃ p ∈ paths, url.Names p)
    (hpaths : ∀ p ∈ paths, ∃ url : Url, url.Names p) {m : Message} (hm : ∀ url, ¬ m.Edits url) :
    InStep (fun u => if u ∈ gone then none else shown u) (paths.foldl Source.close src)
      (said ++ [m]) where
  held q t hmem := by
    obtain ⟨hmem, hne⟩ := (Source.mem_overrides_foldl_close paths).mp hmem
    obtain ⟨u, hu, htext⟩ := h.held q t hmem
    refine ⟨u, hu, (if_neg ?_).trans htext⟩
    rw [hgone]
    rintro ⟨p, hp, hup⟩
    exact hne p hp (by rw [hup.key, hu.path_eq hup])
  kept u t htext := by
    split at htext
    · cases htext
    · next hu =>
      obtain ⟨q, hq, hsaved⟩ := h.kept u t htext
      refine ⟨q, hq, fun hnone => (hsaved ?_).append (hm u)⟩
      -- A document that is still shown is at none of the paths that are gone.
      have hother : ∀ p ∈ paths, q.key ≠ p.key := by
        intro p hp
        obtain ⟨u', hu'⟩ := hpaths p hp
        refine hq.key_ne hu' ?_
        rintro rfl
        exact hu ((hgone u).mpr ⟨p, hp, hu'⟩)
      rw [Source.override?_eq_none_iff] at hnone ⊢
      exact fun t' ht' => hnone t' ((Source.mem_overrides_foldl_close paths).mpr ⟨ht', hother⟩)
  opened q hq := by
    obtain ⟨hq, hne⟩ := (Source.mem_opened_foldl_close paths).mp hq
    obtain ⟨u, hu, hsome⟩ := h.opened q hq
    refine ⟨u, hu, ?_⟩
    rw [if_neg]
    · exact hsome
    rw [hgone]
    rintro ⟨p, hp, hup⟩
    exact hne p hp (by rw [hu.path_eq hup])

end InStep

/-! ### Messages and rebuilds -/

namespace Session

variable {s : Session} {src : Source} {said : List Message}

theorem text?_showDocument (s : Session) (url : Url) (text : String) :
    (s.showDocument url text).text? = fun u => if u = url then some text else s.text? u := by
  funext u
  show List.lookup u ((url, text) :: s.documents.filter (·.1 ≠ url)) = _
  by_cases hu : u = url
  · rw [if_pos hu, hu, List.lookup_cons_self]
  · have hne : (u == url) = false := by simpa using hu
    rw [if_neg hu, List.lookup_cons, hne]
    exact lookup_filter_of_ne hu s.documents

theorem text?_hide (s : Session) (url : Url) :
    (s.hide url).text? = fun u => if u = url then none else s.text? u := by
  funext u
  by_cases hu : u = url
  · rw [if_pos hu, hu]
    exact lookup_filter_self url s.documents
  · rw [if_neg hu]
    exact lookup_filter_of_ne hu s.documents

theorem text?_foldl_hide (s : Session) (urls : List Url) :
    (urls.foldl hide s).text? = fun u => if u ∈ urls then none else s.text? u := by
  induction urls generalizing s with
  | nil => simp
  | cons url urls ih =>
    rw [List.foldl_cons, ih, text?_hide]
    funext u
    by_cases hu : u = url <;> simp [hu]

/-- The texts and the open files of the workspace. -/
def source? (s : Session) : Option Source := s.workspace.map (·.source)

theorem source?_foldl_hide (s : Session) (urls : List Url) :
    (urls.foldl hide s).source? = s.source? := by
  induction urls generalizing s with
  | nil => rfl
  | cons url urls ih => exact ih (s.hide url)

/-- The session has a workspace, and its documents fit together with the files of the workspace
after what was said. -/
def Fits (s : Session) (said : List Message) : Prop :=
  ∃ src, s.source? = some src ∧ InStep s.text? src said

theorem fits_begin (root : Path) : (({} : Session).begin (some root)).Fits [] :=
  ⟨{}, rfl, .empty⟩

/-- A change that is passed on is made to the files, and to nothing else that matters. -/
theorem fits_send (hsrc : s.source? = some src) {signal : Signal}
    (h : InStep s.text? (src.after signal) said) : (s.send signal).Fits said := by
  unfold source? at hsrc
  unfold send
  cases hw : s.workspace with
  | none => rw [hw] at hsrc; cases hsrc
  | some w =>
    rw [hw] at hsrc
    obtain rfl : w.source = src := Option.some.inj hsrc
    exact ⟨(w.record signal).source, rfl, Workspace.source_record w signal ▸ h⟩

/-- A change of a document is one of the file that its address names. -/
theorem fits_sendFor (hsrc : s.source? = some src) {url : Url} {p : Path} (hp : url.Names p)
    {signal : Path → Signal} (h : InStep s.text? (src.after (signal p)) said) :
    (s.sendFor url signal).Fits said := by
  rw [sendFor, hp.toPath]
  exact fits_send hsrc h

theorem Fits.say (h : s.Fits said) {m : Message} (hm : ∀ url, ¬ m.Edits url) :
    s.Fits (said ++ [m]) := by
  obtain ⟨src, hsrc, hfits⟩ := h
  exact ⟨src, hsrc, hfits.say hm⟩

theorem Fits.loadSettings (h : s.Fits said) (env : Environment) :
    (s.loadSettings env).Fits said := by
  obtain ⟨src, hsrc, hfits⟩ := h
  unfold Session.loadSettings
  split
  · exact ⟨src, hsrc, hfits⟩
  · refine ⟨src, ?_, hfits⟩
    rw [← hsrc, source?, source?, Option.map_map]
    rfl

/-- Files are gone, and their documents with them. -/
theorem Fits.dropFiles (h : s.Fits said) {paths : List Path}
    (hpaths : ∀ p ∈ paths, ∃ url : Url, url.Names p) {m : Message} (hm : ∀ url, ¬ m.Edits url) :
    (s.dropFiles paths).Fits (said ++ [m]) := by
  obtain ⟨src, hsrc, hfits⟩ := h
  have hgone : ∀ url : Url, url ∈ paths.filterMap Url.ofPath? ↔ ∃ p ∈ paths, url.Names p := by
    intro url
    rw [List.mem_filterMap]
    constructor
    · rintro ⟨p, hp, hurl⟩
      obtain ⟨u, hu⟩ := hpaths p hp
      obtain rfl : u = url := Option.some.inj (hu.ofPath.symm.trans hurl)
      exact ⟨p, hp, hu⟩
    · rintro ⟨p, hp, hurl⟩
      exact ⟨p, hp, hurl.ofPath⟩
  have hdrop := hfits.drop hgone hpaths hm
  rw [← text?_foldl_hide] at hdrop
  rw [← source?_foldl_hide s (paths.filterMap Url.ofPath?)] at hsrc
  unfold Session.dropFiles
  cases paths with
  | nil => exact ⟨src, hsrc, hdrop⟩
  | cons p rest => exact fits_send hsrc hdrop

/-- Every message keeps documents and files in step. -/
theorem Fits.handle (h : s.Fits said) (env : Environment) {m : Message} (hm : m.Addressed) :
    (s.handle env m).session.Fits (said ++ [m]) := by
  cases m with
  | opened url text =>
    obtain ⟨p, hp⟩ := Message.names_of_ofPath? hm
    obtain ⟨src, hsrc, hfits⟩ := h
    refine fits_sendFor (s := s.showDocument url text) hsrc hp ?_
    rw [text?_showDocument]
    -- Opening a file is a change to its text that also marks the file as open.
    have hopen : ∀ q ∈ (src.openFile p text).opened, q = p ∨ q ∈ src.opened :=
      fun q hq => Source.mem_opened_openFile hq
    have hover : (src.openFile p text).overrides = (src.setOverride p text).overrides := rfl
    exact hfits.put hp hover hopen fun u hu => Eq.symm hu
  | changed url changes =>
    obtain ⟨p, hp⟩ := Message.names_of_ofPath? hm
    obtain ⟨src, hsrc, hfits⟩ := h
    refine fits_sendFor (s := s.showDocument url _) hsrc hp ?_
    rw [text?_showDocument]
    exact hfits.put hp rfl (fun q hq => .inr hq) fun u hu => Eq.symm hu
  | saved url =>
    obtain ⟨p, hp⟩ := Message.names_of_ofPath? hm
    obtain ⟨src, hsrc, hfits⟩ := h
    exact fits_sendFor hsrc hp (hfits.save hp)
  | closed url =>
    obtain ⟨p, hp⟩ := Message.names_of_ofPath? hm
    obtain ⟨src, hsrc, hfits⟩ := h
    refine fits_sendFor (s := s.hide url) hsrc hp ?_
    -- A path has one address, so the document that goes is the only one of its file.
    have hgone : ∀ u : Url, u ∈ [url] ↔ ∃ q ∈ [p], u.Names q := by
      intro u
      simp only [List.mem_singleton, exists_eq_left]
      exact ⟨fun hu => hu ▸ hp, fun hu => hu.url_eq hp⟩
    have hdrop := hfits.drop hgone (fun q hq => ⟨url, List.mem_singleton.mp hq ▸ hp⟩)
      (m := .closed url) fun _ => id
    simp only [List.mem_singleton] at hdrop
    rw [text?_hide]
    exact hdrop
  | deleted paths =>
    refine h.dropFiles (fun p hp => ?_) fun _ => id
    obtain ⟨url, hurl⟩ := hm p hp
    exact Url.Names.of_toPath? hurl
  | created paths =>
    obtain ⟨src, hsrc, hfits⟩ := h.say (m := .created paths) fun _ => id
    show (if paths.isEmpty then s else s.send (.created paths)).Fits _
    split
    · exact ⟨src, hsrc, hfits⟩
    · exact fits_send hsrc hfits
  | started =>
    obtain ⟨src, hsrc, hfits⟩ := (h.loadSettings env).say (m := .started) fun _ => id
    exact fits_send hsrc hfits
  | settingsChanged => exact (h.loadSettings env).say fun _ => id
  | hints url range =>
    have hsay := h.say (m := .hints url range) fun _ => id
    unfold Session.handle
    dsimp only
    split <;> exact hsay
  | formatting url =>
    have hsay := h.say (m := .formatting url) fun _ => id
    show (s.format env url).session.Fits _
    unfold format
    split
    · exact hsay
    · dsimp only
      split <;> exact hsay
  | _ => exact h.say fun _ => id

/-! ### Whole sessions -/

theorem source_advance (disk : Disk) (c : Catalog) (w : Workspace) (a : Attempt) :
    (a.advance disk c w).workspace.source = w.source := by
  unfold Attempt.advance
  split
  · dsimp only
    split <;> rfl
  all_goals rfl

theorem source_step (disk : Disk) (c : Catalog) (w : Workspace) (a : Attempt) :
    (a.step disk c w).workspace.source = w.source := by
  unfold Attempt.step
  split
  · split
    · exact source_advance disk c w a
    · rfl
  · rfl

theorem source_steps (disk : Disk) (c : Catalog) (n : Nat) (w : Workspace) (a : Attempt) :
    (Attempt.steps disk c n w a).workspace.source = w.source := by
  induction n generalizing w a with
  | zero => rfl
  | succ n ih => exact (ih _ _).trans (source_step disk c w a)

/-- Rebuilds read the files, and change none. -/
theorem Fits.rebuildAll (h : s.Fits said) (env : Environment) (generations : List Nat) :
    (s.rebuildAll env generations).1.Fits said := by
  induction generations generalizing s with
  | nil => exact h
  | cons g generations ih =>
    have hfirst : (s.rebuild env g).1.Fits said := by
      obtain ⟨src, hsrc, hfits⟩ := h
      unfold rebuild
      unfold source? at hsrc
      cases hw : s.workspace with
      | none => rw [hw] at hsrc; cases hsrc
      | some w =>
        rw [hw] at hsrc
        obtain rfl : w.source = src := Option.some.inj hsrc
        -- An attempt takes three steps, and none of them touches the texts that are held.
        have hsource : (Attempt.run env.disk env.catalog w g).1.source = w.source :=
          source_steps env.disk env.catalog 3 w (.waiting g)
        refine ⟨(Attempt.run env.disk env.catalog w g).1.source, rfl, ?_⟩
        rw [hsource]
        exact hfits
    exact ih hfirst

/-- What happens in a session, each time with the world as it is then. -/
inductive Turn where
  | hears (env : Environment) (m : Message)
  /-- The waiting rebuilds are carried out. -/
  | rebuilds (env : Environment)

/-- The message that is heard. -/
def Turn.message? : Turn → Option Message
  | hears _ m => some m
  | rebuilds _ => none

/-- The session after one more turn. -/
def turn (s : Session) : Turn → Session
  | .hears env m => (s.handle env m).session
  | .rebuilds env => (s.settle env).1

theorem Fits.turns (h : s.Fits said) (turns : List Turn)
    (hturns : ∀ m ∈ turns.filterMap Turn.message?, m.Addressed) :
    (turns.foldl turn s).Fits (said ++ turns.filterMap Turn.message?) := by
  induction turns generalizing s said with
  | nil => simpa using h
  | cons t turns ih =>
    cases t with
    | hears env m =>
      have hm := hturns m List.mem_cons_self
      have hrest := ih (h.handle env hm) fun m' hm' => hturns m' (List.mem_cons_of_mem _ hm')
      rw [List.append_assoc, List.singleton_append] at hrest
      exact hrest
    | rebuilds env =>
      -- What waits to be rebuilt plays no part in the invariant.
      have hready : Fits { s with waiting := [] } said := h
      exact ih (hready.rebuildAll env s.waiting) hturns

/-- The session that an editor starts for a directory, after some turns. -/
def afterTurns (root : Path) (turns : List Turn) : Session :=
  turns.foldl turn (({} : Session).begin (some root))

/-- After any messages and rebuilds, documents and files are in step: a text takes the place of a
file only when the document of the file shows just this text; a document whose text does not take
the place of its file was saved, and its text has not changed since; an open file has a
document. -/
theorem buffers_in_step (root : Path) (turns : List Turn)
    (hturns : ∀ m ∈ turns.filterMap Turn.message?, m.Addressed) :
    ∃ w, (afterTurns root turns).workspace = some w ∧
      (∀ p text, (p, text) ∈ w.source.overrides →
        ∃ url : Url, url.Names p ∧ (afterTurns root turns).text? url = some text) ∧
      (∀ url text, (afterTurns root turns).text? url = some text →
        ∃ p, url.Names p ∧ (w.source.override? p = none →
          Message.SavedSince url (turns.filterMap Turn.message?))) ∧
      ∀ p ∈ w.source.opened,
        ∃ url : Url, url.Names p ∧ ∃ text, (afterTurns root turns).text? url = some text := by
  obtain ⟨src, hsrc, hfits⟩ := (fits_begin root).turns turns hturns
  obtain ⟨w, hw, rfl⟩ := Option.map_eq_some_iff.mp hsrc
  refine ⟨w, hw, hfits.held, hfits.kept, fun p hp => ?_⟩
  obtain ⟨url, hurl, hsome⟩ := hfits.opened p hp
  exact ⟨url, hurl, Option.isSome_iff_exists.mp hsome⟩

/-- A file is edited, saved and edited once more, and another is edited without being opened and
then goes. -/
def editing : List Turn :=
  let env : Environment :=
    { disk := {}, catalog := {}, settings := .refused, run := fun _ _ => .notStarted "" }
  let file (name : String) : Url :=
    { scheme := "file", authority := some {}, route := .steps ["proj", name] }
  [.hears env (.opened (file "meson.build") "a"), .hears env (.saved (file "meson.build")),
    .hears env (.changed (file "b%20c") [⟨none, "b"⟩]), .rebuilds env,
    .hears env (.changed (file "meson.build") [⟨some ⟨0, 1, 0, 1⟩, "b"⟩]),
    .hears env (.deleted [Path.ofString "/proj/b c"]), .hears env (.created [])]

/-- At the end one file has a text in its place, which is the one that its document shows. -/
theorem buffers_in_step_editing :
    (∀ m ∈ editing.filterMap Turn.message?, m.Addressed) ∧
      ∃ w, (afterTurns (Path.ofString "/proj") editing).workspace = some w ∧
        w.source.overrides = [(Path.ofString "/proj/meson.build", "ab")] ∧
        ∃ url : Url, url.Names (Path.ofString "/proj/meson.build") ∧
          (afterTurns (Path.ofString "/proj") editing).text? url = some "ab" := by
  have haddressed : ∀ m ∈ editing.filterMap Turn.message?, m.Addressed := by
    intro m hm
    simp only [editing, List.filterMap_cons, Turn.message?, List.filterMap_nil, List.mem_cons,
      List.not_mem_nil, or_false] at hm
    rcases hm with rfl | rfl | rfl | rfl | rfl | rfl
    · exact ⟨"/proj/meson.build", by decide +kernel⟩
    · exact ⟨"/proj/meson.build", by decide +kernel⟩
    · exact ⟨"/proj/b c", by decide +kernel⟩
    · exact ⟨"/proj/meson.build", by decide +kernel⟩
    · intro p hp
      obtain rfl := List.mem_singleton.mp hp
      exact ⟨{ scheme := "file", authority := some {}, route := .steps ["proj", "b%20c"] },
        by decide +kernel⟩
    · trivial
  obtain ⟨w, hw, hheld, -, -⟩ := buffers_in_step (Path.ofString "/proj") editing haddressed
  have hoverrides : (afterTurns (Path.ofString "/proj") editing).workspace.map
      (·.source.overrides) = some [(Path.ofString "/proj/meson.build", "ab")] := by
    decide +kernel
  rw [hw] at hoverrides
  have hsource : w.source.overrides = [(Path.ofString "/proj/meson.build", "ab")] :=
    Option.some.inj hoverrides
  have hmem : (Path.ofString "/proj/meson.build", "ab") ∈ w.source.overrides := by
    rw [hsource]
    exact List.mem_singleton_self _
  exact ⟨haddressed, w, hw, hsource, hheld _ _ hmem⟩

end Session

end MesonLens
