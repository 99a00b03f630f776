import MesonLens.Proofs.Analysis.Outcome

/-!
# `MesonLens.Proofs.Analysis.Origins`: where origins come from

An origin is a place: a file, the number of a node, and a stretch. Scopes are copied at branches,
joined after them, and handed on at inclusions, and with each of them the origins are copied. Here
it is shown that no origin is ever made up.

* `Tree.Binds`: a node of a tree binds a name. It is the target of an assignment, a variable of a
  loop, or the string that names the variable in a call of `set_variable`;
* `Scope.Sound P`: every origin of a variable in the scope has the property `P`. Assigning,
  updating and joining scopes keep it;
* `SourceFile.sound_analyze`: if the scope at the start is sound, and `P` holds at the nodes of the
  file that bind a name, then the scope at the end is sound, and so are the scopes at the inclusions
  and the origins of every use of a variable.

The other fact about uses is that each is at a node of its own (`SourceFile.nodup_identifiers`), so
that a use can be found by its node.
-/

set_option autoImplicit false

namespace MesonLens

/-! ### Nodes that bind a name -/

namespace Tree

/-- A node of the tree binds a name: as a target of an assignment or a loop, or as the first
argument of a call of `set_variable`. -/
inductive Binds (root : Tree Mark) (name : String) (n : Tree Mark) : Prop
  | target {t : Tree Mark} (mem : t ∈ root.preorder) (target : n ∈ t.targets)
      (named : n.identifier? = some name)
  | argument {mark : Mark} {callee args : Tree Mark} (mem : call mark callee args ∈ root.preorder)
      (function : callee.identifier? = some "set_variable")
      (first : (call mark callee args).positionalArgs.head? = some n)
      (named : n.string? = some name)

/-- A node of the tree binds a name anew: it is no target of an operator, so whatever the name held
is forgotten. -/
inductive Rebinds (root : Tree Mark) (name : String) (n : Tree Mark) : Prop
  | target {t : Tree Mark} (mem : t ∈ root.preorder) (plain : t.compoundTarget? = none)
      (target : n ∈ t.targets) (named : n.identifier? = some name)
  | argument {mark : Mark} {callee args : Tree Mark} (mem : call mark callee args ∈ root.preorder)
      (function : callee.identifier? = some "set_variable")
      (first : (call mark callee args).positionalArgs.head? = some n)
      (named : n.string? = some name)

theorem Rebinds.binds {root n : Tree Mark} {name : String} (h : root.Rebinds name n) :
    root.Binds name n := by
  cases h with
  | target mem _ target named => exact .target mem target named
  | argument mem function first named => exact .argument mem function first named

theorem targets_subset (t : Tree Mark) : ∀ n ∈ t.targets, n ∈ t.children := by
  intro n hn
  cases t with
  | assignment m target op value =>
    obtain ⟨hn, -⟩ := List.mem_filter.mp hn
    rw [List.mem_singleton.mp hn]
    exact List.mem_cons_self
  | iteration m names iterable body =>
    obtain ⟨hn, -⟩ := List.mem_filter.mp hn
    simp [children, hn]
  | _ => cases hn

/-- A node that binds a name is a node of the tree. -/
theorem Binds.mem_preorder {root n : Tree Mark} {name : String} (h : root.Binds name n) :
    n ∈ root.preorder := by
  cases h with
  | target mem target named => exact Analyze.part_mem mem (targets_subset _ n target)
  | @argument mark callee args mem function first named =>
    have hitem : n ∈ (call mark callee args).callItems :=
      (List.mem_filter.mp (List.mem_of_head? first)).1
    cases args with
    | arguments m items =>
      have hargs : arguments m items ∈ root.preorder := Analyze.part_mem mem (by simp [children])
      exact Analyze.part_mem hargs hitem
    | _ => cases hitem

end Tree

/-! ### Sound scopes -/

namespace Scope

/-- Every origin of a variable in the scope has the property. -/
def Sound (P : String → Origin → Prop) (s : Scope) : Prop :=
  ∀ p ∈ s.bindings, ∀ o ∈ p.2.origins, P p.1 o

variable {P Q : String → Origin → Prop} {s s' : Scope} {name : String}

theorem sound_empty : Sound P {} := nofun

theorem Sound.mono (h : s.Sound P) (hPQ : ∀ name o, P name o → Q name o) : s.Sound Q :=
  fun p hp o ho => hPQ _ _ (h p hp o ho)

theorem Sound.get? (h : s.Sound P) {b : Binding} (hb : s.get? name = some b) :
    ∀ o ∈ b.origins, P name o := by
  obtain ⟨before, after, hsplit, -⟩ := List.lookup_eq_some_iff.mp hb
  exact h (name, b) (by simp [hsplit])

theorem Sound.originsOf (h : s.Sound P) : ∀ o ∈ s.originsOf name, P name o := by
  intro o ho
  unfold Scope.originsOf at ho
  cases hb : s.get? name with
  | none => simp [hb] at ho
  | some b => exact h.get? hb o (by simpa [hb] using ho)

theorem mem_setIn {b : Binding} {l : List (String × Binding)} {p : String × Binding}
    (h : p ∈ setIn name b l) : p = (name, b) ∨ p ∈ l := by
  induction l with
  | nil => exact .inl (List.mem_singleton.mp h)
  | cons q l ih =>
    unfold setIn at h
    split at h
    · exact (List.mem_cons.mp h).imp_right (List.mem_cons_of_mem q)
    · rcases List.mem_cons.mp h with rfl | h
      · exact .inr List.mem_cons_self
      · exact (ih h).imp_right (List.mem_cons_of_mem q)

theorem Sound.set (h : s.Sound P) {b : Binding} (hb : ∀ o ∈ b.origins, P name o) :
    (s.set name b).Sound P := by
  intro p hp
  rcases mem_setIn hp with rfl | hp
  · exact hb
  · exact h p hp

theorem Sound.assign (h : s.Sound P) (types : TypeSet) {origin : Option Origin}
    (horigin : ∀ o ∈ origin, P name o) : (s.assign name types origin).Sound P :=
  h.set fun o ho => horigin o (Option.mem_toList.mp ho)

theorem Sound.mergeOne (h : s.Sound P) {b : Binding} (hb : ∀ o ∈ b.origins, P name o) :
    (s.mergeOne name b).Sound P := by
  unfold Scope.mergeOne
  split
  · next there hthere =>
    refine h.set fun o ho => ?_
    rcases Binding.mem_addOrigins.mp ho with ho | ho
    · exact h.get? hthere o ho
    · exact hb o ho
  · exact h.set hb

/-- A list of changes that keep the scope sound. -/
theorem Sound.foldl {α : Type} {change : Scope → α → Scope} {l : List α} (h : s.Sound P)
    (hchange : ∀ s, ∀ x ∈ l, s.Sound P → (change s x).Sound P) : (l.foldl change s).Sound P := by
  induction l generalizing s with
  | nil => exact h
  | cons x l ih =>
    rw [List.foldl_cons]
    exact ih (hchange s x List.mem_cons_self h) fun s y hy =>
      hchange s y (List.mem_cons_of_mem x hy)

theorem Sound.merge (h : s.Sound P) (h' : s'.Sound P) : (s.merge s').Sound P := by
  unfold Scope.merge
  refine h.foldl fun s p hp hs => ?_
  exact hs.mergeOne (h' p hp)

/-- What is known from the start comes from nowhere. -/
theorem sound_root (c : Catalog) : (Scope.root c).Sound P := by
  unfold Scope.root
  refine sound_empty.foldl fun s p _ hs => ?_
  obtain ⟨name, id⟩ := p
  dsimp only
  cases c.object? id with
  | some o => exact hs.assign _ fun _ ho => nomatch ho
  | none => exact hs

end Scope

/-! ### Sound analyses -/

/-- Every origin that the analysis tells of has the property: those of the uses of variables, of the
scope at the end, and of the scopes at the inclusions. -/
structure Analysis.Sound (P : String → Origin → Prop) (a : Analysis) : Prop where
  identifiers : ∀ u ∈ a.index.identifiers, ∀ o ∈ u.origins, P u.name o
  scope : a.scope.Sound P
  includeScopes : ∀ i ∈ a.includeScopes, i.scope.Sound P

theorem Analysis.Sound.mono {P Q : String → Origin → Prop} {a : Analysis} (h : a.Sound P)
    (hPQ : ∀ name o, P name o → Q name o) : a.Sound Q where
  identifiers u hu o ho := hPQ _ _ (h.identifiers u hu o ho)
  scope := h.scope.mono hPQ
  includeScopes i hi := (h.includeScopes i hi).mono hPQ

namespace Analyze

variable {ctx : Context} {root : Tree Mark} {P : String → Origin → Prop} {a : Analysis} {act : Act}

/-- What one act in the analysis of a tree makes of a scope, unless it goes on from another one. -/
inductive Step (ctx : Context) (root : Tree Mark) (s : Scope) : Scope → Prop
  | keep : Step ctx root s s
  | anew {name : String} {n : Tree Mark} {b : Binding} (rebinds : root.Rebinds name n)
      (origins : b.origins = [ctx.origin n.note]) : Step ctx root s (s.set name b)
  /-- A variable that is known keeps its origins when an operator changes it. -/
  | change {name : String} {b old : Binding} (known : s.get? name = some old)
      (origins : b.origins = old.origins) : Step ctx root s (s.set name b)
  | first {name : String} {n : Tree Mark} {b : Binding} (unknown : s.get? name = none)
      (binds : root.Binds name n) (origins : b.origins = [ctx.origin n.note]) :
      Step ctx root s (s.set name b)

theorem Step.of_rebound {target : Mark} {name : String} {op : AssignOp} {t : Tree Mark}
    (ht : t ∈ root.preorder) (htarget : .identifier target name ∈ t.targets)
    (hop : op = .assign → t.compoundTarget? = none) (types : TypeSet) (s : Scope) :
    Step ctx root s (rebound ctx target name op types s) := by
  unfold rebound
  cases hbinary : op.binary? with
  | none =>
    have hplain : op = .assign := by
      cases op with
      | assign => rfl
      | _ => cases hbinary
    exact .anew (.target ht (hop hplain) htarget rfl) rfl
  | some binary =>
    dsimp only
    unfold Scope.update
    cases hget : s.get? name with
    | none => exact .first hget (.target ht htarget rfl) rfl
    | some old => exact .change hget rfl

/-- An act binds a name only at a node of the tree that binds it. -/
theorem Act.Fits.step {J : Scope → Prop} (hfits : act.Fits ctx root J a) :
    Step ctx root a.scope (act.rescope ctx a.scope) ∨ J (act.rescope ctx a.scope) := by
  cases act with
  | call mark callee args values =>
    -- The arguments have been evaluated, but the string that names the variable is a node as it was
    -- read: the first of the arguments by place.
    obtain ⟨hmem, hvalues⟩ := hfits
    refine .inl ?_
    show Step ctx root a.scope (rescoped ctx callee values a.scope)
    unfold rescoped
    split
    · next hname =>
      rw [hvalues.literal?]
      split
      · next node name hliteral =>
        obtain ⟨first, hfirst, hvalue⟩ := Option.bind_eq_some_iff.mp hliteral
        obtain ⟨value, hstring, heq⟩ := Option.map_eq_some_iff.mp hvalue
        cases heq
        exact .anew (.argument hmem hname hfirst hstring) rfl
      · exact .keep
    · exact .keep
  | bind node target name op types =>
    obtain ⟨t, ht, htarget, hop⟩ := hfits
    exact .inl (.of_rebound ht htarget hop types a.scope)
  | enter scope => exact .inr hfits
  | _ => exact .inl .keep

theorem Step.sound {s s' : Scope} (h : Step ctx root s s')
    (hbinds : ∀ name n, root.Binds name n → P name (ctx.origin n.note)) (hs : s.Sound P) :
    s'.Sound P := by
  cases h with
  | keep => exact hs
  | anew rebinds origins =>
    refine hs.set ?_
    rw [origins]
    exact List.forall_mem_singleton.mpr (hbinds _ _ rebinds.binds)
  | change known origins =>
    refine hs.set ?_
    rw [origins]
    exact hs.get? known
  | first _ binds origins =>
    refine hs.set ?_
    rw [origins]
    exact List.forall_mem_singleton.mpr (hbinds _ _ binds)

/-- The scope at an inclusion is the one that the call finds. -/
theorem Act.scope_of_mem_include? {s : Scope} {i : IncludeScope} (hi : i ∈ act.include? s) :
    i.scope = s := by
  cases act with
  | call mark callee args values =>
    obtain ⟨-, hi⟩ := Option.ite_none_right_eq_some.mp hi
    obtain ⟨literal, -, rfl⟩ := Option.map_eq_some_iff.mp hi
    rfl
  | _ => cases hi

/-- Soundness is kept by every act of the analysis. -/
theorem invariant_sound (hbinds : ∀ name n, root.Binds name n → P name (ctx.origin n.note)) :
    Invariant ctx root (Analysis.Sound P) (Scope.Sound P) where
  scope h := h.scope
  merge h h' := h.merge h'
  act {a act} hfits h := by
    have hscope := hfits.step.elim (·.sound hbinds h.scope) fun h => h
    refine ⟨fun u hu => ?_, by rw [Act.after_scope]; exact hscope, fun i hi => ?_⟩
    · rcases act.after_identifiers ctx a with ⟨m, name, types, -, hids⟩ | ⟨-, hids⟩
      · -- A use that binds a name has the origins of the scope after the binding.
        rw [hids, List.mem_append, List.mem_singleton] at hu
        rcases hu with hu | rfl
        · exact h.identifiers u hu
        · exact hscope.originsOf
      · rw [hids] at hu
        exact h.identifiers u hu
    · rw [Act.after_includeScopes, List.mem_append, Option.mem_toList] at hi
      rcases hi with hi | hi
      · exact h.includeScopes i hi
      · rw [Act.scope_of_mem_include? hi]
        exact h.scope

/-- The uses of variables are noted at the identifiers among the sites. -/
theorem play_identifiers (ctx : Context) (list : List Act) (a : Analysis) :
    (play ctx list a).index.identifiers.map IdentifierUse.node =
      a.index.identifiers.map IdentifierUse.node ++
        ((list.filterMap Act.site?).filter Tree.isIdentifier).map Tree.id := by
  induction list generalizing a with
  | nil => exact (List.append_nil _).symm
  | cons act list ih =>
    show (play ctx list (act.after ctx a)).index.identifiers.map _ = _
    rw [ih]
    rcases act.after_identifiers ctx a with ⟨m, name, types, hsite, hids⟩ | ⟨hsite, hids⟩
    · rw [hids, List.filterMap_cons_some hsite, List.filter_cons_of_pos rfl, List.map_append,
        List.append_assoc]
      rfl
    · rw [hids, List.filterMap_cons]
      cases hnode : act.site? with
      | none => rfl
      | some n => rw [List.filter_cons_of_neg (by simp [hsite n hnode])]

end Analyze

namespace SourceFile

open Analyze

variable (ctx : Context) {scope : Scope}

/-- The analysis of a file makes up no origin. -/
theorem sound_analyze (f : SourceFile) {P : String → Origin → Prop} (hscope : scope.Sound P)
    (hbinds : ∀ name n, f.root.Binds name n → P name (ctx.origin n.note)) :
    (f.analyze ctx.catalog ctx.file scope).Sound P := by
  exact f.keeps_analyze ctx (invariant_sound hbinds) ⟨nofun, hscope, nofun⟩

/-- No node is used twice. -/
theorem nodup_identifiers (text : String) (scope : Scope) :
    (((parse text).analyze ctx.catalog ctx.file scope).index.identifiers.map
      IdentifierUse.node).Nodup := by
  have henacts := (parse text).enacts_statements (invariant_true ctx _) scope trivial
  have hnodes : (((parse text).statements.flatMap Tree.preorder).map Tree.id).Nodup := by
    have hroot := nodup_ids_root text
    rw [Tree.ids, Tree.preorder_eq, List.map_cons] at hroot
    exact (List.nodup_cons.mp hroot).2
  have hsites := (Tree.gathers_blockSites (parse text).statements).nodup_ids hnodes
  rw [analyze_eq, henacts.run, play_identifiers, henacts.sites]
  exact (List.filter_sublist.map Tree.id).nodup hsites

end SourceFile

end MesonLens
