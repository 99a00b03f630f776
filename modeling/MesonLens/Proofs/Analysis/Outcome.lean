import MesonLens.Proofs.Analysis.Acts
import MesonLens.Project.Include

/-!
# `MesonLens.Proofs.Analysis.Outcome`: what an act leaves behind

Three parts of the state matter beyond a file: the scope, the uses of variables, and the scopes at
inclusions. There is one lemma for what an act does to each of them.

* `Act.after_scope`: only bindings and calls of `set_variable` change the scope, apart from going
  on from another one;
* `Act.after_identifiers`: a use is noted where a variable is read or bound, with the origins that
  the variable has then;
* `Act.after_includeScopes`: a call of `subdir` notes the scope that it finds.

`Analyze.play_includeScopes` puts the last one together for a list of acts, and
`Analyze.Enacts.pairs_includeScopes` compares it with what is read off the tree: a call of `subdir`
that the analysis makes is one that `Include.ofNode?` finds, at the same node and with the same
directory.
-/

set_option autoImplicit false

namespace MesonLens

namespace Analyze

variable {α β : Type}

/-! ### Calls -/

/-- What a call of a function makes of the scope. -/
def rescoped (ctx : Context) (callee : Tree Mark) (values : CallArgs) (s : Scope) : Scope :=
  if callee.identifier? = some "set_variable" then
    match values.literal? 0 with
    | some (node, name) => s.assign name (values.typesAt 1) (some (ctx.origin node.note))
    | none => s
  else s

/-- The inclusion that a call of a function makes, with the scope that it finds. -/
def included? (mark : Mark) (callee : Tree Mark) (values : CallArgs) (s : Scope) :
    Option IncludeScope :=
  if callee.identifier? = some "subdir" then
    (values.literal? 0).map fun literal => ⟨mark.id, literal.2, s⟩
  else none

/-- What a step does to the scope and to the scopes at inclusions. It notes no use of a variable. -/
def Alters (m : Analyze α) (rescope : Scope → Scope) (found : Scope → Option IncludeScope) : Prop :=
  ∀ a, (m.run a).2.scope = rescope a.scope ∧
    (m.run a).2.index.identifiers = a.index.identifiers ∧
    (m.run a).2.includeScopes = a.includeScopes ++ (found a.scope).toList

/-- A step that does nothing to either. -/
abbrev Spares (m : Analyze α) : Prop := Alters m id fun _ => none

namespace Alters

variable {m : Analyze α} {k : α → Analyze β} {rescope : Scope → Scope}
  {found : Scope → Option IncludeScope}

theorem of_checks (h : Checks m) : Spares m := by
  intro a
  obtain ⟨problems, hproblems⟩ := h a
  rw [hproblems]
  exact ⟨rfl, rfl, (List.append_nil _).symm⟩

theorem note {f : Index → Index} (h : ∀ i, (f i).identifiers = i.identifiers) :
    Spares (Analyze.note f) :=
  fun a => ⟨rfl, h a.index, (List.append_nil _).symm⟩

theorem after_spares (hm : Spares m) (hk : ∀ v, Alters (k v) rescope found) :
    Alters (m >>= k) rescope found := by
  intro a
  obtain ⟨hscope, hids, hscopes⟩ := hm a
  obtain ⟨hscope', hids', hscopes'⟩ := hk (m.run a).1 (m.run a).2
  rw [hscope] at hscope' hscopes'
  rw [hscopes, Option.toList_none, List.append_nil] at hscopes'
  exact ⟨hscope', hids'.trans hids, hscopes'⟩

theorem then_spares (hm : Alters m rescope found) (hk : ∀ v, Spares (k v)) :
    Alters (m >>= k) rescope found := by
  intro a
  obtain ⟨hscope, hids, hscopes⟩ := hm a
  obtain ⟨hscope', hids', hscopes'⟩ := hk (m.run a).1 (m.run a).2
  rw [Option.toList_none, List.append_nil] at hscopes'
  exact ⟨hscope'.trans hscope, hids'.trans hids, hscopes'.trans hscopes⟩

end Alters

theorem alters_setVariable (ctx : Context) (args : CallArgs) {callee : Tree Mark}
    (h : callee.identifier? = some "set_variable") :
    Alters (setVariable ctx args) (rescoped ctx callee args) fun _ => none := by
  intro a
  unfold setVariable rescoped
  rw [if_pos h]
  cases args.literal? 0 with
  | none => exact ⟨rfl, rfl, (List.append_nil _).symm⟩
  | some literal => exact ⟨rfl, rfl, (List.append_nil _).symm⟩

theorem alters_includeDirectory (call : Mark) (args : CallArgs) {callee : Tree Mark}
    (h : callee.identifier? = some "subdir") :
    Alters (includeDirectory call args) id (included? call callee args) := by
  unfold includeDirectory included?
  simp only [if_pos h]
  refine .after_spares (.note fun _ => rfl) fun _ => ?_
  cases args.literal? 0 with
  | none =>
    dsimp only [Option.map_none]
    split
    · exact .of_checks (.pure _)
    · exact .of_checks (.report _ _)
  | some literal => exact fun a => ⟨rfl, rfl, rfl⟩

/-- The functions that the analysis knows are told by their names. -/
theorem alters_special (ctx : Context) (call : Mark) (callee : Tree Mark) (args : CallArgs) :
    Alters (special ctx call (callee.identifier?.getD "") args) (rescoped ctx callee args)
      (included? call callee args) := by
  -- Of all functions only `set_variable` changes the scope, and only `subdir` includes a file.
  by_cases hset : callee.identifier? = some "set_variable"
  · have hnone : included? call callee args = fun _ => none := by
      funext s
      simp [included?, hset]
    rw [hnone]
    have hspecial := (alters_setVariable ctx args hset).then_spares (k := fun _ => pure none)
      fun _ => .of_checks (.pure (none : Option TypeSet))
    rw [hset]
    exact hspecial
  have hid : rescoped ctx callee args = id := by
    funext s
    simp [rescoped, hset]
  rw [hid]
  by_cases hsubdir : callee.identifier? = some "subdir"
  · have hspecial := (alters_includeDirectory call args hsubdir).then_spares
      (k := fun _ => pure none) fun _ => .of_checks (.pure (none : Option TypeSet))
    rw [hsubdir]
    exact hspecial
  · have hnone : included? call callee args = fun _ => none := by
      funext s
      simp [included?, hsubdir]
    rw [hnone]
    refine .of_checks ?_
    cases hname : callee.identifier? with
    | none => exact .pure _
    | some name =>
      rw [hname, Option.some_inj] at hset hsubdir
      unfold special
      split
      · exact .importModule _ _
      · exact .getVariable _
      · next h => exact absurd h hset
      · next h => exact absurd h hsubdir
      · exact .pure _

/-- Apart from its effect a call checks its arguments and is noted. -/
theorem alters_callFunction (ctx : Context) (call : Mark) (callee : Tree Mark)
    (function : Option (Signature TypeSet)) (args : CallArgs) :
    Alters (callFunction ctx call callee function args) (rescoped ctx callee args)
      (included? call callee args) := by
  unfold callFunction
  extract_lets name done
  have hdone : ∀ declared, Alters (done declared) (rescoped ctx callee args)
      (included? call callee args) := fun declared =>
    (alters_special ctx call callee args).then_spares fun _ =>
      .after_spares (.note fun _ => rfl) fun _ => .of_checks (.pure _)
  clear_value done
  split
  · exact .after_spares (.of_checks (.checkCall _ _ _ _)) fun _ => hdone _
  · exact .after_spares (.of_checks (.report _ _)) fun _ => hdone _

theorem spares_readString (mark : Mark) (value : String) (format : Bool) :
    Spares (readString mark value format) := by
  unfold readString
  refine .after_spares (.note fun _ => rfl) fun _ => ?_
  split
  · exact .of_checks (.checkPlaceholders _ _)
  · exact .of_checks (.pure _)

theorem spares_callMethod (ctx : Context) (call : Mark) (member : Tree Mark) (name : String)
    (receiver : TypeSet) (found : List (Ty × Signature TypeSet)) (args : CallArgs) :
    Spares (callMethod ctx call member name receiver found args) := by
  unfold callMethod
  extract_lets methods unchecked types done check
  have hdone : ∀ u, Spares (done u) := fun _ =>
    .after_spares (.note fun _ => rfl) fun _ => .of_checks (.pure _)
  clear_value done methods
  have hcheck : ∀ u, Spares (check u) := by
    intro u
    unfold check
    split
    · exact .after_spares (.of_checks (.checkCall _ _ _ _)) hdone
    · exact hdone _
  split
  · exact .after_spares (.of_checks (.report _ _)) hcheck
  · exact hcheck ()

/-! ### Acts -/

/-- What a binding makes of the scope. -/
def rebound (ctx : Context) (target : Mark) (name : String) (op : AssignOp) (types : TypeSet)
    (s : Scope) : Scope :=
  match op.binary? with
  | none => s.assign name types (some (ctx.origin target))
  | some binary =>
    s.update name (binary.result (((s.get? name).map Binding.types).getD {}) types)
      (some (ctx.origin target))

/-- A step that changes the scope, and then notes a use of a variable with the origins that it has
in the new scope. -/
def Uses (m : Analyze α) (rescope : Scope → Scope) (mark : Mark) (name : String) : Prop :=
  ∀ a, (m.run a).2.scope = rescope a.scope ∧
    (∃ types, (m.run a).2.index.identifiers = a.index.identifiers ++
      [⟨mark.id, mark.span, name, types, (rescope a.scope).originsOf name⟩]) ∧
    (m.run a).2.includeScopes = a.includeScopes

theorem uses_readVariable (mark : Mark) (name : String) :
    Uses (readVariable mark name) id mark name := by
  intro a
  unfold readVariable Scope.originsOf
  cases hget : a.scope.get? name with
  | none =>
    simp only [StateT.run_bind, StateT.run_get, pure_bind, hget, id]
    exact ⟨rfl, ⟨_, rfl⟩, rfl⟩
  | some b =>
    simp only [StateT.run_bind, StateT.run_get, pure_bind, hget, id]
    exact ⟨rfl, ⟨_, rfl⟩, rfl⟩

theorem uses_bindVariable (ctx : Context) (node target : Mark) (name : String) (op : AssignOp)
    (types : TypeSet) :
    Uses (bindVariable ctx node target name op types) (rebound ctx target name op types) target
      name := by
  intro a
  unfold bindVariable rebound
  cases op.binary? with
  | none => exact ⟨rfl, ⟨_, rfl⟩, rfl⟩
  | some binary =>
    cases hget : a.scope.get? name with
    | none =>
      simp only [StateT.run_bind, StateT.run_get, pure_bind, hget]
      exact ⟨rfl, ⟨_, rfl⟩, rfl⟩
    | some b =>
      simp only [StateT.run_bind, StateT.run_get, pure_bind, hget]
      exact ⟨rfl, ⟨_, rfl⟩, rfl⟩

namespace Act

/-- What the act makes of the scope. -/
def rescope (ctx : Context) : Act → Scope → Scope
  | call _ callee _ values, s => rescoped ctx callee values s
  | bind _ target name op types, s => rebound ctx target name op types s
  | enter s, _ => s
  | _, s => s

/-- The inclusion that the act makes. -/
def include? : Act → Scope → Option IncludeScope
  | call mark callee _ values, s => included? mark callee values s
  | _, _ => none

variable (ctx : Context) (act : Act) (a : Analysis)

theorem after_scope : (act.after ctx a).scope = act.rescope ctx a.scope := by
  cases act with
  | record => rfl
  | read mark name => exact (uses_readVariable mark name a).1
  | string mark value format => exact (spares_readString mark value format a).1
  | keyword => rfl
  | call mark callee args values => exact (alters_callFunction ctx mark callee _ values a).1
  | method => exact (spares_callMethod ctx _ _ _ _ _ _ a).1
  | bind node target name op types => exact (uses_bindVariable ctx node target name op types a).1
  | report => rfl
  | enter => rfl

/-- A use of a variable is noted at an identifier that the act takes note of, and only there. -/
theorem after_identifiers :
    (∃ m name types, act.site? = some (.identifier m name) ∧
      (act.after ctx a).index.identifiers = a.index.identifiers ++
        [⟨m.id, m.span, name, types, (act.rescope ctx a.scope).originsOf name⟩]) ∨
    (∀ n ∈ act.site?, n.isIdentifier = false) ∧
      (act.after ctx a).index.identifiers = a.index.identifiers := by
  cases act with
  | read mark name =>
    obtain ⟨-, ⟨types, huses⟩, -⟩ := uses_readVariable mark name a
    exact .inl ⟨mark, name, types, rfl, huses⟩
  | bind node target name op types =>
    obtain ⟨-, ⟨types', huses⟩, -⟩ := uses_bindVariable ctx node target name op types a
    exact .inl ⟨target, name, types', rfl, huses⟩
  | string mark value format =>
    exact .inr ⟨fun n hn => Option.some.inj hn ▸ rfl, (spares_readString mark value format a).2.1⟩
  | call mark callee args values =>
    exact .inr ⟨fun n hn => Option.some.inj hn ▸ rfl,
      (alters_callFunction ctx mark callee _ values a).2.1⟩
  | method =>
    exact .inr ⟨fun n hn => Option.some.inj hn ▸ rfl, (spares_callMethod ctx _ _ _ _ _ _ a).2.1⟩
  | keyword => exact .inr ⟨fun n hn => Option.some.inj hn ▸ rfl, rfl⟩
  | record | report | enter => exact .inr ⟨nofun, rfl⟩

theorem after_includeScopes :
    (act.after ctx a).includeScopes = a.includeScopes ++ (act.include? a.scope).toList := by
  cases act with
  | read mark name =>
    exact (uses_readVariable mark name a).2.2.trans (List.append_nil _).symm
  | string mark value format => exact (spares_readString mark value format a).2.2
  | call mark callee args values => exact (alters_callFunction ctx mark callee _ values a).2.2
  | method => exact (spares_callMethod ctx _ _ _ _ _ _ a).2.2
  | bind node target name op types =>
    exact (uses_bindVariable ctx node target name op types a).2.2.trans (List.append_nil _).symm
  | record | keyword | report | enter => exact (List.append_nil _).symm

end Act

/-! ### Inclusions -/

section

variable {ctx : Context} {root : Tree Mark} {J : Scope → Prop} {a : Analysis}

/-- The scopes at inclusions are those that the calls of `subdir` find. -/
theorem play_includeScopes (ctx : Context) (list : List Act) (a : Analysis) :
    (play ctx list a).includeScopes =
      a.includeScopes ++ (attended ctx list a).filterMap fun p => p.2.include? p.1.scope := by
  induction list generalizing a with
  | nil => exact (List.append_nil _).symm
  | cons act list ih =>
    show (play ctx list (act.after ctx a)).includeScopes = _
    rw [ih, act.after_includeScopes ctx a, attended, List.append_assoc, List.filterMap_cons]
    cases act.include? a.scope with
    | none => rfl
    | some i => rfl

/-- The first argument by place of a call is the one that its arguments start with. -/
theorem Act.Evaluated.literal? {mark : Mark} {callee args : Tree Mark} {values : CallArgs}
    {b : Analysis} (h : Act.Evaluated ctx mark callee values b args) :
    values.literal? 0 = (Tree.call mark callee args).positionalArgs.head?.bind
      fun first => first.string?.map (first, ·) := by
  -- Evaluating the arguments keeps those by place in their order.
  have hfirst : values.positional[0]?.map PositionalArg.node =
      (Tree.call mark callee args).positionalArgs.head? := by
    cases args with
    | arguments m items =>
      obtain ⟨before, hrun⟩ := h
      have hnodes := arguments_positional ctx mark (ctx.callee callee) items before
      rw [hrun] at hnodes
      rw [← List.getElem?_map, hnodes, List.head?_eq_getElem?]
      rfl
    | _ =>
      rw [show values = {} from h]
      rfl
  rw [← hfirst]
  unfold CallArgs.literal?
  cases values.positional[0]? with
  | none => rfl
  | some arg =>
    cases hvalue : arg.node.string? with
    | none => simp [hvalue]
    | some value => simp [hvalue]

theorem ofNode?_call (mark : Mark) (callee args : Tree Mark) :
    Include.ofNode? (.call mark callee args) =
      if callee.identifier? = some "subdir" then
        (Tree.call mark callee args).positionalArgs.head?.bind fun first =>
          first.string?.map fun dir => ⟨mark.id, dir, mark.span⟩
      else none := by
  show (if (callee.identifier? == some "subdir") = true then some () else none).bind (fun _ =>
    (Tree.call mark callee args).positionalArgs.head?.bind fun first =>
      first.string?.bind fun dir => some (Include.mk mark.id dir mark.span)) = _
  by_cases hname : callee.identifier? = some "subdir"
  · rw [if_pos (beq_iff_eq.mpr hname), if_pos hname, Option.bind_some]
    simp only [Option.map_eq_bind]
    rfl
  · rw [if_neg (mt beq_iff_eq.mp hname), if_neg hname]
    rfl

/-- Only nodes that are noted include anything. -/
theorem ofNode?_of_not_noted {n : Tree Mark} (h : n.kind.isNoted = false) :
    Include.ofNode? n = none := by
  cases n with
  | call => cases h
  | _ => rfl

/-- An act includes what the node that it takes note of includes. -/
theorem Act.Fits.pair_include? {act : Act} (h : act.Fits ctx root J a) :
    (act.include? a.scope).map (fun i => (i.call, i.dir)) =
      (act.site?.bind Include.ofNode?).map fun i => (i.call, i.dir) := by
  cases act with
  | call mark callee args values =>
    show (included? mark callee values a.scope).map _ =
      (Include.ofNode? (.call mark callee args)).map _
    unfold included?
    rw [h.2.literal?, ofNode?_call]
    split
    · cases (Tree.call mark callee args).positionalArgs.head? with
      | none => rfl
      | some first =>
        cases hvalue : first.string? with
        | none => simp [hvalue]
        | some value => simp [hvalue]
    · rfl
  | _ => rfl

end

/-- The inclusions that the analysis makes are those of the sites, in the same order. -/
theorem Enacts.pairs_includeScopes {ctx : Context} {root : Tree Mark} {J : Scope → Prop}
    {m : Analyze α} {a : Analysis} {list : List Act} {sites : List (Tree Mark)}
    (h : Enacts ctx root J m a list sites) :
    (m.run a).2.includeScopes.map (fun i => (i.call, i.dir)) =
      a.includeScopes.map (fun i => (i.call, i.dir)) ++
        (sites.filterMap Include.ofNode?).map fun i => (i.call, i.dir) := by
  have hfound :
      ((attended ctx list a).filterMap fun p => p.2.include? p.1.scope).map
          (fun i => (i.call, i.dir)) =
        (sites.filterMap Include.ofNode?).map fun i => (i.call, i.dir) := by
    calc
      _ = (attended ctx list a).filterMap
            fun p => (p.2.site?.bind Include.ofNode?).map fun i => (i.call, i.dir) := by
        rw [List.map_filterMap]
        exact List.filterMap_congr fun p hp => (h.fits p hp).pair_include?
      _ = _ := by
        rw [← h.sites, List.filterMap_filterMap, List.map_filterMap]
        conv => rhs; rw [← map_snd_attended ctx list a, List.filterMap_map]
        rfl
  rw [h.run, play_includeScopes, List.map_append, hfound]

end Analyze

namespace SourceFile

open Analyze

/-- In the analysis of a file from a scope, the call of `subdir` with a number finds a scope. This
is the scope that the evaluation of its arguments leaves. -/
def ScopeAt (f : SourceFile) (ctx : Context) (scope : Scope) (call : Nat) (found : Scope) : Prop :=
  ∃ mark callee m items values before b,
    (b, Act.call mark callee (.arguments m items) values) ∈
      attended ctx (f.acts ctx scope) (f.start scope) ∧
    mark.id = call ∧ callee.identifier? = some "subdir" ∧
    (arguments ctx mark (ctx.callee callee) items).run before = (values, b) ∧ b.scope = found

variable (ctx : Context) (scope : Scope)

/-- The scopes at the inclusions of a file are those that its calls of `subdir` find. -/
theorem scopeAt_of_mem (f : SourceFile) {i : IncludeScope}
    (h : i ∈ (f.analyze ctx.catalog ctx.file scope).includeScopes) :
    f.ScopeAt ctx scope i.call i.scope := by
  have henacts := f.enacts_statements (invariant_true ctx f.root) scope trivial
  rw [analyze_eq, henacts.run, play_includeScopes, List.mem_append] at h
  obtain ⟨⟨b, act⟩, hmem, hinclude⟩ := List.mem_filterMap.mp (h.resolve_left nofun)
  have hfits := henacts.fits _ hmem
  cases act with
  | call mark callee args values =>
    obtain ⟨hname, hinclude⟩ := Option.ite_none_right_eq_some.mp hinclude
    obtain ⟨literal, hliteral, rfl⟩ := Option.map_eq_some_iff.mp hinclude
    cases args with
    | arguments m items =>
      obtain ⟨-, before, hrun⟩ := hfits
      exact ⟨mark, callee, m, items, values, before, b, hmem, rfl, hname, hrun, rfl⟩
    | _ =>
      -- Without an argument list there is no directory.
      rw [show values = {} from hfits.2] at hliteral
      cases hliteral
  | _ => cases hinclude

/-- The inclusions that the analysis of a text without errors makes are those of the text. -/
theorem pairs_perm_includes {text : String} (h : (parse text).errors = []) :
    (((parse text).analyze ctx.catalog ctx.file scope).includeScopes.map
        fun i => (i.call, i.dir)).Perm
      ((parse text).includes.map fun i => (i.call, i.dir)) := by
  have hincludes : (parse text).includes =
      ((parse text).statements.flatMap Tree.preorder).filterMap Include.ofNode? := by
    unfold includes
    rw [Tree.preorder_eq]
    rfl
  have hstatements : ∀ t ∈ (parse text).statements, t.Is (Kind.isStatement ·) := by
    intro t ht
    have hroot := wellFormed_root text h
    exact ⟨hroot.part ht, hroot.formed t ht⟩
  -- Where the tree follows the grammar, no call is left out of the sites.
  have hperm := (Tree.gathers_blockSites (parse text).statements).filterMap_perm hstatements
    (f := Include.ofNode?) fun _ hn => ofNode?_of_not_noted hn
  have henacts := (parse text).enacts_statements (invariant_true ctx _) scope trivial
  rw [analyze_eq, henacts.pairs_includeScopes, hincludes]
  exact (hperm.map _).symm

end SourceFile

end MesonLens
