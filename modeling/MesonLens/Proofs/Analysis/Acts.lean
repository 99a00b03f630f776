import MesonLens.Proofs.Analysis.Reaching
import MesonLens.Proofs.Analysis.Sites

/-!
# `MesonLens.Proofs.Analysis.Acts`: the analysis as a list of acts

The analysis of a file does one thing after another: a variable is read, a call is made with its
evaluated arguments, a name is bound, the types of a node are noted. Each of these is an `Act`.
`Analyze.acts` lists the acts of an expression in order, `Analyze.statementActs` those of a
statement, and `Analyze.play` performs a list of them.

* `Analyze.Enacts`: a step performs the listed acts, the acts are at the listed sites of the tree,
  and each act fits the state that it finds (`Act.Fits`). `Enacts.bind` puts two steps one after
  the other;
* `Analyze.enacts_expr`, `Analyze.enacts_statement`: the analysis performs its acts;
* `Analyze.Invariant`: what every act keeps, and joining scopes too. It holds after the analysis of
  a tree (`Enacts.keeps`). The acts that go on from another scope are why the induction over
  statements carries it along: such a scope was found, or was joined, at an earlier act;
* `SourceFile.acts`, `SourceFile.enacts_statements`: a whole file.

So what the analysis leaves behind can be told act by act, without another walk through the tree.
The acts of a call come right after those of its arguments: the state that the call finds is the one
that the evaluation of the arguments leaves.
-/

set_option autoImplicit false

namespace MesonLens

namespace Analyze

/-! ### Acts -/

/-- One thing that the analysis does. -/
inductive Act where
  /-- The types of a node are noted. -/
  | record (mark : Mark) (types : TypeSet)
  | read (mark : Mark) (name : String)
  | string (mark : Mark) (value : String) (format multiline : Bool)
  | keyword (mark : Mark) (key value : Tree Mark) (owner : Mark)
      (function : Option (Signature TypeSet))
  /-- A function is called; its arguments have these values. -/
  | call (mark : Mark) (callee args : Tree Mark) (values : CallArgs)
  | method (mark : Mark) (object : Tree Mark) (member : Mark) (name : String)
      (args : Option (Tree Mark)) (receiver : TypeSet) (values : CallArgs)
  /-- A name is bound by an assignment or a loop. -/
  | bind (node target : Mark) (name : String) (op : AssignOp) (types : TypeSet)
  | report (problem : Problem) (span : Span)
  /-- The analysis goes on from another scope. -/
  | enter (scope : Scope)

/-- The function that a call names. -/
def Context.callee (ctx : Context) (callee : Tree Mark) : Option (Signature TypeSet) :=
  ctx.catalog.function? (callee.identifier?.getD "")

namespace Act

/-- The node that the act takes note of. -/
def site? : Act → Option (Tree Mark)
  | read mark name => some (.identifier mark name)
  | string mark value format multiline => some (.string mark value format multiline)
  | keyword mark key value _ _ => some (.keyword mark key value)
  | call mark callee args _ => some (.call mark callee args)
  | method mark object member name args _ _ =>
    some (.method mark object (.identifier member name) args)
  | bind _ target name _ _ => some (.identifier target name)
  | record .. | report .. | enter .. => none

/-- The step of the analysis that the act stands for. -/
def perform (ctx : Context) : Act → Analyze Unit
  | record mark types => discard (Analyze.record mark types)
  | read mark name => discard (readVariable mark name)
  | string mark value format _ => readString mark value format
  | keyword mark key _ owner function =>
    note fun i => { i with
      keywords := i.keywords ++ [⟨mark.id, key.span, key.identifier?.getD "", owner, function⟩] }
  | call mark callee _ values => discard (callFunction ctx mark callee (ctx.callee callee) values)
  | method mark _ member name _ receiver values =>
    discard (callMethod ctx mark (.identifier member name) name receiver
      (candidates ctx receiver name) values)
  | bind node target name op types => bindVariable ctx node target name op types
  | report problem span => Analyze.report problem span
  | enter scope => modifyScope fun _ => scope

/-- What the act makes of a state. -/
def after (ctx : Context) (act : Act) (a : Analysis) : Analysis := ((act.perform ctx).run a).2

/-- The arguments of a call have these values, and the state is the one that their evaluation
leaves. -/
def Evaluated (ctx : Context) (mark : Mark) (callee : Tree Mark) (values : CallArgs)
    (b : Analysis) : Tree Mark → Prop
  | .arguments _ items =>
    ∃ before, (arguments ctx mark (ctx.callee callee) items).run before = (values, b)
  | _ => values = {}

/-- What is known of an act and the state that it finds, when it is part of the analysis of a tree.
A call has been given its arguments, and a name is bound by a statement of the tree, which does not
change what the name holds by an operator unless the act does. `J` is what is known of the scopes
that the analysis goes on from. -/
def Fits (ctx : Context) (root : Tree Mark) (J : Scope → Prop) (b : Analysis) : Act → Prop
  | call mark callee args values =>
    .call mark callee args ∈ root.preorder ∧ Evaluated ctx mark callee values b args
  | bind _ target name op _ => ∃ t ∈ root.preorder, .identifier target name ∈ t.targets ∧
    (op = .assign → t.compoundTarget? = none)
  | enter scope => J scope
  | _ => True

end Act

/-- Performs acts in order. -/
def play (ctx : Context) (acts : List Act) (a : Analysis) : Analysis :=
  acts.foldl (fun a act => act.after ctx a) a

theorem play_append (ctx : Context) (acts more : List Act) (a : Analysis) :
    play ctx (acts ++ more) a = play ctx more (play ctx acts a) := List.foldl_append

/-- The acts, each with the state that it finds. -/
def attended (ctx : Context) : List Act → Analysis → List (Analysis × Act)
  | [], _ => []
  | act :: rest, a => (a, act) :: attended ctx rest (act.after ctx a)

theorem attended_append (ctx : Context) (acts more : List Act) (a : Analysis) :
    attended ctx (acts ++ more) a =
      attended ctx acts a ++ attended ctx more (play ctx acts a) := by
  induction acts generalizing a with
  | nil => rfl
  | cons act acts ih => exact congrArg ((a, act) :: ·) (ih _)

theorem map_snd_attended (ctx : Context) (acts : List Act) (a : Analysis) :
    (attended ctx acts a).map Prod.snd = acts := by
  induction acts generalizing a with
  | nil => rfl
  | cons act acts ih => exact congrArg (act :: ·) (ih _)

/-! ### The acts of expressions and statements -/

/-- The last act of an expression. -/
def settle (ctx : Context) (t : Tree Mark) (a : Analysis) : Act :=
  .record t.note ((expr ctx t).run a).1

mutual

/-- The acts of an expression that is evaluated from a state. -/
def acts (ctx : Context) : Tree Mark → Analysis → List Act
  | .string m value format multiline, a =>
    [.string m value format multiline, settle ctx (.string m value format multiline) a]
  | .identifier m name, a => [.read m name, settle ctx (.identifier m name) a]
  | .array m elements, a => allActs ctx elements a ++ [settle ctx (.array m elements) a]
  | .dictionary m items, a => entryActs ctx items a ++ [settle ctx (.dictionary m items) a]
  | .unary m op operand, a => acts ctx operand a ++ [settle ctx (.unary m op operand) a]
  | .binary m left op right, a =>
    acts ctx left a ++ (acts ctx right ((expr ctx left).run a).2 ++
      [settle ctx (.binary m left op right) a])
  | .conditional m condition ifTrue ifFalse, a =>
    let b := ((expr ctx condition).run a).2
    acts ctx condition a ++ (acts ctx ifTrue b ++
      (acts ctx ifFalse ((expr ctx ifTrue).run b).2 ++
        [settle ctx (.conditional m condition ifTrue ifFalse) a]))
  | .subscript m object index, a =>
    acts ctx object a ++ (acts ctx index ((expr ctx object).run a).2 ++
      [settle ctx (.subscript m object index) a])
  | .call m callee (.arguments m' items), a =>
    let values := ((arguments ctx m (ctx.callee callee) items).run a).1
    argumentActs ctx m (ctx.callee callee) items a ++
      [.call m callee (.arguments m' items) values,
        settle ctx (.call m callee (.arguments m' items)) a]
  | .call m callee args, a => [.call m callee args {}, settle ctx (.call m callee args) a]
  | .method m object (.identifier member name) (some (.arguments m' items)), a =>
    let receiver := (expr ctx object).run a
    let function := (candidates ctx receiver.1 name).head?.map (·.2)
    let values := ((arguments ctx m function items).run receiver.2).1
    acts ctx object a ++ (argumentActs ctx m function items receiver.2 ++
      [.method m object member name (some (.arguments m' items)) receiver.1 values,
        settle ctx (.method m object (.identifier member name) (some (.arguments m' items))) a])
  | .method m object (.identifier member name) args, a =>
    acts ctx object a ++ [.method m object member name args ((expr ctx object).run a).1 {},
      settle ctx (.method m object (.identifier member name) args) a]
  | .method m object name args, a =>
    acts ctx object a ++ [settle ctx (.method m object name args) a]
  | t, a => [settle ctx t a]

/-- The acts of expressions in order. -/
def allActs (ctx : Context) : List (Tree Mark) → Analysis → List Act
  | [], _ => []
  | t :: rest, a => acts ctx t a ++ allActs ctx rest ((expr ctx t).run a).2

/-- The acts of the entries of a dictionary. -/
def entryActs (ctx : Context) : List (Tree Mark) → Analysis → List Act
  | [], _ => []
  | .entry _ key value :: rest, a =>
    let b := ((expr ctx key).run a).2
    acts ctx key a ++ (acts ctx value b ++ entryActs ctx rest ((expr ctx value).run b).2)
  | _ :: rest, a => entryActs ctx rest a

/-- The acts of the arguments of a call. -/
def argumentActs (ctx : Context) (call : Mark) (function : Option (Signature TypeSet)) :
    List (Tree Mark) → Analysis → List Act
  | [], _ => []
  | .keyword m key value :: rest, a =>
    let act : Act := .keyword m key value call function
    acts ctx value a ++
      (act :: argumentActs ctx call function rest (act.after ctx ((expr ctx value).run a).2))
  | item :: rest, a =>
    acts ctx item a ++ argumentActs ctx call function rest ((expr ctx item).run a).2

end

/-- The acts that bind the variables of a loop. -/
def loopActs (node : Mark) : List (Tree Mark × TypeSet) → List Act
  | [] => []
  | (.identifier m name, types) :: rest => .bind node m name .assign types :: loopActs node rest
  | _ :: rest => loopActs node rest

/-- The acts before the first statement of a loop: what is wrong with the number of its variables,
and the variables. -/
def headerActs (node : Mark) (span : Span) (names : List (Tree Mark))
    (held : List TypeSet × Option Problem) : List Act :=
  (held.2.map (Act.report · span)).toList ++ loopActs node (names.zip held.1)

mutual

/-- The acts of a statement that runs from a state. -/
def statementActs (ctx : Context) : Tree Mark → Analysis → List Act
  | .assignment m target op value, a =>
    acts ctx value a ++
      match target with
      | .identifier m' name => [.bind m m' name op ((expr ctx value).run a).1]
      | _ => []
  | .selection _ bs, a =>
    branchActs ctx a.scope bs a ++ [.enter ((branches ctx a.scope none bs).run a).1]
  | .iteration m names iterable body, a =>
    let before := (expr ctx iterable).run a
    let header := headerActs m iterable.span names (loopTypes names.length before.1)
    let inside := play ctx header before.2
    acts ctx iterable a ++ (header ++ (blockActs ctx body inside ++
      [.enter (((block ctx body).run inside).2.scope.merge before.2.scope)]))
  | .breakLoop _, _ | .continueLoop _, _ | .malformed _ _, _ => []
  | t, a => acts ctx t a

/-- The acts of statements in order. -/
def blockActs (ctx : Context) : List (Tree Mark) → Analysis → List Act
  | [], _ => []
  | t :: rest, a => statementActs ctx t a ++ blockActs ctx rest ((statement ctx t).run a).2

/-- The acts of a selection. Every branch starts from the scope before it. -/
def branchActs (ctx : Context) (before : Scope) : Branches Mark → Analysis → List Act
  | .done, _ => []
  | .otherwise body, a => .enter before :: blockActs ctx body { a with scope := before }
  | .arm condition body rest, a =>
    let start : Analysis := { a with scope := before }
    let b := ((expr ctx condition).run start).2
    .enter before :: (acts ctx condition start ++ (blockActs ctx body b ++
      branchActs ctx before rest ((block ctx body).run b).2))

end

/-! ### Performing the acts -/

section

variable {α β : Type} {ctx : Context} {root : Tree Mark} {J : Scope → Prop} {a : Analysis}
  {act : Act} {list more : List Act} {sites sites' : List (Tree Mark)}

/-- The step performs the listed acts from a state, at the listed sites, and each act fits the state
that it finds. -/
structure Enacts (ctx : Context) (root : Tree Mark) (J : Scope → Prop) (m : Analyze α)
    (a : Analysis) (list : List Act) (sites : List (Tree Mark)) : Prop where
  run : (m.run a).2 = play ctx list a
  sites : list.filterMap Act.site? = sites
  fits : ∀ p ∈ attended ctx list a, p.2.Fits ctx root J p.1

namespace Enacts

theorem pure (v : α) : Enacts ctx root J (Pure.pure v : Analyze α) a [] [] :=
  ⟨rfl, rfl, fun _ hp => absurd hp List.not_mem_nil⟩

theorem discard {m : Analyze α} (h : Enacts ctx root J m a list sites) :
    Enacts ctx root J (Functor.discard m) a list sites := ⟨h.run, h.sites, h.fits⟩

theorem bind_get {k : Analysis → Analyze β} (h : Enacts ctx root J (k a) a list sites) :
    Enacts ctx root J (MonadState.get >>= k) a list sites := ⟨h.run, h.sites, h.fits⟩

theorem then_nothing {m : Analyze α} {k : α → Analyze β} (h : Enacts ctx root J m a list sites)
    (hk : ∀ v b, ((k v).run b).2 = b) : Enacts ctx root J (m >>= k) a list sites :=
  ⟨(hk _ _).trans h.run, h.sites, h.fits⟩

/-- Two steps one after the other. -/
theorem bind {m : Analyze α} {k : α → Analyze β} (hm : Enacts ctx root J m a list sites)
    (hk : Enacts ctx root J (k (m.run a).1) (m.run a).2 more sites') :
    Enacts ctx root J (m >>= k) a (list ++ more) (sites ++ sites') where
  run := by
    rw [play_append, ← hm.run]
    exact hk.run
  sites := by rw [List.filterMap_append, hm.sites, hk.sites]
  fits := by
    rw [attended_append, ← hm.run]
    exact fun p hp => (List.mem_append.mp hp).elim (hm.fits p) (hk.fits p)

/-- One act. -/
theorem one {m : Analyze α} (hrun : (m.run a).2 = act.after ctx a) (hfits : act.Fits ctx root J a) :
    Enacts ctx root J m a [act] act.site?.toList where
  run := hrun
  sites := by cases h : act.site? <;> simp [h]
  fits := List.forall_mem_singleton.mpr hfits

/-- An act that takes note of no node, after a step. -/
theorem then_act {m : Analyze α} {k : α → Analyze β} (hm : Enacts ctx root J m a list sites)
    (hrun : ((k (m.run a).1).run (m.run a).2).2 = act.after ctx (m.run a).2)
    (hsite : act.site? = none) (hfits : act.Fits ctx root J (m.run a).2) :
    Enacts ctx root J (m >>= k) a (list ++ [act]) sites := by
  have hone := one hrun hfits
  rw [hsite] at hone
  simpa using hm.bind hone

/-- An act that takes note of no node, before a step. -/
theorem act_then {m : Analyze α} {k : α → Analyze β} (hrun : (m.run a).2 = act.after ctx a)
    (hsite : act.site? = none) (hfits : act.Fits ctx root J a)
    (hk : Enacts ctx root J (k (m.run a).1) (m.run a).2 list sites) :
    Enacts ctx root J (m >>= k) a (act :: list) sites := by
  have hone := one hrun hfits
  rw [hsite] at hone
  exact hone.bind hk

/-- The types of an expression are noted at its end. -/
theorem settle {m : Analyze α} (hm : Enacts ctx root J m a list sites) (mark : Mark)
    (types : α → TypeSet) :
    Enacts ctx root J (m >>= fun v => record mark (types v)) a
      (list ++ [.record mark (types (m.run a).1)]) sites :=
  hm.then_act rfl rfl trivial

end Enacts

theorem enacts_read (mark : Mark) (name : String) :
    Enacts ctx root J (readVariable mark name) a [.read mark name] [.identifier mark name] :=
  .one rfl trivial

theorem enacts_string (mark : Mark) (value : String) (format multiline : Bool) :
    Enacts ctx root J (readString mark value format) a [.string mark value format multiline]
      [.string mark value format multiline] :=
  .one rfl trivial

theorem enacts_keyword (mark : Mark) (key value : Tree Mark) (owner : Mark)
    (function : Option (Signature TypeSet)) :
    Enacts ctx root J (note fun i => { i with
      keywords := i.keywords ++ [⟨mark.id, key.span, key.identifier?.getD "", owner, function⟩] }) a
      [.keyword mark key value owner function] [.keyword mark key value] :=
  .one rfl trivial

theorem enacts_call {mark : Mark} {callee args : Tree Mark} {values : CallArgs}
    (hcall : .call mark callee args ∈ root.preorder)
    (hvalues : Act.Evaluated ctx mark callee values a args) :
    Enacts ctx root J (callFunction ctx mark callee (ctx.callee callee) values) a
      [.call mark callee args values] [.call mark callee args] :=
  .one rfl ⟨hcall, hvalues⟩

theorem enacts_method (mark : Mark) (object : Tree Mark) (member : Mark) (name : String)
    (args : Option (Tree Mark)) (receiver : TypeSet) (values : CallArgs) :
    Enacts ctx root J (callMethod ctx mark (.identifier member name) name receiver
      (candidates ctx receiver name) values) a
      [.method mark object member name args receiver values]
      [.method mark object (.identifier member name) args] :=
  .one rfl trivial

theorem enacts_bind (node : Mark) {target : Mark} {name : String} {op : AssignOp} (types : TypeSet)
    {t : Tree Mark} (ht : t ∈ root.preorder) (htarget : .identifier target name ∈ t.targets)
    (hop : op = .assign → t.compoundTarget? = none) :
    Enacts ctx root J (bindVariable ctx node target name op types) a
      [.bind node target name op types] [.identifier target name] :=
  .one rfl ⟨t, ht, htarget, hop⟩

/-- A part of a node of the tree is a node of the tree. -/
theorem part_mem {t c : Tree Mark} (ht : t ∈ root.preorder) (hc : c ∈ t.children) :
    c ∈ root.preorder :=
  Tree.mem_preorder_trans ht (Tree.mem_preorder_of_mem_children hc (Tree.mem_preorder_self c))

mutual

/-- Evaluating an expression performs its acts. -/
theorem enacts_expr (ctx : Context) : (t : Tree Mark) → t ∈ root.preorder → (a : Analysis) →
    Enacts ctx root J (expr ctx t) a (acts ctx t a) t.sites
  | .boolean .., _, _ | .integer .., _, _ | .file .., _, _ | .arguments .., _, _
  | .assignment .., _, _ | .iteration .., _, _ | .entry .., _, _ | .keyword .., _, _
  | .selection .., _, _ | .malformed .., _, _ | .breakLoop .., _, _ | .continueLoop .., _, _ =>
    .one rfl trivial
  | .string mark value format multiline, _, a =>
    (enacts_string mark value format multiline).settle mark _
  | .identifier mark name, _, a => (enacts_read mark name).settle mark _
  | .array mark elements, ht, a =>
    (enacts_exprs ctx elements (fun t h => part_mem ht h) {} a).settle mark _
  | .dictionary mark items, ht, a =>
    (enacts_entries ctx items (fun t h => part_mem ht h) {} a).settle mark _
  | .unary mark op operand, ht, a => by
    have hoperand := (enacts_expr ctx operand (part_mem ht (by simp [Tree.children])) a).discard
    cases op with
    | not => exact hoperand.settle mark fun _ => TypeSet.single .bool
    | negate => exact hoperand.settle mark fun _ => TypeSet.single .int
  | .binary mark left op right, ht, a => by
    have hleft := enacts_expr ctx left (part_mem ht (by simp [Tree.children])) a
    have hright := enacts_expr ctx right (part_mem ht (by simp [Tree.children]))
    exact hleft.bind ((hright _).settle mark _)
  | .conditional mark condition ifTrue ifFalse, ht, a => by
    have hcondition := enacts_expr ctx condition (part_mem ht (by simp [Tree.children])) a
    have htrue := enacts_expr ctx ifTrue (part_mem ht (by simp [Tree.children]))
    have hfalse := enacts_expr ctx ifFalse (part_mem ht (by simp [Tree.children]))
    exact hcondition.discard.bind ((htrue _).bind ((hfalse _).settle mark _))
  | .subscript mark object index, ht, a => by
    have hobject := enacts_expr ctx object (part_mem ht (by simp [Tree.children])) a
    have hindex := enacts_expr ctx index (part_mem ht (by simp [Tree.children]))
    exact hobject.bind ((hindex _).discard.settle mark _)
  | .call mark callee args, ht, a => by
    -- The parser gives every call an argument list. Without one there is nothing to evaluate.
    cases args with
    | arguments m items =>
      have hargs := part_mem ht (c := .arguments m items) (by simp [Tree.children])
      refine (enacts_arguments ctx mark (ctx.callee callee) items
        (fun t h => part_mem hargs h) a).bind ?_
      exact (enacts_call ht ⟨a, rfl⟩).settle mark _
    | _ => exact (enacts_call ht rfl).settle mark _
  | .method mark object name args, ht, a => by
    have hobject := enacts_expr ctx object (part_mem ht (by simp [Tree.children])) a
    -- Where the name of a method is missing, only the object is evaluated.
    cases name with
    | identifier m name =>
      cases args with
      | none => exact hobject.bind ((enacts_method ..).settle mark _)
      | some args =>
        cases args with
        | arguments m' items =>
          have hargs := part_mem ht (c := .arguments m' items) (by simp [Tree.children])
          refine hobject.bind ((enacts_arguments ctx mark _ items
            (fun t h => part_mem hargs h) _).bind ?_)
          exact (enacts_method ..).settle mark _
        | _ => exact hobject.bind ((enacts_method ..).settle mark _)
    | _ => exact hobject.discard.settle mark _

/-- Evaluating expressions performs their acts in order. -/
theorem enacts_exprs (ctx : Context) : (ts : List (Tree Mark)) →
    (∀ t ∈ ts, t ∈ root.preorder) → (types : TypeSet) → (a : Analysis) →
    Enacts ctx root J (exprs ctx types ts) a (allActs ctx ts a) (Tree.sitesAll ts)
  | [], _, _, _ => .pure _
  | t :: rest, h, types, a => by
    obtain ⟨ht, hrest⟩ := List.forall_mem_cons.mp h
    exact (enacts_expr ctx t ht a).bind (enacts_exprs ctx rest hrest _ _)

/-- Evaluating the entries of a dictionary performs their acts. -/
theorem enacts_entries (ctx : Context) : (ts : List (Tree Mark)) →
    (∀ t ∈ ts, t ∈ root.preorder) → (types : TypeSet) → (a : Analysis) →
    Enacts ctx root J (entries ctx types ts) a (entryActs ctx ts a) (Tree.entrySites ts)
  | [], _, _, _ => .pure _
  | t :: rest, h, types, a => by
    obtain ⟨ht, hrest⟩ := List.forall_mem_cons.mp h
    cases t with
    | entry mark key value =>
      have hkey := enacts_expr ctx key (part_mem ht (by simp [Tree.children])) a
      have hvalue := enacts_expr ctx value (part_mem ht (by simp [Tree.children]))
      exact hkey.discard.bind ((hvalue _).bind (enacts_entries ctx rest hrest _ _))
    | _ => exact enacts_entries ctx rest hrest types a

/-- Evaluating the arguments of a call performs their acts. -/
theorem enacts_arguments (ctx : Context) (call : Mark) (function : Option (Signature TypeSet)) :
    (ts : List (Tree Mark)) → (∀ t ∈ ts, t ∈ root.preorder) → (a : Analysis) →
    Enacts ctx root J (arguments ctx call function ts) a (argumentActs ctx call function ts a)
      (Tree.argumentSites ts)
  | [], _, _ => .pure _
  | t :: rest, h, a => by
    obtain ⟨ht, hrest⟩ := List.forall_mem_cons.mp h
    have hargs := enacts_arguments ctx call function rest hrest
    cases t with
    | keyword mark key value =>
      have hvalue := enacts_expr ctx value (part_mem ht (by simp [Tree.children])) a
      exact hvalue.bind ((enacts_keyword mark key value call function).bind
        ((hargs _).then_nothing fun _ _ => rfl))
    | _ => exact (enacts_expr ctx _ ht a).bind ((hargs _).then_nothing fun _ _ => rfl)

end

/-- Binding the variables of a loop performs its acts. -/
theorem enacts_bindLoopVariables (ctx : Context) (node : Mark) {t : Tree Mark}
    (ht : t ∈ root.preorder) (hplain : t.compoundTarget? = none) :
    (pairs : List (Tree Mark × TypeSet)) →
    (∀ n ∈ (pairs.map Prod.fst).filter Tree.isIdentifier, n ∈ t.targets) → (a : Analysis) →
    Enacts ctx root J (bindLoopVariables ctx node pairs) a (loopActs node pairs)
      ((pairs.map Prod.fst).filter Tree.isIdentifier)
  | [], _, _ => .pure _
  | (n, types) :: rest, h, a => by
    have hrest := enacts_bindLoopVariables ctx node ht hplain rest
    cases n with
    | identifier m name =>
      rw [List.map_cons, List.filter_cons_of_pos rfl] at h ⊢
      obtain ⟨hname, hmore⟩ := List.forall_mem_cons.mp h
      -- A variable of a loop is bound like one that is assigned.
      show Enacts ctx root J (do
        bindVariable ctx node m name .assign types
        bindLoopVariables ctx node rest) a _ _
      exact (enacts_bind node types ht hname fun _ => hplain).bind (hrest hmore _)
    | _ => exact hrest h a

/-! ### Invariants -/

/-- What the analysis of a tree keeps: `I` holds of its states, and `J` of the scopes that it goes
on from. Every act that fits keeps both, and so does joining two scopes. -/
structure Invariant (ctx : Context) (root : Tree Mark) (I : Analysis → Prop) (J : Scope → Prop) :
    Prop where
  scope : ∀ {a : Analysis}, I a → J a.scope
  merge : ∀ {s s' : Scope}, J s → J s' → J (s.merge s')
  act : ∀ {a : Analysis} {act : Act}, act.Fits ctx root J a → I a → I (act.after ctx a)

/-- That nothing is known is always kept. -/
theorem invariant_true (ctx : Context) (root : Tree Mark) :
    Invariant ctx root (fun _ => True) (fun _ => True) :=
  ⟨fun _ => trivial, fun _ _ => trivial, fun _ _ => trivial⟩

variable {I : Analysis → Prop}

theorem Invariant.enter (inv : Invariant ctx root I J) {s : Scope} (hs : J s) (ha : I a) :
    I { a with scope := s } :=
  inv.act (show (Act.enter s).Fits ctx root J a from hs) ha

/-- What is known after some branches, when another one ends. -/
theorem Invariant.merged (inv : Invariant ctx root I J) {merged : Option Scope} {s : Scope}
    (hmerged : ∀ s ∈ merged, J s) (hs : J s) : J ((merged.map (·.merge s)).getD s) := by
  cases merged with
  | none => exact hs
  | some s' => exact inv.merge (hmerged s' rfl) hs

theorem Invariant.play (inv : Invariant ctx root I J) (list : List Act) (a : Analysis)
    (hfits : ∀ p ∈ attended ctx list a, p.2.Fits ctx root J p.1) (ha : I a) :
    I (play ctx list a) := by
  induction list generalizing a with
  | nil => exact ha
  | cons act list ih =>
    obtain ⟨hact, hlist⟩ := List.forall_mem_cons.mp hfits
    exact ih (act.after ctx a) hlist (inv.act hact ha)

theorem Enacts.keeps {m : Analyze α} (h : Enacts ctx root J m a list sites)
    (inv : Invariant ctx root I J) (ha : I a) : I (m.run a).2 := by
  rw [h.run]
  exact inv.play list a h.fits ha

/-- The body of a loop after its header. What was known before the loop may still hold after it. -/
theorem Enacts.loop {m : Analyze Unit} {body : List (Tree Mark)} {before : Scope}
    (inv : Invariant ctx root I J) (ha : I a) (hbefore : J before)
    (hm : Enacts ctx root J m a list sites)
    (hbody : ∀ b, I b → Enacts ctx root J (block ctx body) b (blockActs ctx body b) sites') :
    let inside := Analyze.play ctx list a
    Enacts ctx root J (do m; block ctx body; modifyScope (·.merge before)) a
      (list ++ (blockActs ctx body inside ++
        [.enter (((block ctx body).run inside).2.scope.merge before)])) (sites ++ sites') := by
  intro inside
  rw [show inside = (m.run a).2 from hm.run.symm]
  have hinside := hbody _ (hm.keeps inv ha)
  refine hm.bind (hinside.then_act rfl rfl (inv.merge ?_ hbefore))
  exact inv.scope (hinside.keeps inv (hm.keeps inv ha))

mutual

/-- Running a statement performs its acts. -/
theorem enacts_statement (inv : Invariant ctx root I J) : (t : Tree Mark) → t ∈ root.preorder →
    (a : Analysis) → I a →
    Enacts ctx root J (statement ctx t) a (statementActs ctx t a) t.statementSites
  | .assignment mark target op value, ht, a, _ => by
    refine (enacts_expr ctx value (part_mem ht (by simp [Tree.children])) a).bind ?_
    cases target with
    | identifier m name => exact enacts_bind mark _ ht (List.mem_singleton_self _) fun h => if_pos h
    | _ => exact .pure _
  | .selection mark bs, ht, a, ha => by
    obtain ⟨hbranches, hafter⟩ := enacts_branches inv a.scope (inv.scope ha) none nofun bs
      (fun c hc => part_mem ht hc) a ha
    exact .bind_get (hbranches.then_act rfl rfl hafter)
  | .iteration mark names iterable body, ht, a, ha => by
    have hiterable := enacts_expr ctx iterable (part_mem ht (by simp [Tree.children])) a (J := J)
    have hbody := enacts_block inv body fun t h => part_mem ht (by simp [Tree.children, h])
    have hb := hiterable.keeps inv ha
    refine hiterable.bind (.bind_get ?_)
    simp only
    have hlength := length_loopTypes names.length ((expr ctx iterable).run a).1
    -- The state after what is looped over, and the types of the variables, are all that the rest of
    -- the loop sees of it.
    generalize ((expr ctx iterable).run a).2 = b at hb ⊢
    generalize loopTypes names.length ((expr ctx iterable).run a).1 = loop at hlength ⊢
    obtain ⟨held, problem⟩ := loop
    have hnames : (names.zip held).map Prod.fst = names := List.map_fst_zip hlength.ge
    have hbinds := fun b => enacts_bindLoopVariables (J := J) ctx mark ht rfl (names.zip held)
      (by rw [hnames]; exact fun _ h => h) b
    rw [hnames] at hbinds
    -- A problem with what is looped over is reported before the variables are bound.
    cases problem with
    | none => exact (hbinds b).loop inv hb (inv.scope hb) hbody
    | some p =>
      have hheader : Enacts ctx root J (do
          report p iterable.span
          bindLoopVariables ctx mark (names.zip held)) b
          (.report p iterable.span :: loopActs mark (names.zip held)) _ :=
        .act_then rfl rfl trivial (hbinds _)
      exact hheader.loop inv hb (inv.scope hb) hbody
  | .breakLoop _, _, _, _ | .continueLoop _, _, _, _ | .malformed _ _, _, _, _ => .pure _
  | .file .., ht, a, _ | .arguments .., ht, a, _ | .array .., ht, a, _ | .binary .., ht, a, _
  | .boolean .., ht, a, _ | .conditional .., ht, a, _ | .dictionary .., ht, a, _
  | .call .., ht, a, _ | .identifier .., ht, a, _ | .integer .., ht, a, _ | .entry .., ht, a, _
  | .keyword .., ht, a, _ | .method .., ht, a, _ | .string .., ht, a, _ | .subscript .., ht, a, _
  | .unary .., ht, a, _ => (enacts_expr ctx _ ht a).discard

/-- Running statements performs their acts in order. -/
theorem enacts_block (inv : Invariant ctx root I J) : (ts : List (Tree Mark)) →
    (∀ t ∈ ts, t ∈ root.preorder) → (a : Analysis) → I a →
    Enacts ctx root J (block ctx ts) a (blockActs ctx ts a) (Tree.blockSites ts)
  | [], _, _, _ => .pure _
  | t :: rest, h, a, ha => by
    obtain ⟨ht, hrest⟩ := List.forall_mem_cons.mp h
    have hfirst := enacts_statement inv t ht a ha
    exact hfirst.bind (enacts_block inv rest hrest _ (hfirst.keeps inv ha))

/-- Running a selection performs the acts of all its branches. What is known after it is joined
from what is known before it and after its branches. -/
theorem enacts_branches (inv : Invariant ctx root I J) (before : Scope) (hbefore : J before)
    (merged : Option Scope) (hmerged : ∀ s ∈ merged, J s) : (bs : Branches Mark) →
    (∀ t ∈ bs.children, t ∈ root.preorder) → (a : Analysis) → I a →
    Enacts ctx root J (branches ctx before merged bs) a (branchActs ctx before bs a) bs.sites ∧
      J ((branches ctx before merged bs).run a).1
  | .done, _, _, _ => by
    refine ⟨.pure _, inv.merge ?_ hbefore⟩
    cases merged with
    | none => exact hbefore
    | some s => exact hmerged s rfl
  | .otherwise body, h, a, ha => by
    have hbody := enacts_block inv body h _ (inv.enter hbefore ha)
    refine ⟨.act_then rfl rfl hbefore (hbody.then_nothing fun _ _ => rfl), ?_⟩
    exact inv.merged hmerged (inv.scope (hbody.keeps inv (inv.enter hbefore ha)))
  | .arm condition body rest, h, a, ha => by
    rw [Branches.children, List.forall_mem_cons, List.forall_mem_append] at h
    obtain ⟨hcondition, hbody, hrest⟩ := h
    -- A branch starts from the scope before the selection, not from where the branch above it
    -- ended.
    have hcondition := (enacts_expr (J := J) ctx condition hcondition
      { a with scope := before }).discard
    have hmid := hcondition.keeps inv (inv.enter hbefore ha)
    have hbody := enacts_block inv body hbody _ hmid
    have hafter := hbody.keeps inv hmid
    obtain ⟨hmore, hresult⟩ := enacts_branches inv before hbefore (some _)
      (fun s hs => Option.some.inj hs ▸ inv.merged hmerged (inv.scope hafter)) rest hrest _ hafter
    exact ⟨.act_then rfl rfl hbefore (hcondition.bind (hbody.bind (.bind_get hmore))), hresult⟩

end

end

end Analyze

namespace SourceFile

open Analyze

/-- The statements of a file. -/
def statements (f : SourceFile) : List (Tree Mark) :=
  match f.root with
  | .file _ ts => ts
  | _ => []

/-- The state in which the analysis of a file starts. -/
def start (f : SourceFile) (scope : Scope) : Analysis :=
  { scope, diagnostics := f.errors.map Diagnostic.ofSyntaxError }

/-- The acts of the analysis of a file. -/
def acts (f : SourceFile) (ctx : Context) (scope : Scope) : List Act :=
  blockActs ctx f.statements (f.start scope)

theorem analyze_eq (f : SourceFile) (ctx : Context) (scope : Scope) :
    f.analyze ctx.catalog ctx.file scope = ((block ctx f.statements).run (f.start scope)).2 := by
  obtain ⟨text, root, errors⟩ := f
  cases root with
  | _ => rfl

/-- The analysis of a file performs the acts of its statements. -/
theorem enacts_statements (f : SourceFile) {ctx : Context} {I : Analysis → Prop}
    {J : Scope → Prop} (inv : Invariant ctx f.root I J) (scope : Scope)
    (hstart : I (f.start scope)) :
    Enacts ctx f.root J (block ctx f.statements) (f.start scope) (f.acts ctx scope)
      (Tree.blockSites f.statements) := by
  refine enacts_block inv _ (fun t ht => ?_) _ hstart
  unfold statements at ht
  split at ht
  · next m ts hroot =>
    rw [hroot]
    exact part_mem (Tree.mem_preorder_self _) ht
  · cases ht

/-- The analysis of a file keeps what every act keeps. -/
theorem keeps_analyze (f : SourceFile) (ctx : Context) {I : Analysis → Prop} {J : Scope → Prop}
    (inv : Invariant ctx f.root I J) {scope : Scope} (hstart : I (f.start scope)) :
    I (f.analyze ctx.catalog ctx.file scope) := by
  rw [analyze_eq]
  exact (f.enacts_statements inv scope hstart).keeps inv hstart

end SourceFile

end MesonLens
