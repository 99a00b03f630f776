import MesonLens.Proofs.Analysis.Entries
import MesonLens.Editor.NameRole
import Mathlib.Data.List.Flatten

/-!
# `MesonLens.Proofs.Analysis.Indexing`: the index of a file is complete

`SourceFile.due` tells for one node which entries the index is to have for it. The index is filled
while the file is evaluated, in another order than that of the nodes, and names are left out where
they stand for a function, a method or a keyword argument. It comes to the same entries:

* `Analyze.made_acts`: evaluating an expression makes the entries that are due for the nodes of the
  expression, and even in the order of their numbers;
* `Analyze.matches_statement`: for statements the entries are the same up to order. Only the names
  that a statement binds are out of place (`IndexEntry.Matches`): they come before the value in the
  text, and are bound after it;
* `SourceFile.index_complete`: the lists of a whole file, with nothing twice.

The text has to be without errors. Elsewhere whole parts of the tree are passed over.
-/

set_option autoImplicit false

namespace MesonLens

/-- Whether the node is a call of a function or of a method. -/
def Tree.isCall (t : Tree Mark) : Bool := t.kind == .call || t.kind == .method

/-- The entry of a name that a statement binds. -/
def IndexEntry.ofTarget (statement : Mark) (target : Tree Mark) : IndexEntry :=
  .assignment statement target.note (target.identifier?.getD "")

namespace SourceFile

/-- Whether a name at the node with the number stands for a variable. -/
def namesVariable (f : SourceFile) (id : Nat) : Bool :=
  (NameRole.of (f.ancestors id).head? id).isVariable

/-- The nearest call above the node with the number. -/
def callAbove? (f : SourceFile) (id : Nat) : Option (Tree Mark) :=
  (f.ancestors id).find? Tree.isCall

/-- The entries that the analysis is to make for a node. -/
def due (f : SourceFile) (catalog : Catalog) (n : Tree Mark) : List IndexEntry :=
  match n with
  | .identifier m name =>
    if f.namesVariable m.id then [.identifier m name, .typed m.id] else []
  | .string m value _ _ => [.string m value, .typed m.id]
  | .call m callee _ => Analyze.callEntries catalog m callee ++ [.typed m.id]
  | .method m _ name _ => [.method m (name.identifier?.getD "") name.span, .typed m.id]
  | .keyword m key _ =>
    [.keyword m.id key.span (key.identifier?.getD "") ((f.callAbove? m.id).map Tree.note)]
  | .assignment m target _ _ => [.ofTarget m target]
  | .iteration m names _ _ => names.map (.ofTarget m)
  | .boolean m _ | .integer m _ _ | .array m _ | .dictionary m _ | .unary m _ _ | .binary m _ _ _
  | .conditional m _ _ _ | .subscript m _ _ => [.typed m.id]
  | .file .. | .arguments .. | .entry .. | .selection .. | .malformed .. | .breakLoop ..
  | .continueLoop .. => []

/-- The entries for a node and what is below it, the parts of a node before the node. -/
def dueBelow (f : SourceFile) (catalog : Catalog) (t : Tree Mark) : List IndexEntry :=
  t.postorder.flatMap (f.due catalog)

theorem dueBelow_eq (f : SourceFile) (catalog : Catalog) (t : Tree Mark) :
    f.dueBelow catalog t = t.children.flatMap (f.dueBelow catalog) ++ f.due catalog t := by
  unfold dueBelow
  rw [Tree.postorder_eq, List.flatMap_append, List.flatMap_assoc, List.flatMap_singleton]

theorem dueBelow_arguments (f : SourceFile) (catalog : Catalog) (m : Mark)
    (items : List (Tree Mark)) :
    f.dueBelow catalog (.arguments m items) = items.flatMap (f.dueBelow catalog) := by
  rw [dueBelow_eq]
  exact List.append_nil _

/-- Every node has a number of its own, and the nodes follow the grammar. -/
structure Proper (f : SourceFile) : Prop where
  ids : f.root.ids.Nodup
  wellFormed : f.root.WellFormed

theorem proper_parse {text : String} (h : (parse text).errors = []) : (parse text).Proper :=
  ⟨nodup_ids_root text, wellFormed_root text h⟩

variable {f : SourceFile} {p c : Tree Mark}

theorem Proper.formed (hf : f.Proper) (hp : p ∈ f.nodes) : p.Formed :=
  hf.wellFormed p (mem_nodes.mp hp)

theorem part_mem_nodes (hp : p ∈ f.nodes) (hc : c ∈ p.children) : c ∈ f.nodes :=
  mem_nodes.mpr (Analyze.part_mem (mem_nodes.mp hp) hc)

theorem Proper.ancestors_part (hf : f.Proper) (hp : p ∈ f.nodes) (hc : c ∈ p.children) :
    f.ancestors c.id = p :: f.ancestors p.id := by
  obtain ⟨above, habove, -⟩ := Tree.ancestors?_spec hf.ids (mem_nodes.mp hp)
  rw [ancestors, ancestors, Tree.ancestors?_part hf.ids (mem_nodes.mp hp) hc, habove]
  rfl

/-- What a name stands for is told by the node that it is a part of. -/
theorem Proper.namesVariable_part (hf : f.Proper) (hp : p ∈ f.nodes) (hc : c ∈ p.children) :
    f.namesVariable c.id = (NameRole.of (some p) c.id).isVariable := by
  rw [namesVariable, hf.ancestors_part hp hc, List.head?_cons]

/-- The parts of a node have numbers of their own. -/
theorem Proper.nodup_parts (hf : f.Proper) (hp : p ∈ f.nodes) : (p.children.map Tree.id).Nodup :=
  (List.nodup_flatMap.mp (Tree.nodup_parts hf.ids).2).1 p (mem_nodes.mp hp)

/-- A name that a method is called on stands for a variable. -/
theorem Proper.role_object (hf : f.Proper) {m : Mark} {object name : Tree Mark}
    {args : Option (Tree Mark)} (hmem : .method m object name args ∈ f.nodes) :
    (NameRole.of (some (.method m object name args)) object.id).isVariable = true := by
  have hne : name.id ≠ object.id := fun h =>
    (List.nodup_cons.mp (hf.nodup_parts hmem)).1 (h ▸ List.mem_cons_self)
  rw [NameRole.of, if_neg hne]
  rfl

/-- A name that is given as a keyword argument stands for a variable. -/
theorem Proper.role_value (hf : f.Proper) {m : Mark} {key value : Tree Mark}
    (hmem : .keyword m key value ∈ f.nodes) :
    (NameRole.of (some (.keyword m key value)) value.id).isVariable = true := by
  have hne : key.id ≠ value.id := fun h =>
    (List.nodup_cons.mp (hf.nodup_parts hmem)).1 (h ▸ List.mem_cons_self)
  rw [NameRole.of, if_neg hne]
  rfl

/-- The call of an argument is the one that it stands in. -/
theorem Proper.callAbove?_item (hf : f.Proper) {call args item : Tree Mark} (hcall : call ∈ f.nodes)
    (hkind : call.isCall = true) (hargs : args ∈ call.children) (hargskind : args.kind = .arguments)
    (hitem : item ∈ args.children) : f.callAbove? item.id = some call := by
  have hnot : ¬ args.isCall = true := by
    rw [Tree.isCall, hargskind]
    decide
  rw [callAbove?, hf.ancestors_part (part_mem_nodes hcall hargs) hitem,
    hf.ancestors_part hcall hargs, List.find?_cons_of_neg hnot, List.find?_cons_of_pos hkind]

/-! ### Expressions -/

/-- The node is one of the file, its kind is one of some, and if it is a name it names a
variable. -/
structure Meets (f : SourceFile) (p : Kind → Prop) (t : Tree Mark) : Prop where
  mem : t ∈ f.nodes
  kind : p t.kind
  role : f.namesVariable t.id = true

theorem Meets.part {q : Kind → Prop} (hf : f.Proper) (hp : p ∈ f.nodes) (hc : c ∈ p.children)
    (hkind : q c.kind) (hrole : (NameRole.of (some p) c.id).isVariable = true) : f.Meets q c :=
  ⟨part_mem_nodes hp hc, hkind, by rw [hf.namesVariable_part hp hc, hrole]⟩

/-- The entries of a name that stands for a variable. -/
theorem dueBelow_name (catalog : Catalog) {n : Tree Mark} (h : f.Meets (· = .identifier) n) :
    f.dueBelow catalog n = [.identifier n.note (n.identifier?.getD ""), .typed n.id] := by
  cases n with
  | identifier m name =>
    rw [dueBelow_eq, due, show f.namesVariable m.id = true from h.role]
    rfl
  | _ => cases h.kind

/-- Nothing is due for the name of a function, a method or a keyword argument. -/
theorem Proper.dueBelow_label (hf : f.Proper) (catalog : Catalog) (hp : p ∈ f.nodes)
    (hc : c ∈ p.children) (hkind : c.kind = .identifier)
    (hrole : (NameRole.of (some p) c.id).isVariable = false) : f.dueBelow catalog c = [] := by
  cases c with
  | identifier m name =>
    have hvariable := hf.namesVariable_part hp hc
    rw [hrole] at hvariable
    rw [dueBelow_eq, due, show f.namesVariable m.id = false from hvariable]
    rfl
  | _ => cases hkind

end SourceFile

/-! ### Order -/

/-- Whether the entries of the list are made in the order of the nodes. A name is bound after its
value is evaluated, but comes before it. -/
def Listing.inOrder : Listing → Bool
  | identifiers | assignments | types => false
  | calls | methodCalls | keywords | includes | strings => true

/-- The same entries up to order, and in the same order where the list is in the order of the
nodes. -/
structure IndexEntry.Matches (due made : List IndexEntry) : Prop where
  perm : due.Perm made
  order : ∀ l : Listing, l.inOrder = true → on l due = on l made

namespace IndexEntry.Matches

variable {es es' ms ms' : List IndexEntry}

theorem of_eq (h : es = ms) : Matches es ms := by
  subst h
  exact ⟨.refl _, fun _ _ => rfl⟩

theorem trans (h : Matches es es') (h' : Matches es' ms) : Matches es ms :=
  ⟨h.perm.trans h'.perm, fun l hl => (h.order l hl).trans (h'.order l hl)⟩

theorem symm (h : Matches es ms) : Matches ms es :=
  ⟨h.perm.symm, fun l hl => (h.order l hl).symm⟩

theorem append (h : Matches es ms) (h' : Matches es' ms') : Matches (es ++ es') (ms ++ ms') := by
  refine ⟨h.perm.append h'.perm, fun l hl => ?_⟩
  rw [on_append, on_append, h.order l hl, h'.order l hl]

theorem on_eq_nil (h : ∀ e ∈ es, e.listing.inOrder = false) {l : Listing} (hl : l.inOrder = true) :
    on l es = [] := by
  refine List.filter_eq_nil_iff.mpr fun e he hlisting => ?_
  rw [← of_decide_eq_true hlisting, h e he] at hl
  cases hl

/-- Entries that are in no order. -/
theorem of_perm (h : es.Perm ms) (hes : ∀ e ∈ es, e.listing.inOrder = false) : Matches es ms := by
  refine ⟨h, fun l hl => ?_⟩
  rw [on_eq_nil hes hl, on_eq_nil (fun e he => hes e (h.mem_iff.mpr he)) hl]

/-- Entries that are in no order may be made later. -/
theorem swap (es' : List IndexEntry) (hes : ∀ e ∈ es, e.listing.inOrder = false) :
    Matches (es ++ es') (es' ++ es) := by
  refine ⟨List.perm_append_comm, fun l hl => ?_⟩
  rw [on_append, on_append, on_eq_nil hes hl, List.nil_append, List.append_nil]

end IndexEntry.Matches

namespace Analyze

open IndexEntry (Matches)
open SourceFile (Proper Meets due dueBelow_eq dueBelow_arguments dueBelow_name part_mem_nodes)

variable {f : SourceFile}

/-- The entries that a list of acts makes. -/
def made (ctx : Context) (list : List Act) : List IndexEntry :=
  list.flatMap (Act.entries ctx.catalog)

theorem made_nil (ctx : Context) : made ctx [] = [] := rfl

theorem made_append (ctx : Context) (list more : List Act) :
    made ctx (list ++ more) = made ctx list ++ made ctx more := List.flatMap_append

/-- The node is an argument of a call that is noted with `owner`: a value or a keyword argument. -/
structure IsArgument (f : SourceFile) (owner : Mark) (t : Tree Mark) : Prop
    extends f.Meets (fun k => k.isValue ∨ k = .keyword) t where
  call : (f.callAbove? t.id).map Tree.note = some owner

theorem isArgument (hf : f.Proper) {call : Tree Mark} {m : Mark} {items : List (Tree Mark)}
    (hcall : call ∈ f.nodes) (hkind : call.isCall = true)
    (hargs : .arguments m items ∈ call.children) : ∀ t ∈ items, IsArgument f call.note t := by
  intro t ht
  have hmem := part_mem_nodes hcall hargs
  refine ⟨.part hf hmem ht (hf.formed hmem t ht) rfl, ?_⟩
  rw [hf.callAbove?_item hcall hkind hargs rfl ht, Option.map_some]

mutual

/-- The acts of an expression make the entries that are due for it and what is below it, and in the
order of the nodes. -/
theorem made_acts (hf : f.Proper) (ctx : Context) : (t : Tree Mark) →
    f.Meets (Kind.isValue ·) t → (a : Analysis) →
    made ctx (acts ctx t a) = f.dueBelow ctx.catalog t
  | .boolean .., _, _ | .integer .., _, _ | .string .., _, _ => by
    rw [dueBelow_eq]
    rfl
  | .identifier m name, ht, _ => (dueBelow_name ctx.catalog ⟨ht.mem, rfl, ht.role⟩).symm
  | .array m elements, ht, a => by
    have hformed := hf.formed ht.mem
    rw [dueBelow_eq, acts, made_append,
      made_allActs hf ctx elements fun t h => .part hf ht.mem h (hformed t h) rfl]
    rfl
  | .dictionary m items, ht, a => by
    have hformed := hf.formed ht.mem
    rw [dueBelow_eq, acts, made_append,
      made_entryActs hf ctx items fun t h => ⟨part_mem_nodes ht.mem h, hformed t h⟩]
    rfl
  | .unary m op operand, ht, a => by
    have hformed := hf.formed ht.mem
    rw [dueBelow_eq, acts, made_append, Tree.children, List.flatMap_singleton,
      made_acts hf ctx operand (.part hf ht.mem (by simp [Tree.children]) hformed rfl)]
    rfl
  | .binary m left _ right, ht, a | .subscript m left right, ht, a => by
    have hformed := hf.formed ht.mem
    rw [dueBelow_eq, acts, made_append, made_append, Tree.children, List.flatMap_cons,
      List.flatMap_singleton, List.append_assoc,
      made_acts hf ctx left (.part hf ht.mem (by simp [Tree.children]) hformed.1 rfl),
      made_acts hf ctx right (.part hf ht.mem (by simp [Tree.children]) hformed.2 rfl)]
    rfl
  | .conditional m condition ifTrue ifFalse, ht, a => by
    have hformed := hf.formed ht.mem
    rw [dueBelow_eq, acts, made_append, made_append, made_append, Tree.children,
      List.flatMap_cons, List.flatMap_cons, List.flatMap_singleton, List.append_assoc,
      List.append_assoc,
      made_acts hf ctx condition (.part hf ht.mem (by simp [Tree.children]) hformed.1 rfl),
      made_acts hf ctx ifTrue (.part hf ht.mem (by simp [Tree.children]) hformed.2.1 rfl),
      made_acts hf ctx ifFalse (.part hf ht.mem (by simp [Tree.children]) hformed.2.2 rfl)]
    rfl
  | .call m callee args, ht, a => by
    obtain ⟨hcallee, hargs⟩ := hf.formed ht.mem
    cases args with
    | arguments m' items =>
      -- Nothing is due for the name of the function, and nothing is done with it.
      have hlabel := hf.dueBelow_label ctx.catalog ht.mem (c := callee) (by simp [Tree.children])
        hcallee (by rw [NameRole.of, if_pos rfl]; rfl)
      have hitems : ∀ t ∈ items, IsArgument f m t :=
        isArgument hf ht.mem rfl (m := m') (by simp [Tree.children])
      rw [dueBelow_eq, acts, made_append, Tree.children, List.flatMap_cons,
        List.flatMap_singleton, hlabel, dueBelow_arguments,
        made_argumentActs hf ctx m _ items hitems]
      rfl
    | _ => cases hargs
  | .method m object name args, ht, a => by
    obtain ⟨hobject, hname, hargs⟩ := hf.formed ht.mem
    cases name with
    | identifier m' name =>
      cases args with
      | none => cases hargs
      | some args =>
        cases args with
        | arguments m'' items =>
          have hlabel := hf.dueBelow_label ctx.catalog ht.mem (c := .identifier m' name)
            (by simp [Tree.children]) rfl (by rw [NameRole.of, if_pos rfl]; rfl)
          have hitems : ∀ t ∈ items, IsArgument f m t :=
            isArgument hf ht.mem rfl (m := m'') (by simp [Tree.children])
          have hobject := made_acts hf ctx object
            (.part hf ht.mem (by simp [Tree.children]) hobject (hf.role_object ht.mem))
          rw [dueBelow_eq, acts, made_append, made_append, hobject, Tree.children,
            List.flatMap_cons, List.flatMap_cons, Option.toList_some, List.flatMap_singleton,
            hlabel, dueBelow_arguments, List.append_assoc, List.nil_append,
            made_argumentActs hf ctx m _ items hitems]
          rfl
        | _ => cases hargs
    | _ => cases hname
  | .file .., ht, _ | .arguments .., ht, _ | .assignment .., ht, _ | .iteration .., ht, _
  | .entry .., ht, _ | .keyword .., ht, _ | .selection .., ht, _ | .malformed .., ht, _
  | .breakLoop .., ht, _ | .continueLoop .., ht, _ => absurd ht.kind Bool.false_ne_true

/-- The same for expressions in order. -/
theorem made_allActs (hf : f.Proper) (ctx : Context) : (ts : List (Tree Mark)) →
    (∀ t ∈ ts, f.Meets (Kind.isValue ·) t) → (a : Analysis) →
    made ctx (allActs ctx ts a) = ts.flatMap (f.dueBelow ctx.catalog)
  | [], _, _ => rfl
  | t :: rest, h, a => by
    obtain ⟨ht, hrest⟩ := List.forall_mem_cons.mp h
    rw [allActs, made_append, made_acts hf ctx t ht, made_allActs hf ctx rest hrest,
      List.flatMap_cons]

/-- The same for the entries of a dictionary. -/
theorem made_entryActs (hf : f.Proper) (ctx : Context) : (ts : List (Tree Mark)) →
    (∀ t ∈ ts, t ∈ f.nodes ∧ t.kind = .entry) → (a : Analysis) →
    made ctx (entryActs ctx ts a) = ts.flatMap (f.dueBelow ctx.catalog)
  | [], _, _ => rfl
  | t :: rest, h, a => by
    obtain ⟨⟨hmem, hkind⟩, hrest⟩ := List.forall_mem_cons.mp h
    cases t with
    | entry m key value =>
      have hformed := hf.formed hmem
      rw [entryActs, made_append, made_append, List.flatMap_cons, dueBelow_eq, Tree.children,
        List.flatMap_cons, List.flatMap_singleton,
        made_acts hf ctx key (.part hf hmem (by simp [Tree.children]) hformed.1 rfl),
        made_acts hf ctx value (.part hf hmem (by simp [Tree.children]) hformed.2 rfl),
        made_entryActs hf ctx rest hrest]
      simp only [due, List.append_nil, List.append_assoc]
    | _ => cases hkind

/-- The same for the arguments of a call. -/
theorem made_argumentActs (hf : f.Proper) (ctx : Context) (owner : Mark)
    (function : Option (Signature TypeSet)) : (ts : List (Tree Mark)) →
    (∀ t ∈ ts, IsArgument f owner t) → (a : Analysis) →
    made ctx (argumentActs ctx owner function ts a) = ts.flatMap (f.dueBelow ctx.catalog)
  | [], _, _ => rfl
  | t :: rest, h, a => by
    obtain ⟨ht, hrest⟩ := List.forall_mem_cons.mp h
    have hmore := made_argumentActs hf ctx owner function rest hrest
    cases t with
    | keyword m key value =>
      obtain ⟨hkey, hvalue⟩ := hf.formed ht.mem
      -- The name of a keyword argument is not a use of a variable, so nothing is due for it.
      have hlabel := hf.dueBelow_label ctx.catalog ht.mem (c := key) (by simp [Tree.children])
        hkey (by rw [NameRole.of, if_pos rfl]; rfl)
      have hvalue := made_acts hf ctx value
        (.part hf ht.mem (by simp [Tree.children]) hvalue (hf.role_value ht.mem))
      have hdue : f.due ctx.catalog (.keyword m key value) =
          [.keyword m.id key.span (key.identifier?.getD "") (some owner)] := by
        rw [due, show (f.callAbove? m.id).map Tree.note = some owner from ht.call]
      rw [argumentActs, made_append, hvalue, List.flatMap_cons,
        dueBelow_eq f _ (.keyword m key value), Tree.children, List.flatMap_cons,
        List.flatMap_singleton, hlabel, List.nil_append, List.append_assoc, hdue, ← hmore]
      rfl
    | _ =>
      have hvalue := ht.kind.resolve_right fun h => by cases h
      have hitem := made_acts hf ctx _ ⟨ht.mem, hvalue, ht.role⟩ a
      rw [List.flatMap_cons, ← hitem, ← hmore, ← made_append]
      rfl

end

/-! ### Statements -/

theorem role_assignment (m : Mark) (target : Tree Mark) (op : AssignOp) (value : Tree Mark)
    (id : Nat) : (NameRole.of (some (.assignment m target op value)) id).isVariable = true := by
  rw [NameRole.of]
  split <;> rfl

theorem role_iteration (m : Mark) (names : List (Tree Mark)) (iterable : Tree Mark)
    (body : List (Tree Mark)) (id : Nat) :
    (NameRole.of (some (.iteration m names iterable body)) id).isVariable = true := by
  rw [NameRole.of]
  split <;> rfl

/-- The entries that are made when a name is bound. -/
def bindingEntries (node : Mark) (n : Tree Mark) : List IndexEntry :=
  boundEntries node n.note (n.identifier?.getD "")

/-- The entries of names and of their bindings are those that binding the names makes. -/
theorem perm_boundEntries (catalog : Catalog) (node : Mark) {names : List (Tree Mark)}
    (h : ∀ n ∈ names, f.Meets (· = .identifier) n) :
    (names.map (IndexEntry.ofTarget node) ++ names.flatMap (f.dueBelow catalog)).Perm
      (names.flatMap (bindingEntries node)) := by
  refine (List.map_append_flatMap_perm ..).trans (List.Perm.flatMap_left _ fun n hn => ?_)
  rw [dueBelow_name catalog (h n hn)]
  exact @List.perm_append_comm _ [_, _] [_]

/-- Names come before what they are bound to, and are bound after it. -/
theorem matches_binding (catalog : Catalog) (node : Mark) {names : List (Tree Mark)}
    (h : ∀ n ∈ names, f.Meets (· = .identifier) n) (value : List IndexEntry)
    {body body' : List IndexEntry} (hbody : Matches body body') :
    Matches (names.flatMap (f.dueBelow catalog) ++
        (value ++ (body ++ names.map (IndexEntry.ofTarget node))))
      (value ++ (names.flatMap (bindingEntries node) ++ body')) := by
  have hnames : ∀ e ∈ names.flatMap (f.dueBelow catalog), e.listing.inOrder = false := by
    intro e he
    obtain ⟨n, hn, he⟩ := List.mem_flatMap.mp he
    rw [dueBelow_name catalog (h n hn)] at he
    simp only [List.mem_cons, List.not_mem_nil, or_false] at he
    rcases he with rfl | rfl <;> rfl
  have hall : ∀ e ∈ names.map (IndexEntry.ofTarget node) ++ names.flatMap (f.dueBelow catalog),
      e.listing.inOrder = false := by
    refine List.forall_mem_append.mpr ⟨fun e he => ?_, hnames⟩
    obtain ⟨n, -, rfl⟩ := List.mem_map.mp he
    rfl
  -- The entries of names are in no order, so they can be moved: behind the value first, and then
  -- before the body.
  refine (Matches.swap _ hnames).trans ?_
  rw [List.append_assoc, List.append_assoc]
  refine .append (.of_eq rfl) ((Matches.swap body hall).symm.trans ?_)
  exact .append (.of_perm (perm_boundEntries catalog node h) hall) hbody

theorem made_loopActs (ctx : Context) (node : Mark) (pairs : List (Tree Mark × TypeSet))
    (h : ∀ p ∈ pairs, p.1.kind = .identifier) :
    made ctx (loopActs node pairs) =
      (pairs.map Prod.fst).flatMap (bindingEntries node) := by
  induction pairs with
  | nil => rfl
  | cons pair pairs ih =>
    obtain ⟨hpair, hpairs⟩ := List.forall_mem_cons.mp h
    obtain ⟨n, types⟩ := pair
    cases n with
    | identifier m name => exact congrArg (boundEntries node m name ++ ·) (ih hpairs)
    | _ => cases hpair

/-- What is wrong with the number of the variables of a loop is no entry. -/
theorem made_headerActs (ctx : Context) (node : Mark) (span : Span) {names : List (Tree Mark)}
    (h : ∀ n ∈ names, n.kind = .identifier) {held : List TypeSet × Option Problem}
    (hlength : held.1.length = names.length) :
    made ctx (headerActs node span names held) = names.flatMap (bindingEntries node) := by
  have hnames : (names.zip held.1).map Prod.fst = names := List.map_fst_zip hlength.ge
  have hreport : made ctx (held.2.map (Act.report · span)).toList = [] := by
    cases held.2 <;> rfl
  rw [headerActs, made_append, hreport, made_loopActs, hnames, List.nil_append]
  exact fun p hp => h p.1 (List.of_mem_zip hp).1

theorem made_enter (ctx : Context) (scope : Scope) (list : List Act) :
    made ctx (.enter scope :: list) = made ctx list := rfl

mutual

/-- The acts of a statement make the entries that are due for it and what is below it. -/
theorem matches_statement (hf : f.Proper) (ctx : Context) : (t : Tree Mark) →
    f.Meets (Kind.isStatement ·) t → (a : Analysis) →
    Matches (f.dueBelow ctx.catalog t) (made ctx (statementActs ctx t a))
  | .assignment m target op value, ht, a => by
    obtain ⟨htarget, hvalue⟩ := hf.formed ht.mem
    have hname : f.Meets (· = .identifier) target :=
      .part hf ht.mem (by simp [Tree.children]) htarget (role_assignment ..)
    have hvalue := made_acts hf ctx value
      (.part hf ht.mem (by simp [Tree.children]) hvalue (role_assignment ..)) a
    have hbinding := matches_binding ctx.catalog m (List.forall_mem_singleton.mpr hname)
      (f.dueBelow ctx.catalog value) (.of_eq rfl : Matches [] [])
    cases target with
    | identifier m' name =>
      simp only [List.flatMap_singleton, List.map_singleton, List.nil_append,
        List.append_nil] at hbinding
      rw [dueBelow_eq, Tree.children, statementActs, made_append, hvalue, List.flatMap_cons,
        List.flatMap_singleton, List.append_assoc]
      exact hbinding
    | _ => cases htarget
  | .selection m bs, ht, a => by
    have hformed := hf.formed ht.mem
    rw [dueBelow_eq, statementActs, made_append]
    refine .append (matches_branches hf ctx a.scope bs (fun t h => ?_) (fun body hb t h => ?_) a)
      (.of_eq rfl)
    · exact .part hf ht.mem (Branches.mem_children_iff.mpr (.inl h)) (hformed.1 t h) rfl
    · exact .part hf ht.mem (Branches.mem_children_iff.mpr (.inr ⟨body, hb, h⟩))
        (hformed.2 body hb t h) rfl
  | .iteration m names iterable body, ht, a => by
    obtain ⟨hnames, hiterable, hbody⟩ := hf.formed ht.mem
    have hmeets : ∀ n ∈ names, f.Meets (· = .identifier) n := fun n hn =>
      .part hf ht.mem (by simp [Tree.children, hn]) (hnames n hn) (role_iteration ..)
    have hvalue := made_acts hf ctx iterable
      (.part hf ht.mem (by simp [Tree.children]) hiterable (role_iteration ..)) a
    have hinside := matches_block hf ctx body fun t h =>
      .part hf ht.mem (by simp [Tree.children, h]) (hbody t h) (role_iteration ..)
    -- The body is run in the state after the variables are bound.
    have hbinding := matches_binding ctx.catalog m hmeets (f.dueBelow ctx.catalog iterable)
      (hinside (play ctx (headerActs m iterable.span names
        (loopTypes names.length ((expr ctx iterable).run a).1)) ((expr ctx iterable).run a).2))
    rw [dueBelow_eq, Tree.children, due, statementActs, made_append, made_append, made_append,
      hvalue, made_headerActs ctx m iterable.span hnames (length_loopTypes ..), made_enter,
      List.flatMap_append, List.flatMap_cons]
    simpa only [List.append_assoc, made_nil, List.append_nil] using hbinding
  | .breakLoop .., _, _ | .continueLoop .., _, _ => by
    rw [dueBelow_eq]
    exact .of_eq rfl
  | .file .., ht, _ | .arguments .., ht, _ | .entry .., ht, _ | .keyword .., ht, _
  | .malformed .., ht, _ => absurd ht.kind Bool.false_ne_true
  | .array .., ht, a | .binary .., ht, a | .boolean .., ht, a | .conditional .., ht, a
  | .dictionary .., ht, a | .call .., ht, a | .identifier .., ht, a | .integer .., ht, a
  | .method .., ht, a | .string .., ht, a | .subscript .., ht, a | .unary .., ht, a =>
    .of_eq (made_acts hf ctx _ ⟨ht.mem, ht.kind, ht.role⟩ a).symm

/-- The same for statements in order. -/
theorem matches_block (hf : f.Proper) (ctx : Context) : (ts : List (Tree Mark)) →
    (∀ t ∈ ts, f.Meets (Kind.isStatement ·) t) → (a : Analysis) →
    Matches (ts.flatMap (f.dueBelow ctx.catalog)) (made ctx (blockActs ctx ts a))
  | [], _, _ => .of_eq rfl
  | t :: rest, h, a => by
    obtain ⟨ht, hrest⟩ := List.forall_mem_cons.mp h
    rw [List.flatMap_cons, blockActs, made_append]
    exact (matches_statement hf ctx t ht a).append (matches_block hf ctx rest hrest _)

/-- The same for the branches of a selection: all of them are gone through. -/
theorem matches_branches (hf : f.Proper) (ctx : Context) (before : Scope) :
    (bs : Branches Mark) → (∀ t ∈ bs.conditions, f.Meets (Kind.isValue ·) t) →
    (∀ body ∈ bs.blocks, ∀ t ∈ body, f.Meets (Kind.isStatement ·) t) → (a : Analysis) →
    Matches (bs.children.flatMap (f.dueBelow ctx.catalog)) (made ctx (branchActs ctx before bs a))
  | .done, _, _, _ => .of_eq rfl
  | .otherwise body, _, h, a => matches_block hf ctx body (h body (List.mem_singleton_self _)) _
  | .arm condition body rest, hconditions, hblocks, a => by
    obtain ⟨hcondition, hconditions⟩ := List.forall_mem_cons.mp hconditions
    obtain ⟨hbody, hblocks⟩ := List.forall_mem_cons.mp hblocks
    have hfirst := made_acts hf ctx condition hcondition { a with scope := before }
    rw [Branches.children, List.flatMap_cons, List.flatMap_append, ← hfirst, branchActs,
      made_enter, made_append, made_append]
    exact .append (.of_eq rfl) (.append (matches_block hf ctx body hbody _)
      (matches_branches hf ctx before rest hconditions hblocks _))

end

end Analyze

/-! ### Files -/

namespace SourceFile

open Analyze IndexEntry

variable {f : SourceFile}

/-- The analysis of a file makes the entries that are due for its nodes. -/
theorem Proper.matches_acts (hf : f.Proper) (hroot : f.root.kind = .file) (ctx : Context)
    (scope : Scope) :
    Matches (f.nodes.flatMap (f.due ctx.catalog)) (made ctx (f.acts ctx scope)) := by
  show Matches (f.dueBelow ctx.catalog f.root) _
  have hmem : f.root ∈ f.nodes := mem_nodes.mpr (Tree.mem_preorder_self _)
  have hformed := hf.formed hmem
  rw [acts, statements]
  cases heq : f.root with
  | file m ts =>
    rw [heq] at hmem hformed
    rw [dueBelow_eq]
    have hblock := matches_block hf ctx ts
      (fun t h => Meets.part hf hmem h (hformed t h) rfl) (f.start scope)
    exact (Matches.of_eq (List.append_nil _)).trans hblock
  | _ =>
    rw [heq] at hroot
    cases hroot

/-- The lists after the analysis of a file hold the entries of its acts. -/
theorem listed_analyze (f : SourceFile) (ctx : Context) (scope : Scope) (l : Listing) :
    (f.analyze ctx.catalog ctx.file scope).listed l = on l (made ctx (f.acts ctx scope)) := by
  have henacts := f.enacts_statements (invariant_true ctx _) scope trivial
  have hstart : (f.start scope).listed l = [] := by cases l <;> rfl
  rw [analyze_eq, henacts.run, play_listed, hstart, List.nil_append]
  rfl

/-- For a text without errors, each list holds the entries that are due for the nodes. -/
theorem matches_listed (text : String) (h : (parse text).errors = []) (ctx : Context)
    (scope : Scope) :
    let due := (parse text).nodes.flatMap ((parse text).due ctx.catalog)
    let a := (parse text).analyze ctx.catalog ctx.file scope
    ∀ l, (on l due).Perm (a.listed l) ∧ (l.inOrder = true → on l due = a.listed l) := by
  intro due a l
  have hroot : (parse text).root.kind = .file := (Tree.number_run _ 0).2.2.1
  have hmatches := (proper_parse h).matches_acts hroot ctx scope
  rw [listed_analyze]
  exact ⟨hmatches.perm.filter _, hmatches.order l⟩

/-! ### No two entries for one node -/

/-- Entries for one node that are in different lists are at most one in each. -/
theorem on_sublist {es : List IndexEntry} {i : Nat} (hlistings : (es.map listing).Nodup)
    (hnodes : ∀ e ∈ es, e.node = i) (l : Listing) : ((on l es).map node).Sublist [i] := by
  have hsub : (on l es).Sublist es := List.filter_sublist
  have hnodup := hlistings.sublist (hsub.map listing)
  have hsame : ∀ e ∈ on l es, e.listing = l := fun e he =>
    of_decide_eq_true (List.mem_filter.mp he).2
  have hnode : ∀ e ∈ on l es, e.node = i := fun e he => hnodes e (hsub.subset he)
  generalize on l es = ms at hnodup hsame hnode
  match ms, hnodup, hsame, hnode with
  | [], _, _, _ => exact List.nil_sublist _
  | [e], _, _, hnode =>
    rw [List.map_singleton, hnode e List.mem_cons_self]
  | e :: e' :: ms, hnodup, hsame, _ =>
    refine absurd (List.nodup_cons.mp hnodup).1 (not_not.mpr ?_)
    rw [hsame e List.mem_cons_self, ← hsame e' (by simp)]
    exact List.mem_cons_self

/-- Either the entries for a node are those of the names that it binds, or they are for the node
itself and in different lists. -/
theorem due_cases (f : SourceFile) (catalog : Catalog) (n : Tree Mark) :
    (∃ (m : Mark) (names : List (Tree Mark)),
        f.due catalog n = names.map (ofTarget m) ∧ names.Sublist n.children) ∨
      ((f.due catalog n).map listing).Nodup ∧
        ∀ e ∈ f.due catalog n, e.node = n.id ∧ e.listing ≠ .assignments := by
  cases n with
  | assignment m target op value =>
    exact .inl ⟨m, [target], rfl, List.sublist_append_left [target] [value]⟩
  | iteration m names iterable body =>
    exact .inl ⟨m, names, rfl, List.sublist_append_left names _⟩
  | identifier m name =>
    refine .inr ?_
    rw [due]
    split <;> simp [listing, IndexEntry.node, Tree.id, Tree.note]
  | call m callee args =>
    refine .inr ?_
    rw [due, callEntries]
    split <;> simp [listing, IndexEntry.node, Tree.id, Tree.note]
  | _ => exact .inr (by simp [due, listing, IndexEntry.node, Tree.id, Tree.note])

/-- No list has two entries for one node. -/
theorem Proper.nodup_due (hf : f.Proper) (catalog : Catalog) (l : Listing) :
    ((on l (f.nodes.flatMap (f.due catalog))).map IndexEntry.node).Nodup := by
  have hperm := f.root.postorder_perm_preorder
  have hsplit : (on l (f.nodes.flatMap (f.due catalog))).map IndexEntry.node =
      f.nodes.flatMap fun n => (on l (f.due catalog n)).map IndexEntry.node := by
    rw [on, List.filter_flatMap, List.map_flatMap]
    rfl
  rw [hsplit]
  by_cases hl : l = .assignments
  · -- A name is a part of the node that binds it, and a part of no other.
    have hparts : (f.nodes.flatMap fun n => n.children.map Tree.id).Nodup :=
      (hperm.flatMap_right _).nodup_iff.mpr (Tree.nodup_parts hf.ids).2
    refine hparts.sublist (List.Sublist.flatMap_right _ fun n _ => ?_)
    rcases due_cases f catalog n with ⟨m, names, hdue, hsub⟩ | ⟨-, hdue⟩
    · have hnames : (names.map (ofTarget m)).map IndexEntry.node = names.map Tree.id :=
        List.map_map
      refine (List.filter_sublist.map IndexEntry.node).trans ?_
      rw [hdue, hnames]
      exact hsub.map Tree.id
    · have hnone : on l (f.due catalog n) = [] := by
        refine List.filter_eq_nil_iff.mpr fun e he hlisting => ?_
        exact (hdue e he).2 ((of_decide_eq_true hlisting).trans hl)
      rw [hnone]
      exact List.nil_sublist _
  · -- Every other entry is about the node itself, and each node has a number of its own.
    have hids : (f.nodes.flatMap fun n => [n.id]).Nodup := by
      rw [← List.map_eq_flatMap]
      exact (hperm.map Tree.id).nodup_iff.mpr hf.ids
    refine hids.sublist (List.Sublist.flatMap_right _ fun n _ => ?_)
    rcases due_cases f catalog n with ⟨m, names, hdue, -⟩ | ⟨hlistings, hdue⟩
    · have hnone : on l (f.due catalog n) = [] := by
        rw [hdue]
        refine List.filter_eq_nil_iff.mpr fun e he hlisting => ?_
        obtain ⟨t, -, rfl⟩ := List.mem_map.mp he
        exact hl (of_decide_eq_true hlisting).symm
      rw [hnone]
      exact List.nil_sublist _
    · exact on_sublist hlistings (fun e he => (hdue e he).1) l

theorem nodup_listed (text : String) (h : (parse text).errors = []) (ctx : Context) (scope : Scope)
    (l : Listing) :
    ((((parse text).analyze ctx.catalog ctx.file scope).listed l).map IndexEntry.node).Nodup :=
  (((matches_listed text h ctx scope l).1.map IndexEntry.node).nodup_iff).mp
    ((proper_parse h).nodup_due ctx.catalog l)

/-! ### Nodes with types -/

/-- The types of an expression are noted, unless it is the name of a function, a method or a keyword
argument. -/
theorem typed_mem_due {catalog : Catalog} {n : Tree Mark} {i : Nat} :
    .typed i ∈ f.due catalog n ↔
      i = n.id ∧ n.kind.isValue = true ∧ (n.kind = .identifier → f.namesVariable n.id = true) := by
  cases n with
  | identifier m name =>
    rw [due]
    split <;> simp [*, Tree.id, Tree.note, Tree.kind, Kind.isValue]
  | call m callee args =>
    rw [due, callEntries]
    split <;> simp [Tree.id, Tree.note, Tree.kind, Kind.isValue]
  | assignment | iteration => simp [due, ofTarget, Tree.kind, Kind.isValue]
  | _ => simp [due, Tree.id, Tree.note, Tree.kind, Kind.isValue]

/-- The types of a node are known when there is an entry for them. -/
theorem isSome_typesOf? (a : Analysis) (i : Nat) :
    (a.typesOf? i).isSome = true ↔ .typed i ∈ a.listed .types := by
  rw [Analysis.typesOf?, List.lookup_isSome_iff, Analysis.listed, List.mem_map]
  simp only [List.mem_reverse, beq_iff_eq, typed.injEq]
  exact exists_congr fun p => and_congr_right fun _ => eq_comm

/-- The index of a text without errors is complete and has nothing twice, for any catalog, path and
scope at the start.

* Each list holds the entries that are due for the nodes of the file, as often as they are due, and
  no others. `SourceFile.due` tells which they are for a node of each kind.
* No list has two entries for one node.
* The types are known of the expressions and of the names that are bound, but not of the names of
  functions, methods and keyword arguments. -/
theorem index_complete (text : String) (h : (parse text).errors = []) (catalog : Catalog)
    (file : Path) (scope : Scope) :
    let f := parse text
    let a := f.analyze catalog file scope
    (∀ l, (a.listed l).Perm (on l (f.nodes.flatMap (f.due catalog)))) ∧
    (∀ l, ((a.listed l).map IndexEntry.node).Nodup) ∧
    ∀ i, (a.typesOf? i).isSome = true ↔ ∃ n ∈ f.nodes, n.id = i ∧ n.kind.isValue = true ∧
      (n.kind = .identifier → f.namesVariable n.id = true) := by
  intro f a
  have hlisted : ∀ l, (a.listed l).Perm (on l (f.nodes.flatMap (f.due catalog))) := fun l =>
    (matches_listed text h ⟨catalog, file⟩ scope l).1.symm
  refine ⟨hlisted, nodup_listed text h ⟨catalog, file⟩ scope, fun i => ?_⟩
  have htyped : .typed i ∈ on .types (f.nodes.flatMap (f.due catalog)) ↔
      ∃ n ∈ f.nodes, .typed i ∈ f.due catalog n := by
    rw [on, List.mem_filter, List.mem_flatMap]
    exact and_iff_left rfl
  rw [isSome_typesOf?, (hlisted .types).mem_iff, htyped]
  simp only [typed_mem_due, eq_comm]

/-- Names in every role: a loop binds a name that is read before, a call has a call of a method
among its arguments, and both have keyword arguments. -/
theorem index_complete_nested :
    let text := "x += f(k: [y], g.m('s', j: -x))\n" ++
      "foreach i, x : d[0] ? e : \x7bi: subdir(x)\x7d\n  subdir(x)\nendforeach\n"
    let f := parse text
    let a := f.analyze {} (Path.ofString "meson.build") {}
    f.errors = [] ∧
      (a.listed .identifiers).map IndexEntry.node = [3, 6, 10, 0, 20, 23, 24, 26, 18, 19, 33] ∧
      (∀ l, (a.listed l).Perm (on l (f.nodes.flatMap (f.due {})))) ∧
      (∀ l, ((a.listed l).map IndexEntry.node).Nodup) ∧
      ∀ i, (a.typesOf? i).isSome = true ↔ ∃ n ∈ f.nodes, n.id = i ∧ n.kind.isValue = true ∧
        (n.kind = .identifier → f.namesVariable n.id = true) := by
  intro text f a
  have h : f.errors = [] := by decide +kernel
  exact ⟨h, by decide +kernel, index_complete text h {} (Path.ofString "meson.build") {}⟩

end SourceFile

end MesonLens
