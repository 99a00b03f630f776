import MesonLens.Proofs.Syntax.Grammar

/-!
# `MesonLens.Proofs.Analysis.Sites`: the nodes that the analysis takes note of

The analysis goes through a file in the order in which it would run, and takes note of some nodes:
the strings, the uses of variables, the calls, the keyword arguments and the names that are bound.
`Tree.sites` lists these nodes in that order for an expression, `Tree.statementSites` for a
statement. Both are read off the tree alone.

* `Gathers wf nodes sites`: the sites are some of the nodes, each taken once; and if `wf` holds,
  no node that is left out is a string, a call or a keyword argument;
* `Tree.gathers_sites`, `Tree.gathers_statementSites`: expressions and statements, by the mutual
  recursion of the lists.

Where the tree does not follow the grammar, whole parts of it are passed over: an assignment that
stands as an operand is never looked into.
-/

set_option autoImplicit false

namespace MesonLens

/-- Whether every node of the kind is noted. -/
def Kind.isNoted : Kind → Bool
  | string | call | method | keyword => true
  | _ => false

namespace Tree

variable {α : Type}

/-- Whether the node is an identifier. -/
def isIdentifier (t : Tree α) : Bool := t.identifier?.isSome

/-- The names that a statement binds. -/
def targets : Tree α → List (Tree α)
  | assignment _ target _ _ => [target].filter isIdentifier
  | iteration _ names _ _ => names.filter isIdentifier
  | _ => []

end Tree

/-! ### Sites -/

mutual

/-- The nodes of an expression that are noted, in the order of evaluation. -/
def Tree.sites : Tree Mark → List (Tree Mark)
  | .string m value format multiline => [.string m value format multiline]
  | .identifier m name => [.identifier m name]
  | .array _ elements => Tree.sitesAll elements
  | .dictionary _ items => Tree.entrySites items
  | .unary _ _ operand => operand.sites
  | .binary _ left _ right => left.sites ++ right.sites
  | .conditional _ condition ifTrue ifFalse =>
    condition.sites ++ (ifTrue.sites ++ ifFalse.sites)
  | .subscript _ object index => object.sites ++ index.sites
  -- A call is made when its arguments are evaluated.
  | .call mark callee (.arguments m items) =>
    Tree.argumentSites items ++ [.call mark callee (.arguments m items)]
  | .call mark callee args => [.call mark callee args]
  | .method mark object (.identifier m name) (some (.arguments m' items)) =>
    object.sites ++ (Tree.argumentSites items ++
      [.method mark object (.identifier m name) (some (.arguments m' items))])
  | .method mark object (.identifier m name) args =>
    object.sites ++ [.method mark object (.identifier m name) args]
  | .method _ object _ _ => object.sites
  | .boolean .. | .integer .. | .file .. | .arguments .. | .assignment .. | .iteration ..
  | .entry .. | .keyword .. | .selection .. | .malformed .. | .breakLoop .. | .continueLoop .. => []

/-- The sites of expressions in order. -/
def Tree.sitesAll : List (Tree Mark) → List (Tree Mark)
  | [] => []
  | t :: rest => t.sites ++ Tree.sitesAll rest

/-- The sites of the entries of a dictionary: a key, then its value. -/
def Tree.entrySites : List (Tree Mark) → List (Tree Mark)
  | [] => []
  | .entry _ key value :: rest => key.sites ++ (value.sites ++ Tree.entrySites rest)
  | _ :: rest => Tree.entrySites rest

/-- The sites of the arguments of a call. -/
def Tree.argumentSites : List (Tree Mark) → List (Tree Mark)
  | [] => []
  | .keyword mark key value :: rest =>
    value.sites ++ (.keyword mark key value :: Tree.argumentSites rest)
  | item :: rest => item.sites ++ Tree.argumentSites rest

end

mutual

/-- The nodes of a statement that are noted. A name is bound when its value is known. -/
def Tree.statementSites : Tree Mark → List (Tree Mark)
  | .assignment mark target op value =>
    value.sites ++ (Tree.assignment mark target op value).targets
  | .selection _ bs => bs.sites
  | .iteration mark names iterable body =>
    iterable.sites ++
      ((Tree.iteration mark names iterable body).targets ++ Tree.blockSites body)
  | .breakLoop _ | .continueLoop _ | .malformed _ _ => []
  | t => t.sites

/-- The sites of statements in order. -/
def Tree.blockSites : List (Tree Mark) → List (Tree Mark)
  | [] => []
  | t :: rest => t.statementSites ++ Tree.blockSites rest

/-- The sites of a selection. Every branch is gone through. -/
def Branches.sites : Branches Mark → List (Tree Mark)
  | .done => []
  | .otherwise body => Tree.blockSites body
  | .arm condition body rest => condition.sites ++ (Tree.blockSites body ++ rest.sites)

end

/-! ### Sites among the nodes -/

/-- The sites are some of the nodes, in any order, and each is taken once. Where `wf` holds, every
node of a kind that is noted is among them. -/
def Gathers (wf : Prop) (nodes sites : List (Tree Mark)) : Prop :=
  ∃ rest, nodes.Perm (sites ++ rest) ∧ (wf → ∀ n ∈ rest, n.kind.isNoted = false)

namespace Gathers

variable {wf wf' : Prop} {nodes nodes' sites sites' : List (Tree Mark)} {t : Tree Mark}

theorem nothing (h : wf → ∀ n ∈ nodes, n.kind.isNoted = false) : Gathers wf nodes [] :=
  ⟨nodes, .refl _, h⟩

theorem nil : Gathers wf [] [] := nothing fun _ => nofun

theorem mono (h : Gathers wf nodes sites) (hwf : wf' → wf) : Gathers wf' nodes sites := by
  obtain ⟨rest, hperm, hrest⟩ := h
  exact ⟨rest, hperm, fun h' => hrest (hwf h')⟩

theorem append (h : Gathers wf nodes sites) (h' : Gathers wf nodes' sites') :
    Gathers wf (nodes ++ nodes') (sites ++ sites') := by
  obtain ⟨rest, hperm, hrest⟩ := h
  obtain ⟨rest', hperm', hrest'⟩ := h'
  refine ⟨rest ++ rest', (hperm.append hperm').trans ?_, fun hwf n hn => ?_⟩
  · rw [List.append_assoc, List.append_assoc]
    exact List.Perm.append_left _ (List.perm_append_comm_assoc _ _ _)
  · exact (List.mem_append.mp hn).elim (hrest hwf n) (hrest' hwf n)

/-- Nodes that are all passed over. -/
theorem left (h : Gathers wf nodes sites) (h' : wf → ∀ n ∈ nodes', n.kind.isNoted = false) :
    Gathers wf (nodes ++ nodes') sites := by
  have happend := h.append (nothing h')
  rwa [List.append_nil] at happend

/-- The order in which the nodes are visited does not matter. -/
theorem perm (h : Gathers wf nodes sites) (hperm : sites.Perm sites') :
    Gathers wf nodes sites' := by
  obtain ⟨rest, hnodes, hrest⟩ := h
  exact ⟨rest, hnodes.trans (hperm.append_right _), hrest⟩

/-- A node that is passed over. -/
theorem pass (h : Gathers wf nodes sites) (ht : wf → t.kind.isNoted = false) :
    Gathers wf (t :: nodes) sites := by
  obtain ⟨rest, hperm, hrest⟩ := h
  refine ⟨t :: rest, (hperm.cons t).trans List.perm_middle.symm, fun hwf => ?_⟩
  exact List.forall_mem_cons.mpr ⟨ht hwf, hrest hwf⟩

/-- A node that is noted after its parts. -/
theorem take (h : Gathers wf nodes sites) (t : Tree Mark) :
    Gathers wf (t :: nodes) (sites ++ [t]) := by
  obtain ⟨rest, hperm, hrest⟩ := h
  refine ⟨rest, (hperm.cons t).trans ?_, hrest⟩
  rw [List.append_assoc]
  exact List.perm_middle.symm

/-- Where no two nodes have the same number, no site is noted twice. -/
theorem nodup_ids (h : Gathers wf nodes sites) (hnodes : (nodes.map Tree.id).Nodup) :
    (sites.map Tree.id).Nodup := by
  obtain ⟨rest, hperm, -⟩ := h
  have hall := (hperm.map Tree.id).nodup_iff.mp hnodes
  rw [List.map_append] at hall
  exact hall.of_append_left

/-- Where nothing is left out, what the nodes of the kinds that are noted give is given by the
sites. -/
theorem filterMap_perm {β : Type} (h : Gathers wf nodes sites) (hwf : wf) {f : Tree Mark → Option β}
    (hf : ∀ n, n.kind.isNoted = false → f n = none) :
    (nodes.filterMap f).Perm (sites.filterMap f) := by
  obtain ⟨rest, hperm, hrest⟩ := h
  have hnone : rest.filterMap f = [] :=
    List.filterMap_eq_nil_iff.mpr fun n hn => hf n (hrest hwf n hn)
  have hall := hperm.filterMap f
  rwa [List.filterMap_append, hnone, List.append_nil] at hall

/-- The name of a function, a method or a keyword is passed over. -/
theorem name (t : Tree Mark) : Gathers (t.kind = .identifier) t.preorder [] := by
  refine .nothing fun h => ?_
  cases t with
  | identifier m name =>
    rw [Tree.preorder_eq]
    exact List.forall_mem_singleton.mpr rfl
  | _ => cases h

/-- Names that are bound: each is a node without parts. -/
theorem names (ts : List (Tree Mark)) :
    Gathers (∀ t ∈ ts, t.kind = .identifier) (ts.flatMap Tree.preorder)
      (ts.filter Tree.isIdentifier) := by
  induction ts with
  | nil => exact .nil
  | cons t ts ih =>
    rw [List.flatMap_cons]
    have hmore := ih.mono fun (h : ∀ n ∈ t :: ts, n.kind = .identifier) n hn =>
      h n (List.mem_cons_of_mem _ hn)
    cases t with
    | identifier m name =>
      rw [List.filter_cons_of_pos rfl, Tree.preorder_eq]
      exact append (nil.take _) hmore
    | _ =>
      rw [List.filter_cons_of_neg Bool.false_ne_true]
      exact append (nothing fun h => absurd (h _ List.mem_cons_self) nofun) hmore

end Gathers

open MesonLens.Tree (Is)

/-- What holds of some trees holds of the first and of the others. -/
theorem Tree.Is.head {p : Kind → Prop} {t : Tree Mark} {ts : List (Tree Mark)}
    (h : ∀ u ∈ t :: ts, u.Is p) : t.Is p := h t List.mem_cons_self

theorem Tree.Is.tail {p : Kind → Prop} {t : Tree Mark} {ts : List (Tree Mark)}
    (h : ∀ u ∈ t :: ts, u.Is p) : ∀ u ∈ ts, u.Is p := fun u hu => h u (List.mem_cons_of_mem _ hu)

mutual

/-- The sites of an expression are some of its nodes. -/
theorem Tree.gathers_sites : (t : Tree Mark) →
    Gathers (t.Is (Kind.isValue ·)) t.preorder t.sites
  | .string .. | .identifier .. => by
    rw [preorder_eq]
    exact Gathers.nil.take _
  | .boolean .. | .integer .. => by
    rw [preorder_eq]
    exact Gathers.nil.pass fun _ => rfl
  | .array mark elements => by
    rw [preorder_eq]
    refine ((Tree.gathers_sitesAll elements).mono fun h t ht => ?_).pass fun _ => rfl
    exact ⟨h.wellFormed.part ht, h.wellFormed.formed t ht⟩
  | .dictionary mark items => by
    rw [preorder_eq]
    refine ((Tree.gathers_entrySites items).mono fun h t ht => ?_).pass fun _ => rfl
    exact ⟨h.wellFormed.part ht, h.wellFormed.formed t ht⟩
  | .unary mark op operand => by
    rw [preorder_eq, children, List.flatMap_singleton]
    refine (operand.gathers_sites.mono fun h => ?_).pass fun _ => rfl
    exact ⟨h.wellFormed.part (by simp [children]), h.wellFormed.formed⟩
  | .binary mark left _ right | .subscript mark left right => by
    rw [preorder_eq, children, List.flatMap_cons, List.flatMap_singleton]
    refine .pass ?_ fun _ => rfl
    refine (left.gathers_sites.mono fun h => ?_).append (right.gathers_sites.mono fun h => ?_)
    · exact ⟨h.wellFormed.part (by simp [children]), h.wellFormed.formed.1⟩
    · exact ⟨h.wellFormed.part (by simp [children]), h.wellFormed.formed.2⟩
  | .conditional mark condition ifTrue ifFalse => by
    rw [preorder_eq, children, List.flatMap_cons, List.flatMap_cons, List.flatMap_singleton]
    refine .pass ?_ fun _ => rfl
    refine (condition.gathers_sites.mono fun h => ?_).append
      ((ifTrue.gathers_sites.mono fun h => ?_).append (ifFalse.gathers_sites.mono fun h => ?_))
    · exact ⟨h.wellFormed.part (by simp [children]), h.wellFormed.formed.1⟩
    · exact ⟨h.wellFormed.part (by simp [children]), h.wellFormed.formed.2.1⟩
    · exact ⟨h.wellFormed.part (by simp [children]), h.wellFormed.formed.2.2⟩
  | .call mark callee args => by
    rw [preorder_eq, children, List.flatMap_cons, List.flatMap_singleton]
    -- The name that is called is no site. The call is one, after the sites of its arguments.
    cases args with
    | arguments m items =>
      have hcallee := (Gathers.name callee).mono
        fun (h : (Tree.call mark callee (.arguments m items)).Is (Kind.isValue ·)) =>
          h.wellFormed.formed.1
      rw [preorder_eq (.arguments ..)]
      refine (hcallee.append (.pass (t := .arguments m items) ?_ fun _ => rfl)).take _
      refine (Tree.gathers_argumentSites items).mono fun h t ht => ?_
      have hargs := h.wellFormed.part (c := .arguments m items) (by simp [children])
      exact ⟨hargs.part ht, hargs.formed t ht⟩
    | _ => exact (Gathers.nothing fun h => absurd h.wellFormed.formed.2 nofun).take _
  | .method mark object name args => by
    rw [preorder_eq, children, List.flatMap_cons]
    have hobject := object.gathers_sites.mono
      fun (h : (Tree.method mark object name args).Is (Kind.isValue ·)) =>
        ⟨h.wellFormed.part (by simp [children]), h.wellFormed.formed.1⟩
    -- A well-formed call of a method has a name and arguments, so the other shapes do not occur.
    cases name with
    | identifier m name =>
      cases args with
      | none => exact (hobject.left fun h => absurd h.wellFormed.formed.2.2 nofun).take _
      | some args =>
        cases args with
        | arguments m' items =>
          rw [Option.toList_some, List.flatMap_cons, List.flatMap_singleton,
            preorder_eq (.arguments ..)]
          have hname := (Gathers.name (.identifier m name)).mono
            fun (_ : (Tree.method mark object (.identifier m name)
              (some (.arguments m' items))).Is (Kind.isValue ·)) => rfl
          rw [show (Tree.method mark object (.identifier m name)
              (some (.arguments m' items))).sites =
            object.sites ++ Tree.argumentSites items ++ [_] from (List.append_assoc _ _ _).symm]
          refine (hobject.append (hname.append
            (.pass (t := .arguments m' items) ?_ fun _ => rfl))).take _
          refine (Tree.gathers_argumentSites items).mono fun h t ht => ?_
          have hargs := h.wellFormed.part (c := .arguments m' items) (by simp [children])
          exact ⟨hargs.part ht, hargs.formed t ht⟩
        | _ => exact (hobject.left fun h => absurd h.wellFormed.formed.2.2 nofun).take _
    | _ =>
      refine (hobject.left fun h => ?_).pass fun h => ?_
      · exact absurd h.wellFormed.formed.2.1 nofun
      · exact absurd h.wellFormed.formed.2.1 nofun
  | .file .. | .arguments .. | .assignment .. | .iteration .. | .entry .. | .keyword ..
  | .selection .. | .malformed .. | .breakLoop .. | .continueLoop .. =>
    .nothing fun h => absurd h.kind Bool.false_ne_true

/-- The sites of expressions are some of their nodes. -/
theorem Tree.gathers_sitesAll : (ts : List (Tree Mark)) →
    Gathers (∀ t ∈ ts, t.Is (Kind.isValue ·)) (ts.flatMap Tree.preorder) (Tree.sitesAll ts)
  | [] => .nil
  | t :: rest => by
    rw [List.flatMap_cons]
    exact (t.gathers_sites.mono Is.head).append ((Tree.gathers_sitesAll rest).mono Is.tail)

/-- The sites of the entries of a dictionary are some of their nodes. -/
theorem Tree.gathers_entrySites : (ts : List (Tree Mark)) →
    Gathers (∀ t ∈ ts, t.Is (· = .entry)) (ts.flatMap Tree.preorder) (Tree.entrySites ts)
  | [] => .nil
  | t :: rest => by
    rw [List.flatMap_cons]
    have hrest := (Tree.gathers_entrySites rest).mono (Is.tail (t := t))
    cases t with
    | entry mark key value =>
      rw [preorder_eq, children, List.flatMap_cons, List.flatMap_singleton, Tree.entrySites,
        ← List.append_assoc]
      refine .append (.pass ?_ fun _ => rfl) hrest
      refine (key.gathers_sites.mono fun h => ?_).append (value.gathers_sites.mono fun h => ?_)
      · exact ⟨(Is.head h).wellFormed.part (by simp [children]), (Is.head h).wellFormed.formed.1⟩
      · exact ⟨(Is.head h).wellFormed.part (by simp [children]), (Is.head h).wellFormed.formed.2⟩
    | _ => exact (Gathers.nothing fun h => absurd (Is.head h).kind nofun).append hrest

/-- The sites of the arguments of a call are some of their nodes. -/
theorem Tree.gathers_argumentSites : (ts : List (Tree Mark)) →
    Gathers (∀ t ∈ ts, t.Is fun k => k.isValue ∨ k = .keyword) (ts.flatMap Tree.preorder)
      (Tree.argumentSites ts)
  | [] => .nil
  | t :: rest => by
    rw [List.flatMap_cons]
    have hrest := (Tree.gathers_argumentSites rest).mono (Is.tail (t := t))
    cases t with
    | keyword mark key value =>
      rw [preorder_eq, children, List.flatMap_cons, List.flatMap_singleton, Tree.argumentSites,
        List.append_cons]
      refine .append (.take ?_ _) hrest
      refine ((Gathers.name key).mono fun h => ?_).append (value.gathers_sites.mono fun h => ?_)
      · exact (Is.head h).wellFormed.formed.1
      · exact ⟨(Is.head h).wellFormed.part (by simp [children]), (Is.head h).wellFormed.formed.2⟩
    | _ =>
      refine (Tree.gathers_sites _).mono (fun h => ⟨(Is.head h).wellFormed, ?_⟩) |>.append hrest
      exact (Is.head h).kind.resolve_right nofun

end

mutual

/-- The sites of a statement are some of its nodes. -/
theorem Tree.gathers_statementSites : (t : Tree Mark) →
    Gathers (t.Is (Kind.isStatement ·)) t.preorder t.statementSites
  | .assignment mark target op value => by
    rw [Tree.preorder_eq, Tree.children, List.flatMap_cons, List.flatMap_singleton,
      Tree.statementSites]
    -- The value stands behind the target and is evaluated before it.
    refine .pass (.perm ?_ List.perm_append_comm) fun _ => rfl
    have htarget := Gathers.names [target]
    rw [List.flatMap_singleton] at htarget
    refine (htarget.mono fun h => ?_).append (value.gathers_sites.mono fun h => ?_)
    · exact List.forall_mem_singleton.mpr h.wellFormed.formed.1
    · exact ⟨h.wellFormed.part (by simp [Tree.children]), h.wellFormed.formed.2⟩
  | .selection mark bs => by
    rw [Tree.preorder_eq]
    refine (bs.gathers_sites.mono fun h => ⟨fun t ht => ?_, fun body hbody t ht => ?_⟩).pass
      fun _ => rfl
    · exact ⟨h.wellFormed.part (Branches.mem_children_iff.mpr (.inl ht)),
        h.wellFormed.formed.1 t ht⟩
    · exact ⟨h.wellFormed.part (Branches.mem_children_iff.mpr (.inr ⟨body, hbody, ht⟩)),
        h.wellFormed.formed.2 body hbody t ht⟩
  | .iteration mark names iterable body => by
    rw [Tree.preorder_eq, Tree.children, List.flatMap_append, List.flatMap_cons,
      Tree.statementSites]
    -- What is looped over is evaluated before the variables are bound.
    refine .pass (.perm ?_ (List.perm_append_comm_assoc _ _ _)) fun _ => rfl
    refine ((Gathers.names names).mono fun h => ?_).append
      ((iterable.gathers_sites.mono fun h => ?_).append
        ((Tree.gathers_blockSites body).mono fun h t ht => ?_))
    · exact h.wellFormed.formed.1
    · exact ⟨h.wellFormed.part (by simp [Tree.children]), h.wellFormed.formed.2.1⟩
    · exact ⟨h.wellFormed.part (by simp [Tree.children, ht]), h.wellFormed.formed.2.2 t ht⟩
  | .breakLoop .. | .continueLoop .. => by
    rw [Tree.preorder_eq]
    exact Gathers.nil.pass fun _ => rfl
  | .malformed .. => .nothing fun h => absurd h.kind Bool.false_ne_true
  | .file .. | .arguments .. | .entry .. | .keyword .. =>
    (Tree.gathers_sites _).mono fun h => absurd h.kind Bool.false_ne_true
  | .array .. | .binary .. | .boolean .. | .conditional .. | .dictionary .. | .call ..
  | .identifier .. | .integer .. | .method .. | .string .. | .subscript .. | .unary .. =>
    (Tree.gathers_sites _).mono fun h => ⟨h.wellFormed, h.kind⟩

/-- The sites of statements are some of their nodes. -/
theorem Tree.gathers_blockSites : (ts : List (Tree Mark)) →
    Gathers (∀ t ∈ ts, t.Is (Kind.isStatement ·)) (ts.flatMap Tree.preorder) (Tree.blockSites ts)
  | [] => .nil
  | t :: rest => by
    rw [List.flatMap_cons]
    exact (t.gathers_statementSites.mono Is.head).append
      ((Tree.gathers_blockSites rest).mono Is.tail)

/-- The sites of a selection are some of its nodes. -/
theorem Branches.gathers_sites : (bs : Branches Mark) →
    Gathers ((∀ t ∈ bs.conditions, t.Is (Kind.isValue ·)) ∧
      ∀ body ∈ bs.blocks, ∀ t ∈ body, t.Is (Kind.isStatement ·))
      (bs.children.flatMap Tree.preorder) bs.sites
  | .done => .nil
  | .otherwise body => (Tree.gathers_blockSites body).mono
      fun h => h.2 body (List.mem_singleton_self _)
  | .arm condition body rest => by
    rw [Branches.children, List.flatMap_cons, List.flatMap_append]
    refine (condition.gathers_sites.mono fun h => ?_).append
      (((Tree.gathers_blockSites body).mono fun h => ?_).append
        (rest.gathers_sites.mono fun h => ⟨fun t ht => ?_, fun b hb => ?_⟩))
    · exact h.1 condition List.mem_cons_self
    · exact h.2 body List.mem_cons_self
    · exact h.1 t (List.mem_cons_of_mem _ ht)
    · exact h.2 b (List.mem_cons_of_mem _ hb)

end

end MesonLens
