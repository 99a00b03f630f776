import MesonLens.Editor.NameRole
import MesonLens.Proofs.Syntax.Numbering
import Mathlib.Data.List.Chain
import Mathlib.Data.List.Nodup
import Mathlib.Data.List.Pairwise

/-!
# `MesonLens.Proofs.Syntax.Navigation`: the numbered nodes of a file are one tree

A node is found again by its number, so the numbers and the ways through the tree have to agree:

* `Tree.number_run`: numbering a node numbers its parts in order, and then the node;
* `Tree.map_id_postorder_number`: in `Tree.postorder`, where the parts of a node come before the
  node, every node stands at the place that its number tells;
* `Tree.preorder_perm_parts`: every node but the root is a part of one node;
* `Tree.ancestors?_spec`: the nodes above a node, up to the root;
* `Tree.walk_noting`: a walk that nothing cuts short meets the nodes of `Tree.preorder`.

`SourceFile.nodes_form_tree` puts these together for every text.
-/

set_option autoImplicit false

namespace MesonLens

namespace Tree

variable {α : Type}

/-- To prove something of every tree, take it for granted of the parts of the tree. -/
@[elab_as_elim]
theorem inductionOnParts {P : Tree α → Prop} (t : Tree α)
    (node : ∀ t, (∀ c ∈ t.children, P c) → P t) : P t :=
  node t fun c hc =>
    have := sizeOf_lt_of_mem_children hc
    inductionOnParts c node
  termination_by sizeOf t

/-- Every node, the parts of a node before the node. -/
def postorder (t : Tree α) : List (Tree α) :=
  (t.children.attach.flatMap fun c => postorder c.val) ++ [t]
  termination_by sizeOf t
  decreasing_by exact sizeOf_lt_of_mem_children c.property

theorem postorder_eq (t : Tree α) : t.postorder = t.children.flatMap postorder ++ [t] := by
  rw [postorder]
  congr 1
  exact (List.flatMap_subtype (by intros; rfl)).trans (by simp)

/-- The two orders list the same nodes. -/
theorem postorder_perm_preorder (t : Tree α) : t.postorder.Perm t.preorder := by
  induction t using inductionOnParts with
  | node t ih =>
    rw [postorder_eq, preorder_eq]
    exact (List.perm_append_singleton _ _).trans ((List.Perm.flatMap_left _ ih).cons _)

/-- The nodes of a node of the tree stand in a row, the node last. -/
theorem postorder_sublist {t n : Tree α} (h : n ∈ t.preorder) :
    n.postorder.Sublist t.postorder := by
  induction t using inductionOnParts with
  | node t ih =>
    rw [preorder_eq, List.mem_cons, List.mem_flatMap] at h
    rcases h with rfl | ⟨c, hc, hn⟩
    · exact .refl _
    · rw [postorder_eq t]
      refine ((ih c hc hn).trans ?_).trans (List.sublist_append_left _ _)
      exact List.sublist_flatten_of_mem (List.mem_map_of_mem hc)

/-- The nodes below a node of the tree are nodes of the tree. -/
theorem mem_preorder_trans {t m n : Tree α} (hm : m ∈ t.preorder) (hn : n ∈ m.preorder) :
    n ∈ t.preorder := by
  induction t using inductionOnParts with
  | node t ih =>
    have hm' := hm
    rw [preorder_eq, List.mem_cons, List.mem_flatMap] at hm'
    rcases hm' with rfl | ⟨c, hc, hm'⟩
    · exact hn
    · exact mem_preorder_of_mem_children hc (ih c hc hm')

theorem family_eq (above : Option (Tree α)) (t : Tree α) :
    t.family above = (above, t) :: t.children.flatMap (family (some t)) := by
  rw [family]
  congr 1
  exact (List.flatMap_subtype (by intros; rfl)).trans (by simp)

/-- The nodes with those that they are parts of are the nodes, in the same order. -/
theorem map_snd_family (above : Option (Tree α)) (t : Tree α) :
    (t.family above).map Prod.snd = t.preorder := by
  induction t using inductionOnParts generalizing above with
  | node t ih =>
    rw [family_eq, preorder_eq, List.map_cons, List.map_flatMap]
    congr 1
    exact List.flatMap_congr fun c hc => ih c hc (some t)

theorem mem_preorder_of_family {t u : Tree α} {above parent : Option (Tree α)}
    (h : (parent, u) ∈ t.family above) : u ∈ t.preorder := by
  rw [← map_snd_family above]
  exact List.mem_map_of_mem h

/-! ### Numbers -/

theorem numberAll_run_cons (t : Tree Span) (ts : List (Tree Span)) (n : Nat) :
    (numberAll (t :: ts)).run n =
      ((t.number.run n).1 :: ((numberAll ts).run (t.number.run n).2).1,
        ((numberAll ts).run (t.number.run n).2).2) := rfl

theorem numberAll_run_append (ts us : List (Tree Span)) (n : Nat) :
    (numberAll (ts ++ us)).run n =
      (((numberAll ts).run n).1 ++ ((numberAll us).run ((numberAll ts).run n).2).1,
        ((numberAll us).run ((numberAll ts).run n).2).2) := by
  induction ts generalizing n with
  | nil => rfl
  | cons t ts ih => rw [List.cons_append, numberAll_run_cons, ih, numberAll_run_cons]; rfl

end Tree

theorem Branches.number_run : ∀ (b : Branches Span) (n : Nat),
    ((b.number.run n).1.children, (b.number.run n).2) = (Tree.numberAll b.children).run n
  | .done, _ => rfl
  | .otherwise _, _ => rfl
  | .arm condition body rest, n => by
    rw [Branches.children, Tree.numberAll_run_cons, Tree.numberAll_run_append,
      ← Branches.number_run rest]
    rfl

namespace Tree

variable {α : Type}

/-- Numbering a node numbers its parts in order, and then the node. -/
theorem number_run (t : Tree Span) (n : Nat) :
    let parts := (numberAll t.children).run n
    (t.number.run n).1.children = parts.1 ∧ (t.number.run n).1.note = ⟨parts.2, t.note⟩ ∧
      (t.number.run n).1.kind = t.kind ∧ (t.number.run n).2 = parts.2 + 1 := by
  cases t with
  | iteration a names iterable body =>
    rw [children, numberAll_run_append, numberAll_run_cons]
    exact ⟨rfl, rfl, rfl, rfl⟩
  | method a object name args =>
    cases args with
    | none => exact ⟨rfl, rfl, rfl, rfl⟩
    | some args => exact ⟨rfl, rfl, rfl, rfl⟩
  | selection a branches =>
    rw [children, ← Branches.number_run]
    exact ⟨rfl, rfl, rfl, rfl⟩
  | _ => exact ⟨rfl, rfl, rfl, rfl⟩

/-- The numbers of a tree are consecutive in the order in which parts come before their node. -/
theorem map_id_postorder_number (t : Tree Span) (n : Nat) :
    ∃ k, (t.number.run n).1.postorder.map id = List.range' n k ∧ (t.number.run n).2 = n + k := by
  induction t using inductionOnParts generalizing n with
  | node t ih =>
    -- The parts take the numbers from `n` on, one part after the other.
    have hparts : ∀ (ts : List (Tree Span)), (∀ c ∈ ts, c ∈ t.children) → ∀ n,
        ∃ k, (((numberAll ts).run n).1.flatMap postorder).map id = List.range' n k ∧
          ((numberAll ts).run n).2 = n + k := by
      intro ts hts
      induction ts with
      | nil => exact fun n => ⟨0, rfl, rfl⟩
      | cons c ts ihts =>
        intro n
        obtain ⟨k, hids, hnext⟩ := ih c (hts c List.mem_cons_self) n
        obtain ⟨k', hids', hnext'⟩ := ihts (fun c hc => hts c (List.mem_cons_of_mem _ hc)) (n + k)
        refine ⟨k + k', ?_, ?_⟩
        · rw [numberAll_run_cons, hnext, List.flatMap_cons, List.map_append, hids, hids',
            List.range'_append_1]
        · rw [numberAll_run_cons, hnext, hnext', Nat.add_assoc]
    obtain ⟨k, hids, hnext⟩ := hparts t.children (fun _ h => h) n
    obtain ⟨hchildren, hnote, -, hlast⟩ := number_run t n
    refine ⟨k + 1, ?_, by rw [hlast, hnext, Nat.add_assoc]⟩
    rw [postorder_eq, hchildren, List.map_append, hids, List.range'_concat, List.map_singleton,
      id, hnote, hnext, Nat.one_mul]

/-- A part has a smaller number than its node. -/
theorem id_lt_of_mem_children {t n c : Tree Mark}
    (hids : (t.postorder.map id).Pairwise (· < ·)) (hn : n ∈ t.preorder) (hc : c ∈ n.children) :
    c.id < n.id := by
  have hbelow := hids.sublist ((postorder_sublist hn).map id)
  rw [postorder_eq, List.map_append, List.pairwise_append] at hbelow
  refine hbelow.2.2 c.id ?_ n.id (by simp)
  refine List.mem_map_of_mem (List.mem_flatMap.mpr ⟨c, hc, ?_⟩)
  rw [postorder_eq]
  simp

/-! ### Parents -/

/-- Every node is the root or a part of a node, and it is a part only once. -/
theorem preorder_perm_parts (t : Tree α) : t.preorder.Perm (t :: t.preorder.flatMap children) := by
  induction t using inductionOnParts with
  | node t ih =>
    conv => lhs; rw [preorder_eq]
    rw [preorder_eq, List.flatMap_cons, List.flatMap_assoc]
    refine .cons t ?_
    -- What is left is the parts of `t`, and then the parts of the nodes below each of them.
    have hparts : ∀ ts : List (Tree α), (ts.flatMap fun c => c :: c.preorder.flatMap children).Perm
        (ts ++ ts.flatMap fun c => c.preorder.flatMap children) := by
      intro ts
      induction ts with
      | nil => exact .refl _
      | cons c ts ihts =>
        rw [List.flatMap_cons, List.flatMap_cons, List.cons_append, List.cons_append]
        refine .cons c ((ihts.append_left _).trans ?_)
        rw [← List.append_assoc, ← List.append_assoc]
        exact List.perm_append_comm.append_right _
    exact (List.Perm.flatMap_left _ ih).trans (hparts t.children)

/-- When no number is given twice, only one of the lists has a given number. -/
theorem eq_of_mem_flatMap {β : Type} {l : List β} {f : β → List Nat} (h : (l.flatMap f).Nodup)
    {a b : β} (ha : a ∈ l) (hb : b ∈ l) {i : Nat} (hia : i ∈ f a) (hib : i ∈ f b) : a = b := by
  by_contra hne
  have : Std.Symm (Function.onFun List.Disjoint f) := ⟨fun _ _ h _ hb ha => h ha hb⟩
  exact (List.nodup_flatMap.mp h).2.forall ha hb hne hia hib

/-- A node with a number of its own is a part of one node, and only once. The root is not a part
of any node. -/
theorem nodup_parts {t : Tree Mark} (hids : t.ids.Nodup) :
    t.id ∉ (t.preorder.flatMap fun n => n.children.map id) ∧
      (t.preorder.flatMap fun n => n.children.map id).Nodup := by
  have hperm := (preorder_perm_parts t).map id
  rw [List.map_cons, List.map_flatMap] at hperm
  exact List.nodup_cons.mp (hperm.nodup_iff.mp hids)

/-- Two nodes that share a part are the same. -/
theorem parent_unique {t p q : Tree Mark} (hids : t.ids.Nodup) (hp : p ∈ t.preorder)
    (hq : q ∈ t.preorder) {i : Nat} (hip : i ∈ p.children.map id) (hiq : i ∈ q.children.map id) :
    p = q :=
  eq_of_mem_flatMap (nodup_parts hids).2 hp hq hip hiq

/-! ### Ancestors -/

theorem ancestors?_eq (i : Nat) (t : Tree Mark) :
    t.ancestors? i =
      if t.id = i then some [] else (t.children.findSome? (ancestors? i)).map (· ++ [t]) := by
  rw [ancestors?]
  congr 2
  exact (List.findSome?_subtype (by intros; rfl)).trans (by simp)

/-- There is nothing above a number that the tree does not have. -/
theorem ancestors?_eq_none {t : Tree Mark} {i : Nat} (h : i ∉ t.ids) : t.ancestors? i = none := by
  induction t using inductionOnParts with
  | node t ih =>
    rw [ids_eq, List.mem_cons, List.mem_flatMap] at h
    push Not at h
    rw [ancestors?_eq, if_neg (Ne.symm h.1), Option.map_eq_none_iff, List.findSome?_eq_none_iff]
    exact fun c hc => ih c hc (h.2 c hc)

theorem mem_ids {t n : Tree Mark} (h : n ∈ t.preorder) : n.id ∈ t.ids := List.mem_map_of_mem h

/-- Only one part has a given number below it. -/
theorem part_unique {t c d : Tree Mark} (hids : t.ids.Nodup) (hc : c ∈ t.children)
    (hd : d ∈ t.children) {i : Nat} (hic : i ∈ c.ids) (hid : i ∈ d.ids) : c = d :=
  eq_of_mem_flatMap (nodup_ids_parts hids) hc hd hic hid

theorem nodup_ids_of_mem_children {t c : Tree Mark} (hids : t.ids.Nodup) (hc : c ∈ t.children) :
    c.ids.Nodup :=
  (List.nodup_flatMap.mp (nodup_ids_parts hids)).1 c hc

/-- The part below which the node is tells what is above the node. -/
theorem findSome?_ancestors? {t c : Tree Mark} {i : Nat} (hids : t.ids.Nodup)
    (hc : c ∈ t.children) (hi : i ∈ c.ids) :
    t.children.findSome? (ancestors? i) = c.ancestors? i := by
  have hother : ∀ d ∈ t.children, d ≠ c → d.ancestors? i = none := fun d hd hne =>
    ancestors?_eq_none fun hid => hne (part_unique hids hd hc hid hi)
  cases hfound : t.children.findSome? (ancestors? i) with
  | none => exact (List.findSome?_eq_none_iff.mp hfound c hc).symm
  | some above =>
    obtain ⟨d, hd, habove⟩ := List.exists_of_findSome?_eq_some hfound
    by_cases hdc : d = c
    · rw [← hdc, habove]
    · rw [hother d hd hdc] at habove
      cases habove

theorem eq_or_sizeOf_lt {t n : Tree α} (h : n ∈ t.preorder) : n = t ∨ sizeOf n < sizeOf t := by
  induction t using inductionOnParts with
  | node t ih =>
    rw [preorder_eq, List.mem_cons, List.mem_flatMap] at h
    rcases h with rfl | ⟨c, hc, hn⟩
    · exact .inl rfl
    · have hlt := sizeOf_lt_of_mem_children hc
      rcases ih c hc hn with rfl | h
      · exact .inr hlt
      · exact .inr (Nat.lt_trans h hlt)

/-- What is above a node: its parent, the parent of that one, and so on up to the root. These are
the nodes that the node is below of. -/
theorem ancestors?_spec {t n : Tree Mark} (hids : t.ids.Nodup) (hn : n ∈ t.preorder) :
    ∃ above, t.ancestors? n.id = some above ∧
      (n :: above).IsChain (fun a b => a ∈ b.children) ∧ (n :: above).getLast? = some t ∧
      ∀ m, m ∈ n :: above ↔ m ∈ t.preorder ∧ n ∈ m.preorder := by
  induction t using inductionOnParts with
  | node t ih =>
    have hn' := hn
    rw [preorder_eq, List.mem_cons, List.mem_flatMap] at hn'
    rcases hn' with rfl | ⟨c, hc, hnc⟩
    · refine ⟨[], by rw [ancestors?_eq, if_pos rfl], by simp, rfl, fun m => ?_⟩
      rw [List.mem_singleton]
      refine ⟨fun hm => by rw [hm]; exact ⟨hn, hn⟩, fun ⟨hm, hself⟩ => ?_⟩
      -- Two nodes that are below each other are the same.
      rcases eq_or_sizeOf_lt hm with hm | hlt
      · exact hm
      · rcases eq_or_sizeOf_lt hself with hself | hlt'
        · exact hself.symm
        · omega
    · obtain ⟨above, habove, hchain, hlast, hmem⟩ :=
        ih c hc (nodup_ids_of_mem_children hids hc) hnc
      have hne : t.id ≠ n.id := by
        intro heq
        rw [ids_eq, List.nodup_cons, heq] at hids
        exact hids.1 (List.mem_flatMap.mpr ⟨c, hc, mem_ids hnc⟩)
      refine ⟨above ++ [t], ?_, ?_, ?_, fun m => ?_⟩
      · rw [ancestors?_eq, if_neg hne, findSome?_ancestors? hids hc (mem_ids hnc), habove]
        rfl
      · rw [← List.cons_append]
        refine hchain.append (.singleton t) ?_
        simpa [hlast] using hc
      · rw [← List.cons_append, List.getLast?_concat]
      · rw [← List.cons_append, List.mem_append, hmem, List.mem_singleton]
        constructor
        · rintro (⟨hm, hnm⟩ | rfl)
          · exact ⟨mem_preorder_of_mem_children hc hm, hnm⟩
          · exact ⟨mem_preorder_self _, hn⟩
        · rintro ⟨hm, hnm⟩
          rw [preorder_eq, List.mem_cons, List.mem_flatMap] at hm
          rcases hm with rfl | ⟨d, hd, hm⟩
          · exact .inr rfl
          · -- The part with this node below it has `n` below it too, so there is no other.
            have hnd : n ∈ d.preorder := mem_preorder_trans hm hnm
            obtain rfl := part_unique hids hc hd (mem_ids hnc) (mem_ids hnd)
            exact .inl ⟨hm, hnm⟩

/-- What is above a part is its node and what is above that. -/
theorem ancestors?_part {t p c : Tree Mark} (hids : t.ids.Nodup) (hp : p ∈ t.preorder)
    (hc : c ∈ p.children) : t.ancestors? c.id = (t.ancestors? p.id).map (p :: ·) := by
  induction t using inductionOnParts with
  | node t ih =>
    have hbelow : ∀ d ∈ t.children, ∀ i ∈ d.ids, t.id ≠ i := by
      rintro d hd i hi rfl
      rw [ids_eq, List.nodup_cons] at hids
      exact hids.1 (List.mem_flatMap.mpr ⟨d, hd, hi⟩)
    rw [preorder_eq, List.mem_cons, List.mem_flatMap] at hp
    rcases hp with rfl | ⟨d, hd, hpd⟩
    · -- The node above is the one that is searched, and it is the innermost one above its part.
      have hself := mem_ids (mem_preorder_self c)
      rw [ancestors?_eq, if_neg (hbelow c hc _ hself), findSome?_ancestors? hids hc hself,
        ancestors?_eq c.id c, if_pos rfl, ancestors?_eq p.id p, if_pos rfl]
      rfl
    · -- Both nodes are below the same part, and the search goes down into it for either.
      have hcd := mem_ids (mem_preorder_trans hpd
        (mem_preorder_of_mem_children hc (mem_preorder_self c)))
      rw [ancestors?_eq, if_neg (hbelow d hd _ hcd), findSome?_ancestors? hids hd hcd,
        ih d hd (nodup_ids_of_mem_children hids hd) hpd, ancestors?_eq p.id t,
        if_neg (hbelow d hd _ (mem_ids hpd)), findSome?_ancestors? hids hd (mem_ids hpd),
        Option.map_map, Option.map_map]
      rfl

/-! ### Walks -/

theorem walk_of_enter {σ : Type} {v : Visitor α σ} {t : Tree α} {s s' : σ}
    (h : v.visit t s = (.enter, s')) :
    t.walk v s =
      match t.children.foldl (fun acc c => if acc.1 then acc else c.walk v acc.2) (false, s') with
      | (true, s) => (true, s)
      | (false, s) => (false, v.leave t s) := by
  have hparts := List.foldl_attach (l := t.children) (b := (false, s'))
    (f := fun acc c => if acc.1 then acc else c.walk v acc.2)
  rw [walk, h]
  exact congrArg (fun r : Bool × σ => match r with
    | (true, s) => (true, s)
    | (false, s) => (false, v.leave t s)) hparts

/-- A visitor that also notes the nodes it meets. -/
def Visitor.noting {σ : Type} (v : Visitor α σ) : Visitor α (List (Tree α) × σ) where
  visit t s := ((v.visit t s.2).1, s.1 ++ [t], (v.visit t s.2).2)
  leave t s := (s.1, v.leave t s.2)

/-- A walk in which every node is entered comes to its end, and meets every node. -/
theorem walk_noting {σ : Type} {v : Visitor α σ} (henter : ∀ t s, (v.visit t s).1 = .enter)
    (t : Tree α) (s : σ) :
    ∃ s', t.walk v s = (false, s') ∧
      ∀ seen, t.walk v.noting (seen, s) = (false, seen ++ t.preorder, s') := by
  induction t using inductionOnParts generalizing s with
  | node t ih =>
    -- The two walks go through the parts in step.
    have hparts : ∀ ts : List (Tree α), (∀ c ∈ ts, c ∈ t.children) → ∀ s, ∃ s',
        ts.foldl (fun acc c => if acc.1 then acc else c.walk v acc.2) (false, s) = (false, s') ∧
        ∀ seen, ts.foldl (fun acc c => if acc.1 then acc else c.walk v.noting acc.2)
          (false, seen, s) = (false, seen ++ ts.flatMap preorder, s') := by
      intro ts hts
      induction ts with
      | nil => exact fun s => ⟨s, rfl, fun seen => by simp⟩
      | cons c ts ihts =>
        intro s
        obtain ⟨mid, hwalk, hnoting⟩ := ih c (hts c List.mem_cons_self) s
        obtain ⟨s', hrest, hrestNoting⟩ := ihts (fun c hc => hts c (List.mem_cons_of_mem _ hc)) mid
        refine ⟨s', ?_, fun seen => ?_⟩
        · simpa [hwalk] using hrest
        · simpa [hnoting] using hrestNoting (seen ++ c.preorder)
    have hvisit : v.visit t s = (.enter, (v.visit t s).2) := by rw [← henter t s]
    obtain ⟨s', hwalk, hnoting⟩ := hparts t.children (fun _ h => h) (v.visit t s).2
    refine ⟨v.leave t s', by rw [walk_of_enter hvisit, hwalk], fun seen => ?_⟩
    have hvisit' : v.noting.visit t (seen, s) = (.enter, seen ++ [t], (v.visit t s).2) := by
      simp [Visitor.noting, henter]
    rw [walk_of_enter hvisit', hnoting, preorder_eq t]
    simp [Visitor.noting]

end Tree

namespace SourceFile

/-- The nodes of a file in the order of their numbers. -/
def nodes (f : SourceFile) : List (Tree Mark) := f.root.postorder

theorem mem_nodes {f : SourceFile} {n : Tree Mark} : n ∈ f.nodes ↔ n ∈ f.root.preorder :=
  f.root.postorder_perm_preorder.mem_iff

/-- Every node of a file stands at the place that its number tells. -/
theorem map_id_nodes (text : String) :
    (parse text).nodes.map Tree.id = List.range (parse text).nodes.length := by
  obtain ⟨k, hids, -⟩ := Tree.map_id_postorder_number
    (.file ⟨{}, Position.after {} text.toList⟩
      (Parse.statements (Lexed.ofText text).lexemes (Position.after {} text.toList)).1) 0
  have hnodes : (parse text).nodes.map Tree.id = List.range' 0 k := hids
  have hlength : (parse text).nodes.length = k := by simpa using congrArg List.length hnodes
  rw [hnodes, hlength, List.range_eq_range']

theorem ancestors_spec {text : String} {n : Tree Mark} (hn : n ∈ (parse text).nodes) :
    (n :: (parse text).ancestors n.id).IsChain (fun a b => a ∈ b.children) ∧
      (n :: (parse text).ancestors n.id).getLast? = some (parse text).root ∧
      ∀ m, m ∈ n :: (parse text).ancestors n.id ↔ m ∈ (parse text).nodes ∧ n ∈ m.preorder := by
  obtain ⟨above, habove, hchain, hlast, hmem⟩ :=
    Tree.ancestors?_spec (nodup_ids_root text) (mem_nodes.mp hn)
  have heq : (parse text).ancestors n.id = above := by
    rw [ancestors, habove, Option.getD_some]
  rw [heq]
  exact ⟨hchain, hlast, fun m => by rw [hmem, mem_nodes]⟩

/-- The parts of a node are nodes with smaller numbers. -/
theorem part_before {text : String} {n c : Tree Mark} (hn : n ∈ (parse text).nodes)
    (hc : c ∈ n.children) : c ∈ (parse text).nodes ∧ c.id < n.id := by
  refine ⟨?_, ?_⟩
  · exact mem_nodes.mpr (Tree.mem_preorder_trans (mem_nodes.mp hn)
      (Tree.mem_preorder_of_mem_children hc (Tree.mem_preorder_self c)))
  · refine Tree.id_lt_of_mem_children ?_ (mem_nodes.mp hn) hc
    show ((parse text).nodes.map Tree.id).Pairwise (· < ·)
    rw [map_id_nodes]
    exact List.pairwise_lt_range

/-- The number of the root is not the number of a part. -/
theorem root_not_part {text : String} {n : Tree Mark} (hn : n ∈ (parse text).nodes) :
    (parse text).root.id ∉ n.children.map Tree.id := fun hroot =>
  (Tree.nodup_parts (nodup_ids_root text)).1 (List.mem_flatMap.mpr ⟨n, mem_nodes.mp hn, hroot⟩)

/-- A node that is not the root is a part of the first node above it, and of no other one. -/
theorem parent_spec {text : String} {n : Tree Mark} (hn : n ∈ (parse text).nodes)
    (hne : n.id ≠ (parse text).root.id) :
    ∃ p ∈ (parse text).nodes, ((parse text).ancestors n.id).head? = some p ∧
      n ∈ p.children ∧ (p.children.map Tree.id).count n.id = 1 ∧
      ∀ q ∈ (parse text).nodes, n.id ∈ q.children.map Tree.id → q = p := by
  have hids := nodup_ids_root text
  obtain ⟨hchain, hlast, hmem⟩ := ancestors_spec hn
  cases habove : (parse text).ancestors n.id with
  | nil =>
    -- With nothing above it the node would be the root.
    rw [habove] at hlast
    exact absurd (congrArg Tree.id (Option.some.inj hlast)) hne
  | cons p above =>
    rw [habove] at hchain hmem
    have hp : p ∈ (parse text).nodes := ((hmem p).mp (by simp)).1
    have hpart : n ∈ p.children := (List.isChain_cons_cons.mp hchain).1
    have hpart' : n.id ∈ p.children.map Tree.id := List.mem_map_of_mem hpart
    refine ⟨p, hp, rfl, hpart, ?_, fun q hq hqpart => ?_⟩
    · exact List.count_eq_one_of_mem
        ((List.nodup_flatMap.mp (Tree.nodup_parts hids).2).1 p (mem_nodes.mp hp)) hpart'
    · exact Tree.parent_unique hids (mem_nodes.mp hq) (mem_nodes.mp hp) hqpart hpart'

end SourceFile

end MesonLens
