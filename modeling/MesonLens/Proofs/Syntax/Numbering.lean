import MesonLens.Syntax.SourceFile
import Mathlib.Data.List.Perm.Basic

/-!
# `MesonLens.Proofs.Syntax.Numbering`: every node has a number of its own

`Tree.number` gives numbers to the nodes of a tree, the parts of a node before the node.
`Tree.ids` lists the numbers in the order of `Tree.preorder`. The numbers that a step
gives out are a run of consecutive ones, in some order: `Numbers` says this about a step,
and `Numbers.bind` puts two steps together. `Tree.numbers_number` is the result for a
whole tree, by the mutual recursion of `Tree.number`, `Tree.numberAll` and
`Branches.number`.

`SourceFile.nodup_ids_root` is what the analysis of a file needs: no two nodes of a file
share a number.
-/

set_option autoImplicit false

namespace MesonLens

namespace Tree

variable {α : Type}

/-- A node comes first, then the nodes of its parts in order. -/
theorem preorder_eq (t : Tree α) : t.preorder = t :: t.children.flatMap preorder := by
  rw [preorder]
  congr 1
  exact (List.flatMap_subtype (by intros; rfl)).trans (by simp)

theorem mem_preorder_self (t : Tree α) : t ∈ t.preorder := by
  rw [preorder_eq]
  exact List.mem_cons_self

/-- A node below a part is a node of the tree. -/
theorem mem_preorder_of_mem_children {t c n : Tree α} (hc : c ∈ t.children)
    (hn : n ∈ c.preorder) : n ∈ t.preorder := by
  rw [preorder_eq]
  exact List.mem_cons_of_mem _ (List.mem_flatMap.mpr ⟨c, hc, hn⟩)

/-- The numbers of the nodes of a tree, a node before its parts. -/
def ids (t : Tree Mark) : List Nat := t.preorder.map Tree.id

theorem ids_eq (t : Tree Mark) : t.ids = t.id :: t.children.flatMap ids := by
  rw [ids, preorder_eq, List.map_cons, List.map_flatMap]
  rfl

theorem ids_parts_subset (t : Tree Mark) : t.children.flatMap ids ⊆ t.ids := by
  rw [ids_eq]
  exact List.subset_cons_self _ _

theorem nodup_ids_parts {t : Tree Mark} (h : t.ids.Nodup) : (t.children.flatMap ids).Nodup := by
  rw [ids_eq] at h
  exact h.of_cons

end Tree

/-- A step that gives out the numbers from the next free one on. `R` relates its result to
the list of these numbers. -/
def Numbers {α : Type} (m : StateM Nat α) (R : α → List Nat → Prop) : Prop :=
  ∀ n, ∃ k l, R (m.run n).1 l ∧ l.Perm (List.range' n k) ∧ (m.run n).2 = n + k

namespace Numbers

variable {α β : Type}

theorem pure {a : α} {R : α → List Nat → Prop} (h : R a []) : Numbers (Pure.pure a) R :=
  fun _ => ⟨0, [], h, by simp, rfl⟩

/-- The numbers of the second step follow those of the first. -/
theorem bind {m : StateM Nat α} {f : α → StateM Nat β} {R : α → List Nat → Prop}
    {S : β → List Nat → Prop} (hm : Numbers m R)
    (hf : ∀ a l, R a l → Numbers (f a) fun b l' => S b (l ++ l')) : Numbers (m >>= f) S := by
  intro n
  obtain ⟨k, l, hR, hl, hk⟩ := hm n
  obtain ⟨k', l', hS, hl', hk'⟩ := hf _ l hR (n + k)
  have hrun : (m >>= f).run n = (f (m.run n).1).run (n + k) := by
    rw [← hk]
    rfl
  rw [hrun]
  refine ⟨k + k', l ++ l', hS, ?_, by omega⟩
  have happ := hl.append hl'
  rwa [List.range'_append_1] at happ

theorem fresh (span : Span) : Numbers (Mark.fresh span) fun m l => l = [m.id] :=
  fun n => ⟨1, [n], rfl, by simp, rfl⟩

/-- The last step for a node: it takes one more number. -/
theorem node (span : Span) {build : Mark → Tree Mark} {S : Tree Mark → List Nat → Prop}
    (h : ∀ m, S (build m) [m.id]) : Numbers (do return build (← Mark.fresh span)) S := by
  refine (fresh span).bind fun m l hl => .pure ?_
  subst hl
  exact h m

end Numbers

/-- The numbers of the parts come before the number of the node. -/
theorem Tree.ids_perm {t : Tree Mark} {l : List Nat} (h : (t.children.flatMap Tree.ids).Perm l) :
    t.ids.Perm (l ++ [t.id]) := by
  rw [Tree.ids_eq]
  exact (h.cons _).trans (List.perm_append_singleton _ _).symm

mutual

/-- Numbering a tree gives its nodes consecutive numbers, each once. -/
theorem Tree.numbers_number : (t : Tree Span) → Numbers t.number fun t' l => t'.ids.Perm l
  | .file a ts | .arguments a ts | .array a ts | .dictionary a ts => by
    refine .bind (Tree.numbers_numberAll ts) fun ts' l hts => .node a fun m => ?_
    exact Tree.ids_perm hts
  | .assignment a l _ r | .binary a l _ r | .call a l r | .entry a l r | .keyword a l r
  | .subscript a l r => by
    refine .bind l.numbers_number fun l' _ hl => .bind r.numbers_number fun r' _ hr =>
      .node a fun m => ?_
    rw [← List.append_assoc]
    exact Tree.ids_perm (by simpa [Tree.children] using hl.append hr)
  | .conditional a c t f => by
    refine .bind c.numbers_number fun c' _ hc => .bind t.numbers_number fun t' _ ht =>
      .bind f.numbers_number fun f' _ hf => .node a fun m => ?_
    rw [← List.append_assoc, ← List.append_assoc]
    exact Tree.ids_perm (by simpa [Tree.children] using hc.append (ht.append hf))
  | .iteration a names iterable body => by
    refine .bind (Tree.numbers_numberAll names) fun _ _ hn =>
      .bind iterable.numbers_number fun _ _ hi =>
      .bind (Tree.numbers_numberAll body) fun _ _ hb => .node a fun m => ?_
    rw [← List.append_assoc, ← List.append_assoc]
    exact Tree.ids_perm (by simpa [Tree.children] using hn.append (hi.append hb))
  | .method a object name none => by
    refine .bind object.numbers_number fun _ _ ho => .bind name.numbers_number fun _ _ hn =>
      .node a fun m => ?_
    rw [← List.append_assoc]
    exact Tree.ids_perm (by simpa [Tree.children] using ho.append hn)
  | .method a object name (some args) => by
    refine .bind object.numbers_number fun _ _ ho => .bind name.numbers_number fun _ _ hn =>
      .bind args.numbers_number fun _ _ ha => .node a fun m => ?_
    rw [← List.append_assoc, ← List.append_assoc]
    exact Tree.ids_perm (by simpa [Tree.children] using ho.append (hn.append ha))
  | .selection a branches => by
    refine .bind branches.numbers_number fun _ _ hb => .node a fun m => ?_
    exact Tree.ids_perm hb
  | .unary a _ t => by
    refine .bind t.numbers_number fun _ _ ht => .node a fun m => ?_
    exact Tree.ids_perm (by simpa [Tree.children] using ht)
  | .boolean a _ | .identifier a _ | .integer a _ _ | .string a _ _ _ | .malformed a _
  | .breakLoop a | .continueLoop a => by
    refine .node a fun m => ?_
    rw [Tree.ids_eq]
    exact .refl _

/-- Numbering trees in order gives their nodes consecutive numbers, each once. -/
theorem Tree.numbers_numberAll : (ts : List (Tree Span)) →
    Numbers (Tree.numberAll ts) fun ts' l => (ts'.flatMap Tree.ids).Perm l
  | [] => .pure (by simp)
  | t :: ts => by
    refine .bind t.numbers_number fun _ _ ht => .bind (Tree.numbers_numberAll ts) fun _ _ hts =>
      .pure ?_
    simpa using ht.append hts

/-- The same for the conditions and blocks of a selection. -/
theorem Branches.numbers_number : (b : Branches Span) →
    Numbers b.number fun b' l => (b'.children.flatMap Tree.ids).Perm l
  | .done => .pure (by simp [Branches.children])
  | .otherwise body => by
    refine .bind (Tree.numbers_numberAll body) fun _ _ hb => .pure ?_
    simpa [Branches.children] using hb
  | .arm condition body rest => by
    refine .bind condition.numbers_number fun _ _ hc =>
      .bind (Tree.numbers_numberAll body) fun _ _ hb =>
      .bind rest.numbers_number fun _ _ hr => .pure ?_
    simpa [Branches.children] using hc.append (hb.append hr)

end

/-- No two nodes of a file share a number. -/
theorem SourceFile.nodup_ids_root (text : String) : (SourceFile.parse text).root.ids.Nodup := by
  obtain ⟨k, l, hids, hl, -⟩ := Tree.numbers_number
    (.file ⟨{}, Position.after {} text.toList⟩
      (Parse.statements (Lexed.ofText text).lexemes (Position.after {} text.toList)).1) 0
  exact ((hids.trans hl).nodup_iff).mpr List.nodup_range'

end MesonLens
