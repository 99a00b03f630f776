import MesonLens.Proofs.Syntax.StatementRows
import MesonLens.Proofs.Syntax.Navigation
import MesonLens.Proofs.Token.LineFeeds

/-!
# `MesonLens.Proofs.Syntax.SourceOrder`: visitors meet the nodes of a file in the order of the text

The parts of a node stand in the order of the text, and so do all nodes below it. The exception is
a selection with an `elif` after its `else`, where the parser has noted an error: its conditions
stand in order and its statements do, but a condition may come before a statement that stands
further up (`SourceFile.children_out_of_order`).

* `Tree.sorted_preorder`: where parts stand in order, so do all nodes;
* `Tree.preorder_number`, `Branches.map_span_conditions`, `Branches.map_span_blocks`: numbers leave
  the nodes where they are;
* `Tree.walk_noting_sublist`: a visitor meets nodes in the order of `Tree.preorder`, also when it
  skips some of them or ends the walk;
* `SourceFile.arranged_root`, `SourceFile.branches_arranged`: the nodes of a file, and what is known
  of its selections;
* `SourceFile.children_in_order` puts these together for every text.
-/

set_option autoImplicit false

namespace MesonLens

/-! ### Numbered trees -/

namespace Tree

variable {errors : List SyntaxError} {t : Tree Span}

/-- Where the parts of every node stand in order, all nodes do. -/
theorem sorted_preorder (harranged : ∀ n ∈ t.preorder, n.Arranged errors)
    (hlate : ∀ n ∈ t.preorder, n.kind = .selection → ¬ LateBranch errors n.note) :
    (t.preorder.map note).Pairwise fun s u => s.start ≤ u.start := by
  rw [List.pairwise_map]
  induction t using inductionOnParts with
  | node t ih =>
    have hself := harranged t (mem_preorder_self t)
    have hstart := hself.start_le
    have hbelow : ∀ c ∈ t.children, ∀ n ∈ c.preorder, n ∈ t.preorder :=
      fun c hc n hn => mem_preorder_of_mem_children hc hn
    rw [preorder_eq] at hstart ⊢
    refine List.pairwise_cons.mpr ⟨fun n hn => hstart n (List.mem_cons_of_mem _ hn), ?_⟩
    refine List.pairwise_flatMap.mpr ⟨fun c hc => ?_, hself.parts (hlate t (mem_preorder_self t))⟩
    exact ih c hc (fun n hn => harranged n (hbelow c hc n hn))
      fun n hn => hlate n (hbelow c hc n hn)

/-- Numbers leave the nodes what they are and where they are. -/
theorem preorder_number (t : Tree Span) (n : Nat) :
    (t.number.run n).1.preorder.map (fun m => (m.kind, m.span)) =
      t.preorder.map fun u => (u.kind, u.note) := by
  induction t using inductionOnParts generalizing n with
  | node t ih =>
    have hparts : ∀ ts : List (Tree Span), (∀ c ∈ ts, c ∈ t.children) → ∀ n,
        (((numberAll ts).run n).1.flatMap preorder).map (fun m => (m.kind, m.span)) =
          (ts.flatMap preorder).map fun u => (u.kind, u.note) := by
      intro ts hts
      induction ts with
      | nil => exact fun _ => rfl
      | cons c ts ihts =>
        intro n
        rw [numberAll_run_cons, List.flatMap_cons, List.flatMap_cons, List.map_append,
          List.map_append, ih c (hts c List.mem_cons_self),
          ihts fun c hc => hts c (List.mem_cons_of_mem _ hc)]
    obtain ⟨hchildren, hnote, hkind, -⟩ := number_run t n
    rw [preorder_eq, preorder_eq t, List.map_cons, List.map_cons, hchildren,
      hparts t.children fun _ h => h, span, hnote, hkind]

end Tree

namespace Branches

theorem map_span_conditions : ∀ (b : Branches Span) (n : Nat),
    (b.number.run n).1.conditions.map Tree.span = b.conditions.map Tree.note
  | done, _ => rfl
  | otherwise _, _ => rfl
  | arm _ _ rest, _ =>
    congrArg₂ List.cons (congrArg Mark.span (Tree.number_run _ _).2.1)
      (map_span_conditions rest _)

theorem map_span_blocks : ∀ (b : Branches Span) (n : Nat),
    (b.number.run n).1.blocks.map (·.map Tree.span) = b.blocks.map (·.map Tree.note)
  | done, _ => rfl
  | otherwise body, n => congrArg (· :: []) (Tree.map_span_numberAll body n)
  | arm _ body rest, _ =>
    congrArg₂ List.cons (Tree.map_span_numberAll body _) (map_span_blocks rest _)

end Branches

/-! ### Walks -/

namespace Tree

variable {α σ : Type}

/-- A visitor meets nodes in the order in which a node comes before its parts, whatever it skips. -/
theorem walk_noting_sublist (v : Visitor α σ) (t : Tree α) (seen : List (Tree α)) (s : σ) :
    ∃ met, (t.walk v.noting (seen, s)).2.1 = seen ++ met ∧ met.Sublist t.preorder := by
  induction t using inductionOnParts generalizing seen s with
  | node t ih =>
    have hself : [t].Sublist t.preorder := List.singleton_sublist.mpr (mem_preorder_self t)
    rcases hvisit : v.visit t s with ⟨choice, mid⟩
    have hnoting : v.noting.visit t (seen, s) = (choice, seen ++ [t], mid) := by
      simp [Visitor.noting, hvisit]
    cases choice with
    | stop => exact ⟨[t], by rw [walk, hnoting], hself⟩
    | skip => exact ⟨[t], by rw [walk, hnoting], hself⟩
    | enter =>
      -- The walk goes through the parts in order, up to one where the visitor ends it.
      have hparts : ∀ ts : List (Tree α), (∀ c ∈ ts, c ∈ t.children) → ∀ (stopped : Bool) seen s,
          ∃ met, (ts.foldl (fun acc c => if acc.1 then acc else c.walk v.noting acc.2)
            (stopped, seen, s)).2.1 = seen ++ met ∧ met.Sublist (ts.flatMap preorder) := by
        intro ts hts
        induction ts with
        | nil => exact fun _ seen _ => ⟨[], (List.append_nil seen).symm, .refl _⟩
        | cons c ts ihts =>
          intro stopped seen s
          have ihts := ihts fun c hc => hts c (List.mem_cons_of_mem _ hc)
          cases stopped with
          | true =>
            obtain ⟨met, hmet, hsub⟩ := ihts true seen s
            exact ⟨met, hmet, hsub.trans (List.sublist_append_right _ _)⟩
          | false =>
            obtain ⟨first, hfirst, hsub⟩ := ih c (hts c List.mem_cons_self) seen s
            rcases hwalk : c.walk v.noting (seen, s) with ⟨stopped, seen', s'⟩
            rw [hwalk] at hfirst
            obtain ⟨met, hmet, hsub'⟩ := ihts stopped seen' s'
            refine ⟨first ++ met, ?_, hsub.append hsub'⟩
            rw [List.foldl_cons, if_neg Bool.false_ne_true, hwalk, hmet, ← List.append_assoc]
            exact congrArg (· ++ met) hfirst
      obtain ⟨met, hmet, hsub⟩ := hparts t.children (fun _ h => h) false (seen ++ [t]) mid
      refine ⟨t :: met, ?_, ?_⟩
      · rw [walk_of_enter hnoting]
        split
        all_goals
          next hfold =>
          rw [hfold] at hmet
          rw [← List.append_cons] at hmet
          exact hmet
      · rw [preorder_eq]
        exact hsub.cons_cons t

end Tree

/-! ### Whole texts -/

namespace Tree

/-- The nodes start one after the other in the text, or at one place. -/
def InOrder (ts : List (Tree Mark)) : Prop :=
  (ts.map fun t => t.span.start.offset).Pairwise (· ≤ ·)

instance (ts : List (Tree Mark)) : Decidable (InOrder ts) :=
  inferInstanceAs (Decidable (List.Pairwise _ _))

theorem InOrder.sublist {ts us : List (Tree Mark)} (h : InOrder us) (hsub : ts.Sublist us) :
    InOrder ts :=
  List.Pairwise.sublist (hsub.map _) h

theorem inOrder_of_starts {ts : List (Tree Mark)}
    (h : (ts.map span).Pairwise fun s u => s.start ≤ u.start) : InOrder ts :=
  List.pairwise_map.mpr ((List.pairwise_map.mp h).imp Position.offset_le_of_le)

/-- Trees that precede each other start in order. -/
theorem starts_of_precedes {us : List (Tree Span)} (h : us.Pairwise Precedes) :
    (us.map note).Pairwise fun s u => s.start ≤ u.start :=
  List.pairwise_map.mpr (h.imp fun hprecedes =>
    hprecedes _ (mem_preorder_self _) _ (mem_preorder_self _))

end Tree

namespace SourceFile

/-- The nodes of a file are arranged, before they are numbered. -/
theorem arranged_root (text : String) : ∃ t : Tree Span,
    (parse text).root = (t.number.run 0).1 ∧ ∀ n ∈ t.preorder, n.Arranged (parse text).errors := by
  have hrow := Parse.row_statements (Lexer.inOrder_scan {} text.toList) fun l hl hline =>
    (Nat.lt_succ_self _).trans_eq (Lexed.line_newline text hl hline).symm
  have herrors : (Parse.statements (Lexed.ofText text).lexemes
      (Position.after {} text.toList)).2 ⊆ (parse text).errors := fun e he =>
    List.mem_mergeSort.mpr (List.mem_append_right _ he)
  have hroot := Tree.row_node (t := .file ⟨{}, Position.after {} text.toList⟩ _) rfl nofun
    (le_refl _) (hrow.errors_mono herrors)
  exact ⟨_, rfl, hroot.arranged _ (List.mem_singleton_self _)⟩

/-- A node of a file is one of the nodes before they are numbered, with a number. -/
theorem exists_arranged {text : String} {n : Tree Mark} (hn : n ∈ (parse text).nodes) :
    ∃ u : Tree Span, (∀ w ∈ u.preorder, w.Arranged (parse text).errors) ∧
      ∃ k, n = (u.number.run k).1 := by
  obtain ⟨t, hroot, harranged⟩ := arranged_root text
  have hn := mem_nodes.mp hn
  rw [hroot] at hn
  obtain ⟨u, hu, k, hnumber⟩ := Tree.mem_preorder_number hn
  exact ⟨u, fun w hw => harranged w (Tree.mem_preorder_trans hu hw), k, hnumber⟩

/-- The nodes below a node of a file start in order, unless an `elif` after an `else` was found in
one of them. -/
theorem sorted_below {text : String} {n : Tree Mark} (hn : n ∈ (parse text).nodes)
    (hlate : ∀ m ∈ n.preorder, m.kind = .selection →
      ¬ Tree.LateBranch (parse text).errors m.span) :
    (n.preorder.map Tree.span).Pairwise fun s u => s.start ≤ u.start := by
  obtain ⟨u, harranged, k, rfl⟩ := exists_arranged hn
  have hsame := Tree.preorder_number u k
  have hlate : ∀ w ∈ u.preorder, w.kind = .selection →
      ¬ Tree.LateBranch (parse text).errors w.note := by
    intro w hw hkind
    have hmem := List.mem_map_of_mem (f := fun u => (u.kind, u.note)) hw
    rw [← hsame, List.mem_map] at hmem
    obtain ⟨m, hm, hmark⟩ := hmem
    obtain ⟨hkind', hspan⟩ := Prod.mk.inj hmark
    exact hspan ▸ hlate m hm (hkind'.trans hkind)
  have hspans := congrArg (List.map Prod.snd) hsame
  rw [List.map_map, List.map_map] at hspans
  have hstarts : ((u.number.run k).1.preorder.map Tree.span) = u.preorder.map Tree.note := hspans
  rw [hstarts]
  exact Tree.sorted_preorder harranged hlate

/-- The conditions of a selection start in order, and so do the statements of its blocks. The blocks
after the first one start on later lines than the selection. -/
theorem branches_arranged {text : String} {m : Mark} {b : Branches Mark}
    (hn : .selection m b ∈ (parse text).nodes) :
    ((b.conditions.map Tree.span).Pairwise fun s u => s.start ≤ u.start) ∧
      ((b.blocks.flatten.map Tree.span).Pairwise fun s u => s.start ≤ u.start) ∧
      ∀ body ∈ b.blocks.drop 1, ∀ t ∈ body,
        m.span.start.line < t.span.start.line ∧ t.span.start ≤ m.span.stop := by
  obtain ⟨u, harranged, k, hnumber⟩ := exists_arranged hn
  have hself := harranged u (Tree.mem_preorder_self u)
  cases u with
  | selection s b' =>
    have hb : b = (b'.number.run k).1 := by cases hnumber; rfl
    have hm : m.span = s := congrArg Tree.span hnumber
    obtain ⟨hconditions, hblocks, hlater⟩ := hself.branches s b' rfl
    subst hb hm
    refine ⟨?_, ?_, fun body hbody t ht => ?_⟩
    · rw [Branches.map_span_conditions]
      exact Tree.starts_of_precedes hconditions
    · rw [List.map_flatten, Branches.map_span_blocks, ← List.map_flatten]
      exact Tree.starts_of_precedes hblocks
    · -- The block is a later one before the numbers, too.
      have hbodies : ((b'.number.run k).1.blocks.drop 1).map (·.map Tree.span) =
          (b'.blocks.drop 1).map (·.map Tree.note) := by
        rw [List.map_drop, Branches.map_span_blocks, List.map_drop]
      have hbody := List.mem_map_of_mem (f := (·.map Tree.span)) hbody
      rw [hbodies, List.mem_map] at hbody
      obtain ⟨body', hbody', hsame⟩ := hbody
      have ht := List.mem_map_of_mem (f := Tree.span) ht
      rw [← hsame, List.mem_map] at ht
      obtain ⟨w, hw, hspan⟩ := ht
      rw [← hspan]
      exact hlater body' hbody' w hw
  | method a object name args => cases args <;> cases hnumber
  | _ => cases hnumber

/-- **The nodes of a file in the order of the text**, for every text.

* The parts of a node start in order, unless the node is a selection in which an `elif` after an
  `else` was found.
* The conditions of any selection start in order, and so do the statements of its blocks.
* A visitor meets nodes in order, whether it enters them, skips them or ends the walk, where no such
  `elif` was found in any selection that it may come to. -/
theorem children_in_order (text : String) :
    let f := parse text
    (∀ n ∈ f.nodes, (n.kind = .selection → ¬ Tree.LateBranch f.errors n.span) →
      Tree.InOrder n.children) ∧
    (∀ m b, Tree.selection m b ∈ f.nodes →
      Tree.InOrder b.conditions ∧ Tree.InOrder b.blocks.flatten) ∧
    ∀ n ∈ f.nodes, (∀ m ∈ n.preorder, m.kind = .selection → ¬ Tree.LateBranch f.errors m.span) →
      ∀ (σ : Type) (v : Tree.Visitor Mark σ) (s : σ),
        Tree.InOrder (n.walk v.noting ([], s)).2.1 := by
  intro f
  refine ⟨fun n hn hlate => ?_, fun m b hn => ?_, fun n hn hlate σ v s => ?_⟩
  · obtain ⟨u, harranged, k, rfl⟩ := exists_arranged hn
    have hself := harranged u (Tree.mem_preorder_self u)
    obtain ⟨hchildren, hnote, hkind, -⟩ := Tree.number_run u k
    rw [hkind, Tree.span, hnote] at hlate
    refine Tree.inOrder_of_starts ?_
    rw [hchildren, Tree.map_span_numberAll]
    exact Tree.starts_of_precedes (hself.parts hlate)
  · obtain ⟨hconditions, hblocks, -⟩ := branches_arranged hn
    exact ⟨Tree.inOrder_of_starts hconditions, Tree.inOrder_of_starts hblocks⟩
  · have hstarts := sorted_below hn hlate
    obtain ⟨met, hmet, hsub⟩ := Tree.walk_noting_sublist v n [] s
    rw [hmet]
    exact (Tree.inOrder_of_starts hstarts).sublist hsub

/-- After an `else` the condition of an `elif` comes before the statements of the `else`. -/
theorem children_out_of_order :
    let f := parse "if a\nelse\n  y\nelif b\nendif\n"
    ∃ n ∈ f.nodes, n.kind = .selection ∧
      n.children.map (fun c => c.span.start.offset) = [3, 19, 12] ∧ ¬ Tree.InOrder n.children ∧
      f.errors.map SyntaxError.fault = [.elifAfterElse] := by
  decide +kernel

end SourceFile

end MesonLens
