import MesonLens.Project.Basic

/-!
# `MesonLens.Editor.Folding`: stretches that can be folded

The branches of a selection, loops, and brackets over several lines. The last
line of a fold is the one before the word or bracket that ends it, which stays
visible.
-/

set_option autoImplicit false

namespace MesonLens

/-- Lines that fold into the first of them. -/
structure FoldingRange where
  startLine : Nat
  stopLine : Nat
  deriving DecidableEq, Repr

namespace FoldingRange

/-- The fold from a line to the line before another, if there is a line to hide. -/
def before? (start stop : Nat) : Option FoldingRange :=
  if start + 1 < stop then some ⟨start, stop - 1⟩ else none

/-- The folds between each of several lines and the next. -/
def between : List Nat → List FoldingRange
  | start :: stop :: lines => (before? start stop).toList ++ between (stop :: lines)
  | _ => []

/-- The line before the first statement of a block. -/
def blockStart? (block : List (Tree Mark)) : Option Nat :=
  block.head?.map fun t => t.span.start.line - 1

/-- The folds of a node itself. -/
def ofNode (t : Tree Mark) : List FoldingRange :=
  match t with
  | .selection mark branches =>
    between (mark.span.start.line :: (branches.blocks.drop 1).filterMap blockStart?
      ++ [mark.span.stop.line])
  | .iteration mark .. | .array mark _ | .dictionary mark _ | .arguments mark _ =>
    (before? mark.span.start.line mark.span.stop.line).toList
  | _ => []

/-- Folds by their first line, and then by their last. -/
def le (a b : FoldingRange) : Bool :=
  a.startLine < b.startLine || (a.startLine == b.startLine && a.stopLine ≤ b.stopLine)

/-- The folds of a tree by their lines. -/
def ofTree (t : Tree Mark) : List FoldingRange :=
  (t.preorder.flatMap ofNode).mergeSort le

/-- The folds of a file. -/
def all (p : Project) (path : Path) : List FoldingRange :=
  ((p.source? path).map fun f => ofTree f.root).getD []

end FoldingRange

end MesonLens
