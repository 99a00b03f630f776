import MesonLens.Syntax.Statement
import MesonLens.Syntax.Traversal

/-!
# `MesonLens.Syntax.SourceFile`: a text with its tree

`SourceFile.parse` reads a whole text. It never fails: what is wrong with the
text is listed in `errors`, in text order.
-/

set_option autoImplicit false

namespace MesonLens

/-- A text, its syntax tree and its errors. -/
structure SourceFile where
  text : String
  root : Tree Mark
  errors : List SyntaxError

namespace SourceFile

/-- Errors by the offset they start at; errors at one offset keep their order. -/
def sortErrors (errors : List SyntaxError) : List SyntaxError :=
  errors.mergeSort fun a b => a.span.start.offset ≤ b.span.start.offset

/-- Reads a text. -/
def parse (text : String) : SourceFile :=
  let lexed := Lexed.ofText text
  let eof := Position.after {} text.toList
  let (statements, errors) := Parse.statements lexed.lexemes eof
  let root := (Tree.file ⟨{}, eof⟩ statements : Tree Span)
  { text
    root := (root.number.run 0).1
    errors := sortErrors (lexed.errors ++ errors) }

/-- The text that a node covers. -/
def textOf (f : SourceFile) (t : Tree Mark) : String :=
  Text.covered f.text t.span

/-- The innermost node around a place. -/
def nodeAt (f : SourceFile) (line column : Nat) : Option (Tree Mark) :=
  f.root.nodeAt line column

/-- The nodes above a node, nearest first. -/
def ancestors (f : SourceFile) (id : Nat) : List (Tree Mark) :=
  (f.root.ancestors? id).getD []

end SourceFile

end MesonLens
