import MesonLens.Editor.CodeAction
import MesonLens.Editor.Completion
import MesonLens.Editor.Definition
import MesonLens.Editor.Folding
import MesonLens.Editor.Highlight
import MesonLens.Editor.Hover
import MesonLens.Editor.InlayHint
import MesonLens.Editor.SemanticToken
import MesonLens.Editor.Symbol
import MesonLens.Files.Url
import MesonLens.Text.Value

/-!
# `MesonLens.Editor.Encoding`: what is sent to an editor

How places, edits and answers are written as structured values, with the field
names and numbers that editors know.
-/

set_option autoImplicit false

namespace MesonLens

/-- A place as a value. -/
def Place.encode (p : Place) : Value :=
  .object [("line", .nat p.line), ("character", .nat p.column)]

/-- A stretch as a value. -/
def Range.encode (r : Range) : Value :=
  .object [("start", r.start.encode), ("end", r.stop.encode)]

/-- An edit as a value. -/
def TextEdit.encode (e : TextEdit) : Value :=
  .object [("range", e.range.encode), ("newText", .string e.text)]

/-- What is shown about a stretch, as a value. -/
def Hover.encode (h : Hover) : Value :=
  .object
    [("contents", .object [("kind", .string "markdown"), ("value", .string h.text)]),
      ("range", h.range.encode)]

/-- The number of a kind of completion. -/
def CompletionKind.code : CompletionKind → Nat
  | method => 2
  | function => 3
  | variableName => 6
  | keywordArgument => 10
  | keyword => 14

/-- A completion as a value. -/
def CompletionItem.encode (item : CompletionItem) : Value :=
  .objectOf
    [("label", some (.string item.label)), ("kind", some (.nat item.kind.code)),
      ("detail", item.detail.map .string), ("insertText", item.insertText.map .string)]

/-- A stretch of a file as a value; nothing when the file has no address. -/
def Definition.encode? (d : Definition) : Option Value :=
  (Url.ofPath? d.path).map fun url =>
    .object [("uri", .string url.display), ("range", d.span.range.encode)]

/-- A use of a variable as a value. -/
def Highlight.encode (h : Highlight) : Value :=
  .object [("range", h.range.encode), ("kind", .nat (if h.write then 3 else 2))]

/-- The number of a kind of symbol. -/
def SymbolKind.code : SymbolKind → Nat
  | variableName => 13
  | string => 15
  | number => 16
  | boolean => 17
  | array => 18
  | object => 19

/-- A bound name as a value. -/
def DocumentSymbol.encode (s : DocumentSymbol) : Value :=
  .object
    [("name", .string s.name), ("detail", .string s.detail), ("kind", .nat s.kind.code),
      ("range", s.range.encode), ("selectionRange", s.selection.encode)]

/-- The meanings of the numbers in a list of words. -/
def SemanticToken.legend : Value :=
  .object
    [("tokenTypes", .array (WordKind.all.map fun k => .string k.display)),
      ("tokenModifiers", .array [.string "declaration"])]

/-- The numbers of a word. -/
def TokenDelta.numbers (t : TokenDelta) : List Value :=
  [t.line, t.column, t.length, t.kind, t.modifiers].map .nat

/-- A hint as a value. -/
def InlayHint.encode (h : InlayHint) : Value :=
  let shared := [("position", h.place.encode), ("label", .string h.label)]
  match h.kind with
  | .type => .object (shared ++ [("kind", .nat 1)])
  | .parameter => .object (shared ++ [("kind", .nat 2), ("paddingRight", .bool true)])

/-- What a change does to a text: it says the same in other words. -/
def CodeAction.kind : String := "refactor.rewrite"

/-- A change to the document of an address as a value. -/
def CodeAction.encode (url : Url) (a : CodeAction) : Value :=
  .object
    [("title", .string a.title), ("kind", .string kind),
      ("edit", .object [("changes", .object [(url.display, .array [a.edit.encode])])])]

/-- What a fold is: a stretch of code. -/
def FoldingRange.kind : String := "region"

/-- A fold as a value. -/
def FoldingRange.encode (f : FoldingRange) : Value :=
  .object
    [("startLine", .nat f.startLine), ("endLine", .nat f.stopLine), ("kind", .string kind)]

end MesonLens
