import MesonLens.Editor.Edit
import MesonLens.Project.Basic

/-!
# `MesonLens.Editor.Completion`: how a word may go on

Right after a dot these are the methods of what stands before the dot. Anywhere
else they are the keyword arguments that the call around the place still lacks,
the functions, the variables bound before the place, and the words of the
language.
-/

set_option autoImplicit false

namespace MesonLens

/-- What a completion names. -/
inductive CompletionKind where
  | function | method | variableName | keywordArgument | keyword
  deriving DecidableEq, Repr

/-- A word that may stand at a place. -/
structure CompletionItem where
  label : String
  kind : CompletionKind
  detail : Option String := none
  /-- The text to insert, when it is not the label. -/
  insertText : Option String := none
  deriving Repr

namespace Completion

/-- The words of the language. -/
def keywords : List String :=
  ["if", "elif", "else", "endif", "foreach", "endforeach", "break", "continue", "and", "or",
    "not", "in", "true", "false"]

/-- The first characters up to a number of UTF-16 units; a character that
reaches past it is still among them. -/
def takeUnits : Nat → List Char → List Char
  | 0, _ => []
  | _, [] => []
  | n + 1, c :: cs => c :: takeUnits (n + 1 - units16 c) cs

/-- How many UTF-16 units characters take. -/
def units : List Char → Nat
  | [] => 0
  | c :: cs => units16 c + units cs

/-- Whether a character can belong to a word. -/
def inWord (c : Char) : Bool := c.isAlphanum || c = '_'

/-- A line of a text without the carriage returns at its end. -/
def lineOf? (text : String) (line : Nat) : Option (List Char) :=
  (text.toList.splitOnP (· == '\n'))[line]?.map fun cs =>
    (cs.reverse.dropWhile (· == '\r')).reverse

/-- What stands before a place: the word that reaches up to it, and the rest of
the line before the word. -/
structure Before where
  rest : List Char
  word : List Char

/-- What stands before a column of a line. -/
def Before.of (line : List Char) (column : Nat) : Before :=
  let backwards := (takeUnits column line).reverse
  ⟨(backwards.dropWhile inWord).reverse, (backwards.takeWhile inWord).reverse⟩

/-- What stands before the dot at the end of some characters. -/
def receiver? (cs : List Char) : Option (List Char) :=
  if cs.getLast? = some '.' then some cs.dropLast else none

/-- Whether a name starts with a word. -/
def goesOn (word : List Char) (name : String) : Bool := word.isPrefixOf name.toList

/-- The item with the greatest weight, the last of several. -/
def greatestBy {α : Type} (weight : α → Nat) (items : List α) : Option α :=
  items.foldl
    (fun best x =>
      match best with
      | some b => if weight b ≤ weight x then some x else some b
      | none => some x)
    none

/-- The types of the largest expression that ends at a place. -/
def receiverTypes (i : Index) (line column : Nat) : TypeSet :=
  let candidates : List (Span × TypeSet) :=
    i.identifiers.map (fun u => (u.span, u.types)) ++ i.calls.map (fun u => (u.span, u.types))
      ++ i.methodCalls.map (fun u => (u.span, u.types))
      ++ i.strings.map fun u => (u.span, TypeSet.single .str)
  let ending := candidates.filter fun (s, _) => s.stop.line == line && s.stop.column == column
  ((greatestBy (fun (s, _) => s.length) ending).map Prod.snd).getD {}

/-- The methods of types that start with a word, each name once. -/
def methodItems (c : Catalog) (types : TypeSet) (word : List Char) : List CompletionItem :=
  let methods := types.members.foldl (fun known t => Catalog.addMethods known (c.methodsOf t)) []
  (methods.filter fun m => goesOn word m.name).map fun m =>
    { label := m.name, kind := .method, detail := some m.display }

/-- A call that a place is inside of. -/
structure Enclosing where
  node : Nat
  span : Span
  function : Signature TypeSet

/-- The innermost function call around a place that is not on its name. -/
def enclosingCall? (i : Index) (line column : Nat) : Option Enclosing := do
  let use ← (i.knownCallAt line column).filter (!·.nameSpan.contains line column)
  pure ⟨use.node, use.span, ← use.function⟩

/-- The innermost method call around a place that is not on its name. -/
def enclosingMethod? (i : Index) (line column : Nat) : Option Enclosing := do
  let use ← (i.knownMethodCallAt line column).filter (!·.nameSpan.contains line column)
  pure ⟨use.node, use.span, ← use.methods.head?⟩

/-- The innermost call around a place. -/
def enclosing? (i : Index) (line column : Nat) : Option Enclosing :=
  match enclosingCall? i line column, enclosingMethod? i line column with
  | some f, some m => some (if m.span.length < f.span.length then m else f)
  | f, m => f.or m

/-- The keyword arguments that the call around a place still lacks. -/
def keywordItems (view : FileView) (line column : Nat) (word : List Char) :
    List CompletionItem :=
  match enclosing? view.analysis.index line column with
  | none => []
  | some call =>
    let used := ((view.source.root.find? call.node).map fun t =>
      t.keywordArgs.map Prod.fst).getD []
    (call.function.keywords.filter fun k => !used.contains k.name && goesOn word k.name).map
      fun k =>
        { label := k.name, kind := .keywordArgument, detail := some k.types.display
          insertText := some (k.name ++ ": ") }

/-- The functions that start with a word. -/
def functionItems (c : Catalog) (word : List Char) : List CompletionItem :=
  (c.functions.filter fun f => goesOn word f.name).map fun f =>
    { label := f.name, kind := .function, detail := some f.display }

/-- Whether a variable is bound before a place of a file. What is bound in
another file, or always there, is so everywhere. -/
def visible (b : Binding) (path : Path) (line column : Nat) : Bool :=
  b.origins.isEmpty
    || b.origins.any fun o => o.file != path.key || o.span.start.precedes line column

/-- The variables that start with a word, by name. -/
def variableItems (view : FileView) (path : Path) (line column : Nat) (word : List Char) :
    List CompletionItem :=
  let found := view.analysis.scope.bindings.filter fun (name, b) =>
    goesOn word name && visible b path line column
  (found.mergeSort fun a b => a.1 ≤ b.1).map fun (name, b) =>
    { label := name, kind := .variableName, detail := some b.types.display }

/-- The words of the language that start with a word. -/
def languageItems (word : List Char) : List CompletionItem :=
  (keywords.filter (goesOn word)).map fun k => { label := k, kind := .keyword }

/-- How the word before a place of a text may go on. The text is what the editor
shows for the file, and may be ahead of the project. -/
def items (p : Project) (c : Catalog) (path : Path) (text : String) (line column : Nat) :
    List CompletionItem :=
  match lineOf? text line with
  | none => []
  | some cs =>
    let before := Before.of cs column
    let view := p.view? path
    match receiver? before.rest with
    -- The index tells what the text was like at the last rebuild, which is enough
    -- as long as the receiver has not changed.
    | some receiver =>
      (view.map fun v =>
        methodItems c (receiverTypes v.analysis.index line (units receiver)) before.word).getD []
    | none =>
      (view.map fun v => keywordItems v line column before.word).getD []
        ++ functionItems c before.word
        ++ (view.map fun v => variableItems v path line column before.word).getD []
        ++ languageItems before.word

end Completion

end MesonLens
