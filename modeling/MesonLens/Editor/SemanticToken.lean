import MesonLens.Editor.NameRole
import MesonLens.Project.Basic

/-!
# `MesonLens.Editor.SemanticToken`: the words of a file by their meaning

An editor colours words by what they mean. The words of a file are listed in
text order, and sent with each place told from the word before.

* `SemanticToken.ofSource`: the words of a file;
* `SemanticToken.encode`: the list that is sent.
-/

set_option autoImplicit false

namespace MesonLens

/-- What a word is. -/
inductive WordKind where
  | function | method | variableName | parameter | string | number | keyword
  deriving DecidableEq, Repr

namespace WordKind

/-- The kinds in the order of their numbers. -/
def all : List WordKind := [function, method, variableName, parameter, string, number, keyword]

/-- The name of a kind. -/
def display : WordKind → String
  | function => "function"
  | method => "method"
  | variableName => "variable"
  | parameter => "parameter"
  | string => "string"
  | number => "number"
  | keyword => "keyword"

/-- The number of a kind. -/
def index : WordKind → Nat
  | function => 0
  | method => 1
  | variableName => 2
  | parameter => 3
  | string => 4
  | number => 5
  | keyword => 6

/-- The kind of a name. -/
def ofRole : NameRole → WordKind
  | .function => function
  | .method => method
  | .keyword => parameter
  | .binding | .reading => variableName

end WordKind

/-- A word on one line. -/
structure SemanticToken where
  line : Nat
  column : Nat
  length : Nat
  kind : WordKind
  /-- Whether a variable receives a value there. -/
  declares : Bool := false
  deriving DecidableEq, Repr

/-- A word as it is sent: lines from the word before, and columns too when both
are on one line. -/
structure TokenDelta where
  line : Nat
  column : Nat
  length : Nat
  kind : Nat
  modifiers : Nat
  deriving DecidableEq, Repr

namespace SemanticToken

/-- A word that covers a stretch; nothing when the stretch is empty or goes over
a line end. -/
def of? (span : Span) (kind : WordKind) (declares : Bool) : Option SemanticToken :=
  if span.start.line = span.stop.line ∧ span.start.column < span.stop.column then
    some ⟨span.start.line, span.start.column, span.stop.column - span.start.column, kind, declares⟩
  else none

/-- The word of a node. -/
def ofNode? : Option (Tree Mark) × Tree Mark → Option SemanticToken
  | (parent, .identifier mark _) =>
    let role := NameRole.of parent mark.id
    of? mark.span (.ofRole role) (role = .binding)
  | (_, .string mark _ _ _) => of? mark.span .string false
  | (_, .integer mark _ _) => of? mark.span .number false
  | _ => none

/-- The word of a lexeme, if it is one of the language. -/
def ofLexeme? (l : Lexeme) : Option SemanticToken :=
  match l.token with
  | .boolean _ => of? l.span .keyword false
  | t => if t.isKeyword then of? l.span .keyword false else none

/-- The numbers that order words. -/
def sortKey (t : SemanticToken) : List Nat :=
  [t.line, t.column, t.length, t.kind.index, if t.declares then 1 else 0]

/-- Words by their places, and then by what they are. -/
def le (a b : SemanticToken) : Bool := (List.compareLex compare a.sortKey b.sortKey).isLE

/-- Drops the words that start where the word before them starts. -/
def dropRepeated : List SemanticToken → List SemanticToken
  | [] => []
  | [t] => [t]
  | t :: u :: rest =>
    if t.line = u.line ∧ t.column = u.column then dropRepeated (t :: rest)
    else t :: dropRepeated (u :: rest)

/-- The words of a file in text order, one at a place. -/
def ofSource (f : SourceFile) : List SemanticToken :=
  -- The words of the language are no nodes, so they are taken from the lexemes.
  let found := (f.root.family none).filterMap ofNode?
    ++ (Lexed.ofText f.text).lexemes.filterMap ofLexeme?
  dropRepeated (found.mergeSort le)

/-- Tells every place from the place before. -/
def encode (line column : Nat) : List SemanticToken → List TokenDelta
  | [] => []
  | t :: rest =>
    { line := t.line - line
      column := if t.line = line then t.column - column else t.column
      length := t.length
      kind := t.kind.index
      modifiers := if t.declares then 1 else 0 } :: encode t.line t.column rest

/-- The words of a file as they are sent. -/
def all (p : Project) (path : Path) : List TokenDelta :=
  ((p.source? path).map fun f => encode 0 0 (ofSource f)).getD []

end SemanticToken

end MesonLens
