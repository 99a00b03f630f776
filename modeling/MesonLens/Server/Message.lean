import MesonLens.Editor.Edit
import MesonLens.Files.Url
import MesonLens.Server.Method
import MesonLens.Text.Buffer
import MesonLens.Text.Value

/-!
# `MesonLens.Server.Message`: what an editor says

A message is a method and its parameters. What is said is read from parameters
that have the form of the method, so that only what matters is looked at.

* `Message`: what is said, `Message.decode?` reads it from the parameters;
* `Message.root?`: where the project is that an editor starts with;
* `RequestError`: why there is no answer.
-/

set_option autoImplicit false

namespace MesonLens

/-- Why a request has no answer. -/
inductive RequestError where
  | notInitialized
  | invalidRequest
  | methodNotFound
  | invalidParams
  deriving DecidableEq, Repr

/-- The number of an error. -/
def RequestError.code : RequestError → Int
  | notInitialized => -32002
  | invalidRequest => -32600
  | methodNotFound => -32601
  | invalidParams => -32602

/-- What an editor says while the server runs. -/
inductive Message where
  | started
  | settingsChanged
  | opened (url : Url) (text : String)
  | changed (url : Url) (changes : List Buffer.Change)
  | saved (url : Url)
  | closed (url : Url)
  | created (paths : List Path)
  | deleted (paths : List Path)
  | hover (url : Url) (place : Place)
  | completion (url : Url) (place : Place)
  | definition (url : Url) (place : Place)
  | symbols (url : Url)
  | highlights (url : Url) (place : Place)
  | tokens (url : Url)
  | hints (url : Url) (range : Range)
  | actions (url : Url) (range : Range)
  | folds (url : Url)
  | formatting (url : Url)
  | passedOver
  deriving Repr

namespace Message

/-! ### Parts of parameters -/

/-- A place. -/
def place? (v : Value) : Option Place := do
  pure ⟨← (← v.field? "line").nat?, ← (← v.field? "character").nat?⟩

/-- A stretch. -/
def range? (v : Value) : Option Range := do
  pure ⟨← place? (← v.field? "start"), ← place? (← v.field? "end")⟩

/-- An address. -/
def url? (v : Value) : Option Url := do
  Url.parse? (← v.string?)

/-- The address of the document that parameters are about. -/
def document? (v : Value) : Option Url := do
  url? (← (← v.field? "textDocument").field? "uri")

/-- The text of the document that parameters are about. -/
def documentText? (v : Value) : Option String := do
  (← (← v.field? "textDocument").field? "text").string?

/-- A change to a document. -/
def change? (v : Value) : Option Buffer.Change := do
  let text ← (← v.field? "text").string?
  match v.field? "range" with
  | none => pure ⟨none, text⟩
  | some r =>
    let r ← range? r
    pure ⟨some ⟨r.start.line, r.start.column, r.stop.line, r.stop.column⟩, text⟩

/-- The paths of the files that parameters list. What is no file is passed over. -/
def paths? (v : Value) : Option (List Path) := do
  let items ← (← v.field? "files").array?
  let uris ← items.mapM fun item => do (← item.field? "uri").string?
  pure (uris.filterMap fun uri => (Url.parse? uri).bind Url.toPath?)

/-- The directory of the project that an editor starts with: its first folder,
or else its root. -/
def root? (v : Value) : Option Path := do
  let folders := ((v.field? "workspaceFolders").bind Value.array?).getD []
  let root := folders.head?.elim (v.field? "rootUri") (·.field? "uri")
  (← url? (← root)).toPath?

/-- A message about a document. -/
def inDocument? (make : Url → Message) (v : Value) : Option Message :=
  (document? v).map make

/-- A message about a place in a document. -/
def atPlace? (make : Url → Place → Message) (v : Value) : Option Message := do
  pure (make (← document? v) (← place? (← v.field? "position")))

/-- A message about a stretch of a document. -/
def atRange? (make : Url → Range → Message) (v : Value) : Option Message := do
  pure (make (← document? v) (← range? (← v.field? "range")))

/-- Reads a message from parameters that have the form of the method. -/
def ofForm? (method : Method) (v : Value) : Option Message :=
  match method with
  | .started => some started
  | .didChangeConfiguration => some settingsChanged
  | .didOpen => do pure (opened (← document? v) (← documentText? v))
  | .didChange => do
    let changes ← (← v.field? "contentChanges").array?
    pure (changed (← document? v) (← changes.mapM change?))
  | .didSave => inDocument? saved v
  | .didClose => inDocument? closed v
  | .didCreateFiles => (paths? v).map created
  | .didDeleteFiles => (paths? v).map deleted
  | .hover => atPlace? hover v
  | .completion => atPlace? completion v
  | .definition => atPlace? definition v
  | .symbols => inDocument? symbols v
  | .highlights => atPlace? highlights v
  | .tokens => inDocument? tokens v
  | .hints => atRange? hints v
  | .actions => atRange? actions v
  | .folds => inDocument? folds v
  | .formatting => inDocument? formatting v
  | .passedOver => some passedOver
  | .start | .shutdown | .exit | .cancel | .unanswered _ => none

/-- Reads a message; nothing when the parameters do not have the form of the
method. -/
def decode? (method : Method) (params : Value) : Option Message :=
  (method.form.read? params).bind (ofForm? method)

end Message

end MesonLens
