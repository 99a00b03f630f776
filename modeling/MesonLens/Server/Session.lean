import MesonLens.Editor.Encoding
import MesonLens.Editor.Formatting
import MesonLens.Server.Message
import MesonLens.Server.Settings
import MesonLens.Workspace.Rebuild

/-!
# `MesonLens.Server.Session`: a conversation with an editor

A session keeps the documents that the editor shows, the settings and the
workspace. `Session.receive` takes a message of the editor; a message that
changes files leaves a rebuild waiting, and `Session.settle` carries the waiting
rebuilds out.

* `Session.receive`: what a message does, and the answer to it;
* `Session.settle`: what the rebuilds publish.
-/

set_option autoImplicit false

namespace MesonLens

/-- A message to the editor. -/
structure Outgoing where
  method : String
  params : Value
  deriving Repr

/-- What the editor answers when it is asked for settings. -/
inductive SettingsAnswer where
  | refused
  | sections (items : List Value)
  deriving Repr

/-- What a session sees of the world. -/
structure Environment where
  disk : Disk
  catalog : Catalog
  settings : SettingsAnswer
  /-- Runs a program on a text. -/
  run : Command → String → ProgramRun

/-- How far a session has come. -/
inductive Lifecycle where
  | starting | running | stopped
  /-- The editor has left, and nothing is answered. -/
  | ended
  deriving DecidableEq, Repr

/-- A conversation with an editor. -/
structure Session where
  lifecycle : Lifecycle := .starting
  settings : Settings := {}
  /-- The texts of the documents that the editor shows. -/
  documents : List (Url × String) := []
  workspace : Option Workspace := none
  /-- The generations for which a rebuild waits. -/
  waiting : List Nat := []

/-- What handling a message leads to. -/
structure Handled where
  session : Session
  /-- The answer, null when there is none. -/
  result : Value := .null
  sent : List Outgoing := []

/-! ### Values that are sent -/

/-- The number of a weight. -/
def Severity.code : Severity → Nat
  | error => 1
  | warning => 2

/-- A problem as a value. -/
def Diagnostic.encode (d : Diagnostic) : Value :=
  .object
    [("range", d.span.range.encode), ("severity", .nat d.severity.code),
      ("source", .string "meson"), ("message", .string d.message)]

namespace Outgoing

/-- Shows the problems of a file; nothing for a file without an address. -/
def diagnostics? (p : Path) (ds : List Diagnostic) : Option Outgoing :=
  (Url.ofPath? p).map fun url =>
    ⟨"textDocument/publishDiagnostics",
      .object [("uri", .string url.display), ("diagnostics", .array (ds.map Diagnostic.encode))]⟩

/-- What a rebuild tells the editor. -/
def ofNotice? : Notice → Option Outgoing
  | .publish p ds => diagnostics? p ds
  | .finished .. => none

/-- A line for the log. -/
def log (text : String) : Outgoing :=
  ⟨"window/logMessage", .object [("type", .nat 3), ("message", .string text)]⟩

/-- A warning for the user. -/
def warn (text : String) : Outgoing :=
  ⟨"window/showMessage", .object [("type", .nat 2), ("message", .string text)]⟩

/-- Asks for the settings. -/
def askSettings : Outgoing :=
  ⟨"workspace/configuration",
    .object [("items", .array [.object [("section", .string "mesonlsp")]])]⟩

end Outgoing

/-- The files about which the editor is to tell when they come and go. -/
def fileFilter : Value :=
  .object
    [("filters", .array
      [.object
        [("scheme", .string "file"),
          ("pattern",
            .object [("glob", .string "**/meson.build"), ("matches", .string "file")])]])]

/-- What the server can do. -/
def capabilities : Value :=
  .object
    [("textDocumentSync",
        .object [("openClose", .bool true), ("change", .nat 2), ("save", .bool true)]),
      ("hoverProvider", .bool true),
      ("completionProvider",
        .object
          [("resolveProvider", .bool false), ("triggerCharacters", .array [.string "."])]),
      ("definitionProvider", .bool true),
      ("declarationProvider", .bool true),
      ("documentSymbolProvider", .bool true),
      ("documentHighlightProvider", .bool true),
      ("semanticTokensProvider",
        .object [("legend", SemanticToken.legend), ("full", .bool true)]),
      ("inlayHintProvider", .bool true),
      ("codeActionProvider",
        .object [("codeActionKinds", .array [.string CodeAction.kind])]),
      ("foldingRangeProvider", .bool true),
      ("documentFormattingProvider", .bool true),
      ("workspace",
        .object
          [("fileOperations",
            .object [("didCreate", fileFilter), ("didDelete", fileFilter)])])]

/-- What the server says about itself at the start. -/
def greeting : Value :=
  .object
    [("capabilities", capabilities),
      ("serverInfo",
        .object
          [("name", .string "Meson Language Server"), ("version", .string "0.1.0")])]

namespace Session

/-! ### Documents and files -/

/-- The text of a document that the editor shows. -/
def text? (s : Session) (url : Url) : Option String := s.documents.lookup url

/-- Shows a document with a text. -/
def showDocument (s : Session) (url : Url) (text : String) : Session :=
  { s with documents := (url, text) :: s.documents.filter (·.1 ≠ url) }

/-- A document is no longer shown. -/
def hide (s : Session) (url : Url) : Session :=
  { s with documents := s.documents.filter (·.1 ≠ url) }

/-- Passes a change on to the workspace, and lets a rebuild wait. -/
def send (s : Session) (signal : Signal) : Session :=
  match s.workspace with
  | none => s
  | some w =>
    let w := w.apply signal
    { s with workspace := some w, waiting := s.waiting ++ [w.generation] }

/-- Passes a change of a document on, if the document is a file. -/
def sendFor (s : Session) (url : Url) (signal : Path → Signal) : Session :=
  match url.toPath? with
  | some p => s.send (signal p)
  | none => s

/-- The project, and the path of a document. -/
def view? (s : Session) (url : Url) : Option (Project × Path) := do
  let path ← url.toPath?
  let w ← s.workspace
  pure (← w.project, path)

/-! ### Settings -/

/-- The section that the editor answers with, if it is one. -/
def givenSection? : SettingsAnswer → Option Section
  | .refused => none
  | .sections items =>
    match items.head? with
    | none | some .null => none
    | some v => Section.decode? v

/-- Asks the editor for settings, and overlays what it answers. -/
def loadSettings (s : Session) (env : Environment) : Session :=
  match givenSection? env.settings with
  | none => s
  | some given =>
    let settings := s.settings.apply given
    { s with settings, workspace := s.workspace.map (·.configure settings.rebuildOptions) }

/-! ### Answers -/

/-- The answer from the project, null when there is none. -/
def answer (s : Session) (url : Url) (f : Project → Path → Value) : Value :=
  match s.view? url with
  | some (p, path) => f p path
  | none => .null

/-- Values in order. -/
def values {α : Type} (encode : α → Value) (xs : List α) : Value := .array (xs.map encode)

/-- How the word at a place may go on. The text is what the editor shows, or what
the file holds when the editor does not show it. -/
def complete (s : Session) (env : Environment) (url : Url) (place : Place) : Value :=
  match s.view? url, s.workspace with
  | some (p, path), some w =>
    match (s.text? url).or (w.source.read env.disk path).toOption with
    | some text =>
      values CompletionItem.encode
        (Completion.items p env.catalog path text place.line place.column)
    | none => .null
  | _, _ => .null

/-- The uses of the variable at a place, null when there are none. -/
def highlight (p : Project) (path : Path) (place : Place) : Value :=
  match Highlight.all p path place.line place.column with
  | [] => .null
  | found => values Highlight.encode found

/-- Lays a document out anew. The user is told about a failure. -/
def format (s : Session) (env : Environment) (url : Url) : Handled :=
  match s.text? url with
  | none => ⟨s, .null, []⟩
  | some text =>
    let command := s.settings.formatter
    match (command.runBy env.run text).formatted command.program with
    | .ok formatted =>
      ⟨s, ((formatEdits text formatted).map (values TextEdit.encode)).getD .null, []⟩
    | .error e => ⟨s, .null, [.warn ("Formatting failed: " ++ e.message)]⟩

/-- The session after some files are gone. -/
def dropFiles (s : Session) (paths : List Path) : Session :=
  let s := (paths.filterMap Url.ofPath?).foldl hide s
  if paths.isEmpty then s else s.send (.deleted paths)

/-- What a message does, and the answer to it. -/
def handle (s : Session) (env : Environment) : Message → Handled
  | .started =>
    { session := (s.loadSettings env).send .reload
      sent := [.log "Meson Language Server started", .askSettings] }
  | .settingsChanged => { session := s.loadSettings env, sent := [.askSettings] }
  | .opened url text => { session := (s.showDocument url text).sendFor url (.opened · text) }
  | .changed url changes =>
    -- A document that is not shown yet starts out empty.
    let text := changes.foldl Buffer.apply ((s.text? url).getD "")
    { session := (s.showDocument url text).sendFor url (.changed · text) }
  | .saved url => { session := s.sendFor url .saved }
  | .closed url => { session := (s.hide url).sendFor url .closed }
  | .created paths => { session := if paths.isEmpty then s else s.send (.created paths) }
  | .deleted paths => { session := s.dropFiles paths }
  | .hover url place =>
    ⟨s, s.answer url fun p path =>
      ((Hover.at? p path place.line place.column fun _ => none).map Hover.encode).getD .null, []⟩
  | .completion url place => ⟨s, s.complete env url place, []⟩
  | .definition url place =>
    ⟨s, s.answer url fun p path =>
      ((Definition.at? p path place.line place.column).bind Definition.encode?).getD .null, []⟩
  | .symbols url =>
    ⟨s, s.answer url fun p path => values DocumentSymbol.encode (DocumentSymbol.all p path), []⟩
  | .highlights url place => ⟨s, s.answer url fun p path => highlight p path place, []⟩
  | .tokens url =>
    ⟨s, s.answer url fun p path =>
      .object [("data", .array ((SemanticToken.all p path).flatMap TokenDelta.numbers))], []⟩
  | .hints url range =>
    match s.settings.hintOptions? with
    | none => ⟨s, .null, []⟩
    | some options =>
      ⟨s, s.answer url fun p path =>
        values InlayHint.encode (InlayHint.all p path range options), []⟩
  | .actions url range =>
    ⟨s, s.answer url fun p path =>
      values (CodeAction.encode url)
        (CodeAction.all p path range.start.line range.start.column), []⟩
  | .folds url =>
    ⟨s, s.answer url fun p path => values FoldingRange.encode (FoldingRange.all p path), []⟩
  | .formatting url => s.format env url
  | .passedOver => ⟨s, .null, []⟩

/-! ### The course of a session -/

/-- The session of a project at its start. -/
def begin (s : Session) (root : Option Path) : Session :=
  { s with
    lifecycle := .running
    workspace := root.map fun dir => Workspace.ofRoot dir s.settings.rebuildOptions }

/-- What a message outside of the running session is refused with. -/
def refusal (s : Session) : RequestError :=
  if s.lifecycle = .starting then .notInitialized else .invalidRequest

/-- What a message leads to: the session after it, the answer if it is a request
that has one, and what is sent besides. -/
structure Received where
  session : Session
  reply : Option (Except RequestError Value) := none
  sent : List Outgoing := []

/-- A message that is refused. Only a request is answered. -/
def refuse (s : Session) (request : Bool) (e : RequestError) : Received :=
  { session := s, reply := if request then some (.error e) else none }

/-- A message while the session runs. A message that asks for an answer where
there is none to give is refused; a request that comes as a mere message is passed
over. -/
def converse (s : Session) (env : Environment) (method : Method) (params : Value)
    (request : Bool) : Received :=
  if request && method.tells then s.refuse request .invalidRequest
  else if !request && !method.tells then { session := s }
  else
    match method with
    | .unanswered form =>
      s.refuse request
        (if (form.read? params).isSome then .methodNotFound else .invalidParams)
    | method =>
      match Message.decode? method params with
      | none => s.refuse request .invalidParams
      | some m =>
        let done := s.handle env m
        { session := done.session
          reply := if request then some (.ok done.result) else none
          sent := done.sent }

/-- A message by which the session starts. -/
def start (s : Session) (params : Option Value) (request : Bool) : Received :=
  if s.lifecycle ≠ .starting then s.refuse request .invalidRequest
  else if !request then { session := s }
  else
    match params.bind (Method.form .start).read? with
    | none => s.refuse request .invalidParams
    | some params =>
      { session := s.begin (Message.root? params), reply := some (.ok greeting) }

/-- A message by which the session stops. It does so even when the message is
malformed. -/
def stop (s : Session) (params : Option Value) (request : Bool) : Received :=
  if s.lifecycle ≠ .running then s.refuse request s.refusal
  else
    let stopped := { s with lifecycle := .stopped }
    if params.isSome then stopped.refuse request .invalidParams
    else { session := stopped, reply := if request then some (.ok .null) else none }

/-- Takes a message of the editor. -/
def receive (s : Session) (env : Environment) (name : String) (params : Option Value)
    (request : Bool) : Received :=
  if s.lifecycle = .ended then { session := s }
  else
    match Method.ofName? name with
    -- An unknown method is refused as such even before the start.
    | none =>
      if Method.isOptional name then { session := s } else s.refuse request .methodNotFound
    | some .start => s.start params request
    | some .shutdown => s.stop params request
    | some .exit => { session := { s with lifecycle := .ended, waiting := [] } }
    | some .cancel => if request then s.refuse request .invalidRequest else { session := s }
    | some method =>
      if s.lifecycle ≠ .running then s.refuse request s.refusal
      else s.converse env method (params.getD .null) request

/-- Carries out one waiting rebuild. -/
def rebuild (s : Session) (env : Environment) (generation : Nat) : Session × List Outgoing :=
  match s.workspace with
  | none => (s, [])
  | some w =>
    let (w, notices) := Attempt.run env.disk env.catalog w generation
    ({ s with workspace := some w }, notices.filterMap Outgoing.ofNotice?)

/-- Carries out rebuilds in turn. -/
def rebuildAll (s : Session) (env : Environment) : List Nat → Session × List Outgoing
  | [] => (s, [])
  | g :: generations =>
    let (s, first) := s.rebuild env g
    let (s, rest) := s.rebuildAll env generations
    (s, first ++ rest)

/-- Carries out the waiting rebuilds. -/
def settle (s : Session) (env : Environment) : Session × List Outgoing :=
  { s with waiting := [] }.rebuildAll env s.waiting

end Session

end MesonLens
