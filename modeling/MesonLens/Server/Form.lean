import MesonLens.Server.Schema

/-!
# `MesonLens.Server.Form`: forms of what editors speak about

Editors speak about documents, places in them, edits and problems. This module
holds the forms of these, and of the parameters that methods take.
-/

set_option autoImplicit false

namespace MesonLens.Form

open Schema

/-! ### Places and documents -/

/-- A line and a column. -/
def position : Schema := record [need "line" ordinal, need "character" ordinal]

/-- A stretch of a text. -/
def range : Schema := record [need "start" position, need "end" position]

/-- A stretch of a document. -/
def location : Schema := record [need "uri" url, need "range" range]

/-- A document. -/
def document : Schema := record [need "uri" url]

/-- A document in some version. -/
def versioned : Schema := record [need "uri" url, need "version" integer]

/-- A document that is shown. -/
def shown : Schema :=
  record [need "uri" url, need "languageId" text, need "version" integer, need "text" text]

/-- A folder of a workspace. -/
def folder : Schema := record [need "uri" url, need "name" text]

/-! ### Edits -/

/-- A change of a text. -/
def edit : Schema := record [need "range" range, need "newText" text]

/-- A command that the user can give. -/
def command : Schema :=
  record [need "title" text, need "command" text, opt "arguments" (list any)]

/-- The kinds of text with markup. -/
def markupKind : Schema := word ["plaintext", "markdown"]

/-- A text with markup. -/
def markup : Schema := record [need "kind" markupKind, need "value" text]

/-- A text that may have markup. -/
def prose : Schema := oneOf [text, markup]

/-- A number or a text. -/
def numberOrText : Schema := oneOf [integer, text]

/-- A change of a document, with a note or without. -/
def notedEdit : Schema :=
  oneOf [edit, parts [need "range" range, need "newText" text, need "annotationId" text]]

/-- Changes of one document. -/
def documentEdit : Schema :=
  record
    [need "textDocument" (record [need "uri" url, opt "version" integer]),
      need "edits" (list notedEdit)]

/-- How a file is put in the place of another. -/
def overwriting : Schema := record (opts ["overwrite", "ignoreIfExists"] bool)

/-- A file that is made, renamed or removed. -/
def fileChange : Schema :=
  tagged "kind"
    [("create", record [need "uri" url, opt "options" overwriting, opt "annotationId" text]),
      ("rename",
        record
          [need "oldUri" url, need "newUri" url, opt "options" overwriting,
            opt "annotationId" text]),
      ("delete",
        record
          [need "uri" url,
            opt "options"
              (record
                [opt "recursive" bool, opt "ignoreIfNotExists" bool,
                  opt "annotationId" text])])]

/-- Changes of a workspace. -/
def workspaceEdit : Schema :=
  record
    [free "changes" (table true (list edit)),
      opt "documentChanges"
        (oneOf [list documentEdit, list (oneOf [fileChange, documentEdit])]),
      opt "changeAnnotations"
        (table false
          (record
            [need "label" text, opt "needsConfirmation" bool, opt "description" text]))]

/-- A problem in a text. -/
def diagnostic : Schema :=
  record
    [need "range" range, opt "severity" integer, opt "code" numberOrText,
      opt "codeDescription" (record [need "href" url]), opt "source" text,
      need "message" text,
      opt "relatedInformation" (list (record [need "location" location, need "message" text])),
      opt "tags" (list integer), opt "data" any]

/-! ### Parts of parameters -/

/-- What names the progress of a request. -/
def progress : List (String × Presence × Schema) := [opt "workDoneToken" numberOrText]

/-- What names the progress of a request and of its answers. -/
def piecemeal : List (String × Presence × Schema) :=
  progress ++ [opt "partialResultToken" numberOrText]

/-- A document among the parameters. -/
def inDocument : List (String × Presence × Schema) := [need "textDocument" document]

/-- A document and a place in it among the parameters. -/
def atPlace : List (String × Presence × Schema) := inDocument ++ [need "position" position]

/-- A document and a stretch of it among the parameters. -/
def atRange : List (String × Presence × Schema) := inDocument ++ [need "range" range]

/-- How a text is to be laid out. There may be other choices than the known. -/
def layout : Schema :=
  loose
    ([need "tabSize" ordinal, need "insertSpaces" bool]
      ++ opts ["trimTrailingWhitespace", "insertFinalNewline", "trimFinalNewlines"] bool)
    (oneOf [bool, integer, text])

/-! ### Parameters of messages -/

/-- Parameters without fields. -/
def nothing : Schema := record []

/-- The parameters when a document is shown. -/
def opening : Schema := record [need "textDocument" shown]

/-- The parameters when a document has changed. -/
def changing : Schema :=
  record
    [need "textDocument" versioned,
      need "contentChanges"
        (list (record [opt "range" range, opt "rangeLength" ordinal, need "text" text]))]

/-- The parameters when a document has been saved. -/
def saving : Schema := record [need "textDocument" document, opt "text" text]

/-- The parameters when a document is going to be saved. -/
def beforeSaving : Schema := record [need "textDocument" document, need "reason" integer]

/-- The parameters when a document is no longer shown. -/
def closing : Schema := record inDocument

/-- The parameters when settings have changed. -/
def settings : Schema := record [need "settings" any]

/-- The parameters when files come or go. -/
def files : Schema := record [need "files" (list (record [need "uri" text]))]

/-- The parameters when files get other names. -/
def renamedFiles : Schema :=
  record [need "files" (list (record [need "oldUri" text, need "newUri" text]))]

/-! ### Parameters of requests -/

/-- A request about a document. -/
def ofDocument : Schema := parts (inDocument ++ piecemeal)

/-- A request about a place, whose answer comes at once. -/
def ofPlace : Schema := parts (atPlace ++ progress)

/-- A request about a place, whose answer may come in parts. -/
def ofPlaceInParts : Schema := parts (atPlace ++ piecemeal)

/-- A request about the uses of a name. -/
def ofUses : Schema :=
  parts (atPlace ++ piecemeal ++ [need "context" (record [need "includeDeclaration" bool])])

/-- A request about how a word may go on. -/
def ofCompletion : Schema :=
  parts
    (atPlace ++ piecemeal
      ++ [opt "context" (record [need "triggerKind" integer, opt "triggerCharacter" text])])

/-- A request about hints in a stretch. -/
def ofHints : Schema := parts (atRange ++ progress)

/-- A request about what can be done in a stretch. -/
def ofActions : Schema :=
  parts
    (atRange ++ piecemeal
      ++ [need "context"
        (record
          [need "diagnostics" (list diagnostic), opt "only" (list text),
            opt "triggerKind" integer])])

/-- A request to lay a document out. -/
def ofLayout : Schema := parts (inDocument ++ progress ++ [need "options" layout])

/-- A request to lay a stretch out. -/
def ofRangeLayout : Schema := parts (atRange ++ progress ++ [need "options" layout])

/-- A request to lay out what is being written. -/
def ofTypingLayout : Schema := parts (atPlace ++ [need "ch" text, need "options" layout])

/-- A thing that calls or is called. -/
def callItem : Schema :=
  record
    [need "name" text, need "kind" integer, opt "tags" (list integer), opt "detail" text,
      need "uri" url, need "range" range, need "selectionRange" range, opt "data" any]

/-- A type with types above and below it. -/
def typeItem : Schema :=
  record
    [need "name" text, need "kind" integer, opt "tags" integer, opt "detail" text,
      need "uri" url, need "range" range, need "selectionRange" range, opt "data" any]

/-- A request about what calls or is called. -/
def ofCalls : Schema := parts (need "item" callItem :: piecemeal)

/-- A request about the types above or below one. -/
def ofTypes : Schema := parts (need "item" typeItem :: piecemeal)

/-- A link in a document. -/
def link : Schema :=
  record [need "range" range, opt "target" url, opt "tooltip" text, opt "data" any]

/-- A command above a stretch. -/
def lens : Schema := record [need "range" range, opt "command" command, opt "data" any]

/-- A piece of the label of a hint. -/
def labelPart : Schema :=
  record
    [need "value" text, opt "tooltip" prose, opt "location" location, opt "command" command]

/-- A hint. -/
def hint : Schema :=
  record
    [need "position" position, need "label" (oneOf [text, list labelPart]),
      opt "kind" integer, opt "textEdits" (list edit), opt "tooltip" prose,
      opt "paddingLeft" bool, opt "paddingRight" bool, opt "data" any]

/-- A change that puts a text in, or in the place of a stretch. -/
def insertReplace : Schema :=
  record [need "newText" text, need "insert" range, need "replace" range]

/-- A way in which a word may go on. -/
def completionItem : Schema :=
  record
    [need "label" text, opt "labelDetails" (record (opts ["detail", "description"] text)),
      opt "kind" integer, opt "detail" text, opt "documentation" prose,
      opt "deprecated" bool, opt "preselect" bool, opt "sortText" text,
      opt "filterText" text, opt "insertText" text, opt "insertTextFormat" integer,
      opt "insertTextMode" integer, opt "textEdit" (oneOf [edit, insertReplace]),
      opt "additionalTextEdits" (list edit), opt "command" command,
      opt "commitCharacters" (list text), opt "data" any, opt "tags" (list integer)]

/-- Something that can be done. -/
def codeAction : Schema :=
  record
    [need "title" text, opt "kind" text, opt "diagnostics" (list diagnostic),
      opt "edit" workspaceEdit, opt "command" command, opt "isPreferred" bool,
      opt "disabled" (record [need "reason" text]), opt "data" any]

/-- A name of the workspace. -/
def workspaceSymbol : Schema :=
  record
    [need "name" text, need "kind" integer, opt "tags" (list integer),
      opt "containerName" text, need "location" (oneOf [location, document]),
      opt "data" any]

/-- A parameter of a function whose use is being written. -/
def signatureParameter : Schema :=
  record [need "label" (oneOf [text, tuple [ordinal, ordinal]]), opt "documentation" prose]

/-- A function whose use is being written. -/
def signature : Schema :=
  record
    [need "label" text, opt "documentation" prose,
      opt "parameters" (list signatureParameter), opt "activeParameter" ordinal]

/-- What is known about functions whose use is being written. -/
def signatureHelp : Schema :=
  record
    [need "signatures" (list signature), opt "activeSignature" ordinal,
      opt "activeParameter" ordinal]

/-- A request about the function whose use is being written. -/
def ofSignature : Schema :=
  parts
    (opt "context"
      (record
        [need "triggerKind" integer, opt "triggerCharacter" text, need "isRetrigger" bool,
          opt "activeSignatureHelp" signatureHelp])
      :: atPlace ++ progress)

/-- A colour by its shares. -/
def colour : Schema :=
  record
    [need "red" number, need "green" number, need "blue" number, need "alpha" number]

/-- A request about values that stand in a stretch. -/
def ofInlineValues : Schema :=
  parts
    (atRange ++ progress
      ++ [need "context" (record [need "frameId" integer, need "stoppedLocation" range])])

/-- A request about the problems of a document. -/
def ofProblems : Schema :=
  parts (inDocument ++ piecemeal ++ opts ["identifier", "previousResultId"] text)

/-- A request about the problems of a workspace. -/
def ofAllProblems : Schema :=
  parts
    (opt "identifier" text
      :: need "previousResultIds" (list (record [need "uri" url, need "value" text]))
      :: piecemeal)

end MesonLens.Form
