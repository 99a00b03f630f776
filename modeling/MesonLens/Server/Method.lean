import MesonLens.Server.ClientForm
import MesonLens.Server.Form

/-!
# `MesonLens.Server.Method`: what an editor can say

An editor names what it says by a method. Some methods ask for an answer, others
only tell of something; each has a form for its parameters.

* `Method.ofName?`: the method of a name;
* `Method.tells`: whether it asks for no answer;
* `Method.form`: the form of its parameters.
-/

set_option autoImplicit false

namespace MesonLens

/-- The methods that have a meaning here. -/
inductive Method where
  | start | started | shutdown | exit | cancel
  | didChangeConfiguration | didOpen | didChange | didSave | didClose | didCreateFiles
  | didDeleteFiles
  | hover | completion | definition | symbols | highlights | tokens | hints | actions | folds
  | formatting
  /-- A request that is known and has no answer. -/
  | unanswered (form : Schema)
  /-- A message that is known and passed over. -/
  | passedOver
  deriving Repr

namespace Method

open Schema Form

/-- Requests about documents that are known and have no answer, with the forms of
their parameters. -/
def unansweredInDocuments : List (String × Schema) :=
  [("textDocument/typeDefinition", ofPlaceInParts),
    ("textDocument/implementation", ofPlaceInParts),
    ("textDocument/references", ofUses),
    ("textDocument/prepareCallHierarchy", ofPlace),
    ("textDocument/prepareTypeHierarchy", ofPlace),
    ("textDocument/documentLink", ofDocument),
    ("textDocument/codeLens", ofDocument),
    ("textDocument/selectionRange",
      parts (inDocument ++ piecemeal ++ [need "positions" (list position)])),
    ("textDocument/semanticTokens/full/delta",
      parts (inDocument ++ piecemeal ++ [need "previousResultId" text])),
    ("textDocument/semanticTokens/range", parts (atRange ++ piecemeal)),
    ("textDocument/inlineValue", ofInlineValues),
    ("textDocument/moniker", ofPlaceInParts),
    ("textDocument/diagnostic", ofProblems),
    ("textDocument/signatureHelp", ofSignature),
    ("textDocument/documentColor", ofDocument),
    ("textDocument/colorPresentation", parts (atRange ++ piecemeal ++ [need "color" colour])),
    ("textDocument/rangeFormatting", ofRangeLayout),
    ("textDocument/onTypeFormatting", ofTypingLayout),
    ("textDocument/rename", parts (atPlace ++ progress ++ [need "newName" text])),
    ("textDocument/prepareRename", record atPlace),
    ("textDocument/linkedEditingRange", ofPlace),
    ("textDocument/willSaveWaitUntil", beforeSaving)]

/-- Other requests that are known and have no answer, with the forms of their
parameters. -/
def unansweredElsewhere : List (String × Schema) :=
  [("callHierarchy/incomingCalls", ofCalls),
    ("callHierarchy/outgoingCalls", ofCalls),
    ("typeHierarchy/supertypes", ofTypes),
    ("typeHierarchy/subtypes", ofTypes),
    ("documentLink/resolve", link),
    ("codeLens/resolve", lens),
    ("inlayHint/resolve", hint),
    ("completionItem/resolve", completionItem),
    ("codeAction/resolve", codeAction),
    ("workspaceSymbol/resolve", workspaceSymbol),
    ("workspace/diagnostic", ofAllProblems),
    ("workspace/symbol", parts (need "query" text :: piecemeal)),
    ("workspace/willCreateFiles", files),
    ("workspace/willRenameFiles", renamedFiles),
    ("workspace/willDeleteFiles", files),
    ("workspace/executeCommand",
      parts (need "command" text :: ("arguments", .defaulted, list any) :: progress))]

/-- Messages that are known and passed over. -/
def passedOverNames : List String :=
  ["textDocument/willSave", "workspace/didChangeWorkspaceFolders", "workspace/didRenameFiles",
    "workspace/didChangeWatchedFiles"]

/-- The methods with a meaning of their own. -/
def named? : String → Option Method
  | "initialize" => some start
  | "initialized" => some started
  | "shutdown" => some shutdown
  | "exit" => some exit
  | "$/cancelRequest" => some cancel
  | "workspace/didChangeConfiguration" => some didChangeConfiguration
  | "textDocument/didOpen" => some didOpen
  | "textDocument/didChange" => some didChange
  | "textDocument/didSave" => some didSave
  | "textDocument/didClose" => some didClose
  | "workspace/didCreateFiles" => some didCreateFiles
  | "workspace/didDeleteFiles" => some didDeleteFiles
  | "textDocument/hover" => some hover
  | "textDocument/completion" => some completion
  | "textDocument/definition" | "textDocument/declaration" => some definition
  | "textDocument/documentSymbol" => some symbols
  | "textDocument/documentHighlight" => some highlights
  | "textDocument/semanticTokens/full" => some tokens
  | "textDocument/inlayHint" => some hints
  | "textDocument/codeAction" => some actions
  | "textDocument/foldingRange" => some folds
  | "textDocument/formatting" => some formatting
  | _ => none

/-- The method of a name. -/
def ofName? (name : String) : Option Method :=
  (named? name).or <|
    ((unansweredInDocuments ++ unansweredElsewhere).lookup name).map unanswered |>.or <|
      if passedOverNames.contains name then some passedOver else none

/-- Whether a name that no method has may be passed over without an answer. -/
def isOptional (name : String) : Bool := name.toList.take 2 = ['$', '/']

/-- Whether the editor only tells of something, and wants no answer. -/
def tells : Method → Bool
  | started | exit | cancel | didChangeConfiguration | didOpen | didChange | didSave | didClose
  | didCreateFiles | didDeleteFiles | passedOver => true
  | _ => false

/-- The form of the parameters. -/
def form : Method → Schema
  | start => Form.start
  | started => Form.nothing
  | didChangeConfiguration => Form.settings
  | didOpen => Form.opening
  | didChange => Form.changing
  | didSave => Form.saving
  | didClose => Form.closing
  | didCreateFiles | didDeleteFiles => Form.files
  | hover => Form.ofPlace
  | completion => Form.ofCompletion
  | definition | highlights => Form.ofPlaceInParts
  | symbols | tokens | folds => Form.ofDocument
  | hints => Form.ofHints
  | actions => Form.ofActions
  | formatting => Form.ofLayout
  | unanswered form => form
  | shutdown | exit | cancel | passedOver => .any

end Method

end MesonLens
