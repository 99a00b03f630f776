import MesonLens.Server.Form

/-!
# `MesonLens.Server.ClientForm`: what an editor says about itself

At the start an editor tells what it can do, part by part. This module holds the
forms of these parts, and of the parameters of the start.
-/

set_option autoImplicit false

namespace MesonLens.Form

open Schema

/-- Whether an ability can come and go while the server runs. -/
def dynamic : String × Presence × Schema := opt "dynamicRegistration" bool

/-- An ability of which only that is told. -/
def ability : Schema := record [dynamic]

/-- An ability with further things that it may know. -/
def abilityWith (names : List String) : Schema := record (dynamic :: opts names bool)

/-- Whether an editor can be asked to ask anew. -/
def refresh : Schema := record [opt "refreshSupport" bool]

/-- Finding a place, perhaps as a link. -/
def goto : Schema := abilityWith ["linkSupport"]

/-- The names of what can be asked for later. -/
def resolve : String × Presence × Schema :=
  opt "resolveSupport" (record [need "properties" (list text)])

/-- The marks that an editor knows; older editors tell only whether they do. -/
def tagSupport : String × Presence × Schema :=
  free "tagSupport" (oneOf [bool, record [need "valueSet" (list integer)]])

/-- The kinds that an editor knows. -/
def kinds : Schema := record [opt "valueSet" (list integer)]

/-- What an editor can do with a workspace. -/
def workspaceAbilities : Schema :=
  record
    [opt "applyEdit" bool,
      opt "workspaceEdit"
        (record
          [opt "documentChanges" bool,
            opt "resourceOperations" (list (word ["create", "rename", "delete"])),
            opt "failureHandling"
              (word ["abort", "transactional", "textOnlyTransactional", "undo"]),
            opt "normalizesLineEndings" bool,
            opt "changeAnnotationSupport" (record [opt "groupsOnLabel" bool])]),
      opt "didChangeConfiguration" ability,
      opt "didChangeWatchedFiles" (abilityWith ["relativePatternSupport"]),
      opt "symbol" (record [dynamic, opt "symbolKind" kinds, tagSupport, resolve]),
      opt "executeCommand" ability,
      opt "workspaceFolders" bool,
      opt "configuration" bool,
      opt "semanticTokens" refresh,
      opt "codeLens" refresh,
      opt "fileOperations"
        (abilityWith
          ["didCreate", "willCreate", "didRename", "willRename", "didDelete", "willDelete"]),
      opt "inlineValue" refresh,
      opt "inlayHint" refresh,
      opt "diagnostic" refresh]

/-- What an editor can do with ways in which a word may go on. -/
def completionAbilities : Schema :=
  record
    [dynamic,
      opt "completionItem"
        (record
          [opt "snippetSupport" bool, opt "commitCharactersSupport" bool,
            opt "documentationFormat" (list markupKind), opt "deprecatedSupport" bool,
            opt "preselectSupport" bool, tagSupport, opt "insertReplaceSupport" bool, resolve,
            opt "insertTextModeSupport" (record [need "valueSet" (list integer)]),
            opt "labelDetailsSupport" bool]),
      opt "completionItemKind" kinds,
      opt "contextSupport" bool,
      opt "insertTextMode" integer,
      opt "completionList" (record [opt "itemDefaults" (list text)])]

/-- What an editor can do with the function whose use is being written. -/
def signatureAbilities : Schema :=
  record
    [dynamic,
      opt "signatureInformation"
        (record
          [opt "documentationFormat" (list markupKind),
            opt "parameterInformation" (record [opt "labelOffsetSupport" bool]),
            opt "activeParameterSupport" bool]),
      opt "contextSupport" bool]

/-- What an editor can do with actions. -/
def actionAbilities : Schema :=
  record
    ([dynamic,
      opt "codeActionLiteralSupport"
        (record [need "codeActionKind" (record [need "valueSet" (list text)])])]
      ++ opts ["isPreferredSupport", "disabledSupport", "dataSupport"] bool
      ++ [resolve, opt "honorsChangeAnnotations" bool])

/-- What an editor can do with folds. -/
def foldAbilities : Schema :=
  record
    [dynamic, opt "rangeLimit" ordinal, opt "lineFoldingOnly" bool,
      opt "foldingRangeKind"
        (record [opt "valueSet" (list (word ["comment", "imports", "region"]))]),
      opt "foldingRange" (record [opt "collapsedText" bool])]

/-- What an editor can do with the words of a document. -/
def tokenAbilities : Schema :=
  record
    ([dynamic,
      need "requests"
        (record
          [opt "range" bool, opt "full" (oneOf [bool, record [opt "delta" bool]])]),
      need "tokenTypes" (list text), need "tokenModifiers" (list text),
      need "formats" (list text)]
      ++ opts
        ["overlappingTokenSupport", "multilineTokenSupport", "serverCancelSupport",
          "augmentsSyntaxTokens"] bool)

/-- What an editor can do with a document. -/
def documentAbilities : Schema :=
  record
    [opt "synchronization" (abilityWith ["willSave", "willSaveWaitUntil", "didSave"]),
      opt "completion" completionAbilities,
      opt "hover" (record [dynamic, opt "contentFormat" (list markupKind)]),
      opt "signatureHelp" signatureAbilities,
      opt "references" ability,
      opt "documentHighlight" ability,
      opt "documentSymbol"
        (record
          [dynamic, opt "symbolKind" kinds, opt "hierarchicalDocumentSymbolSupport" bool,
            tagSupport]),
      opt "formatting" ability,
      opt "rangeFormatting" ability,
      opt "onTypeFormatting" ability,
      opt "declaration" goto,
      opt "definition" goto,
      opt "typeDefinition" goto,
      opt "implementation" goto,
      opt "codeAction" actionAbilities,
      opt "codeLens" ability,
      opt "documentLink" (abilityWith ["tooltipSupport"]),
      opt "colorProvider" ability,
      opt "rename"
        (record
          [dynamic, opt "prepareSupport" bool, opt "prepareSupportDefaultBehavior" integer,
            opt "honorsChangeAnnotations" bool]),
      opt "publishDiagnostics"
        (record
          ([opt "relatedInformation" bool, tagSupport]
            ++ opts ["versionSupport", "codeDescriptionSupport", "dataSupport"] bool)),
      opt "foldingRange" foldAbilities,
      opt "selectionRange" ability,
      opt "linkedEditingRange" ability,
      opt "callHierarchy" ability,
      opt "semanticTokens" tokenAbilities,
      opt "moniker" ability,
      opt "typeHierarchy" ability,
      opt "inlineValue" ability,
      opt "inlayHint" (record [dynamic, resolve]),
      opt "diagnostic" (abilityWith ["relatedDocumentSupport"])]

/-- What an editor can do with its window. -/
def windowAbilities : Schema :=
  record
    [opt "workDoneProgress" bool,
      opt "showMessage"
        (record
          [opt "messageActionItem" (record [opt "additionalPropertiesSupport" bool])]),
      opt "showDocument" (record [need "support" bool])]

/-- What an editor can do in general. -/
def generalAbilities : Schema :=
  record
    [opt "regularExpressions" (record [need "engine" text, opt "version" text]),
      opt "markdown"
        (record [need "parser" text, opt "version" text, opt "allowedTags" (list text)]),
      opt "staleRequestSupport"
        (record [need "cancel" bool, need "retryOnContentModified" (list text)]),
      opt "positionEncodings" (list text)]

/-- What an editor can do. -/
def abilities : Schema :=
  record
    [opt "workspace" workspaceAbilities, opt "textDocument" documentAbilities,
      opt "window" windowAbilities, opt "general" generalAbilities, opt "experimental" any]

/-- The parameters of the start. -/
def start : Schema :=
  record
    [opt "processId" ordinal, opt "rootPath" text, free "rootUri" url,
      opt "initializationOptions" any, need "capabilities" abilities,
      free "trace" (word ["off", "messages", "verbose"]),
      opt "workspaceFolders" (list folder),
      opt "clientInfo" (record [need "name" text, opt "version" text]),
      opt "locale" text]

end MesonLens.Form
