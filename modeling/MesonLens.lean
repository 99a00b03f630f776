import MesonLens.Text.Position
import MesonLens.Token
import MesonLens.Syntax.Fault
import MesonLens.Token.Lexer
import MesonLens.Syntax.Operator
import MesonLens.Syntax.Tree
import MesonLens.Syntax.Traversal
import MesonLens.Syntax.Cursor
import MesonLens.Syntax.Expression
import MesonLens.Syntax.Statement
import MesonLens.Syntax.SourceFile
import MesonLens.Project.Include
import MesonLens.Text.Blank
import MesonLens.Types.TypeSet
import MesonLens.Types.Expression
import MesonLens.Catalog.Signature
import MesonLens.Catalog.Basic
import MesonLens.Catalog.Declaration
import MesonLens.Builtin.Functions
import MesonLens.Builtin.Primitives
import MesonLens.Builtin.Objects
import MesonLens.Builtin.Modules
import MesonLens.Builtin.Catalog
import MesonLens.Analysis.Problem
import MesonLens.Analysis.Scope
import MesonLens.Analysis.Index
import MesonLens.Analysis.Operator
import MesonLens.Analysis.Analyzer
import MesonLens.Text.Utf8
import MesonLens.Files.Path
import MesonLens.Files.Percent
import MesonLens.Text.CodeTable
import MesonLens.Text.Mark
import MesonLens.Text.Composition
import MesonLens.Text.Direction
import MesonLens.Text.Joining
import MesonLens.Files.Domain.Treatment
import MesonLens.Files.Domain.Spelling
import MesonLens.Files.Domain
import MesonLens.Files.Host
import MesonLens.Files.Url
import MesonLens.Files.Disk
import MesonLens.Files.Source
import MesonLens.Project.Cache
import MesonLens.Project.Tree
import MesonLens.Project.Basic
import MesonLens.Editor.Edit
import MesonLens.Editor.Formatting
import MesonLens.Editor.NameRole
import MesonLens.Editor.Hover
import MesonLens.Editor.Completion
import MesonLens.Editor.Definition
import MesonLens.Editor.Highlight
import MesonLens.Editor.Symbol
import MesonLens.Editor.SemanticToken
import MesonLens.Editor.InlayHint
import MesonLens.Editor.Folding
import MesonLens.Editor.CodeAction
import MesonLens.Editor.Encoding
import MesonLens.Text.Digest
import MesonLens.Text.Buffer
import MesonLens.Text.Value
import MesonLens.Workspace.Signal
import MesonLens.Workspace.Basic
import MesonLens.Workspace.Rebuild
import MesonLens.Server.Settings
import MesonLens.Server.Schema
import MesonLens.Server.Form
import MesonLens.Server.ClientForm
import MesonLens.Server.Method
import MesonLens.Server.Message
import MesonLens.Server.Session
import MesonLens.Check.Arguments
import MesonLens.Check.Help
import MesonLens.Check.Report
import MesonLens.Check.Command
import MesonLens.Main
import MesonLens.Proofs.Analysis.Scope
import MesonLens.Proofs.Analysis.Trace
import MesonLens.Proofs.Syntax.Numbering
import MesonLens.Proofs.Analysis.Tracking
import MesonLens.Proofs.Analysis.Reaching
import MesonLens.Proofs.Project.Loading
import MesonLens.Proofs.Workspace.Supersession
import MesonLens.Proofs.Syntax.Cursor
import MesonLens.Proofs.Syntax.Lossless
import MesonLens.Proofs.Syntax.Grades
import MesonLens.Proofs.Syntax.Expression
import MesonLens.Proofs.Syntax.RoundTrip
import MesonLens.Proofs.Syntax.Navigation
import MesonLens.Proofs.Token.Order
import MesonLens.Proofs.Syntax.Spans
import MesonLens.Proofs.Syntax.Layout
import MesonLens.Proofs.Syntax.NodeAt
import MesonLens.Proofs.Files.Places
import MesonLens.Proofs.Project.Assembly
import MesonLens.Proofs.Workspace.View
import MesonLens.Proofs.Analysis.Sites
import MesonLens.Proofs.Analysis.Acts
import MesonLens.Proofs.Analysis.Outcome
import MesonLens.Proofs.Project.Lineage
import MesonLens.Proofs.Project.Starting
import MesonLens.Proofs.Analysis.Origins
import MesonLens.Proofs.Project.Declarations
import MesonLens.Proofs.Project.Independence
import MesonLens.Proofs.Project.Transparency
import MesonLens.Proofs.Token.Coverage
import MesonLens.Proofs.Analysis.Entries
import MesonLens.Proofs.Token.Spelling
import MesonLens.Proofs.Analysis.Indexing
import MesonLens.Proofs.Analysis.Lookup
import MesonLens.Proofs.Text.Edits
import MesonLens.Proofs.Text.Utf8
import MesonLens.Proofs.Files.Addresses
import MesonLens.Proofs.Server.Buffers
import MesonLens.Proofs.Syntax.Height
import MesonLens.Proofs.Syntax.Nesting
import MesonLens.Proofs.Syntax.Lockstep
import MesonLens.Proofs.Token.Locality
import MesonLens.Proofs.Text.Offsets
import MesonLens.Proofs.Editor.Actions
import MesonLens.Proofs.Types.Union
import MesonLens.Proofs.Catalog.Acceptance
import MesonLens.Proofs.Analysis.Operators
import MesonLens.Proofs.Catalog.TypeExpressions
import MesonLens.Proofs.Catalog.Building
import MesonLens.Proofs.Catalog.Methods
import MesonLens.Proofs.Syntax.Recovery
import MesonLens.Proofs.Syntax.Lines
import MesonLens.Proofs.Token.LineFeeds
import MesonLens.Proofs.Syntax.Rows
import MesonLens.Proofs.Syntax.StatementRows
import MesonLens.Proofs.Syntax.SourceOrder
import MesonLens.Proofs.Editor.Folds
import MesonLens.Proofs.Analysis.Lasting
import MesonLens.Proofs.Project.Inheritance
import MesonLens.Proofs.Editor.Completion
import MesonLens.Proofs.Text.Positions
import MesonLens.Proofs.Server.Overlay
import MesonLens.Proofs.Editor.SemanticTokens
import MesonLens.Proofs.Editor.Conversions
import MesonLens.Proofs.Files.Spellings
import MesonLens.Proofs.Analysis.Placeholders
