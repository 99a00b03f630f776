import MesonLens.Project.Basic
import MesonLens.Text.Value

/-!
# `MesonLens.Check.Report`: the problems of a project for people

A `Finding` is a problem with its file and its place as people count. A `Report`
is all findings of a project; it is written as lines of text or as one
structured value.
-/

set_option autoImplicit false

namespace MesonLens

/-- A problem of a file; lines and columns count from one. -/
structure Finding where
  path : Path
  line : Nat
  column : Nat
  severity : Severity
  message : String
  deriving Repr

namespace Finding

/-- A problem of a file. -/
def of (path : Path) (d : Diagnostic) : Finding where
  path := path
  line := d.span.start.line + 1
  column := d.span.start.column + 1
  severity := d.severity
  message := d.message

/-- The problem on a line; a file inside the project is named from its root. -/
def render (root : Path) (f : Finding) : String :=
  let shown := ((f.path.relativeTo? root).getD f.path).display
  s!"{shown}:{f.line}:{f.column}: {f.severity.display}: {f.message}\n"

/-- The problem as a value. -/
def encode (f : Finding) : Value :=
  .object
    [("file", .string f.path.display), ("line", .nat f.line), ("column", .nat f.column),
      ("severity", .string f.severity.display), ("message", .string f.message)]

end Finding

/-- The problems of a project. -/
structure Report where
  root : Path
  /-- How many files there are. -/
  files : Nat
  findings : List Finding
  deriving Repr

namespace Report

/-- The problems of a project, file by file. -/
def ofProject (p : Project) : Report where
  root := p.root
  files := p.files.length
  findings := p.diagnostics.flatMap fun (path, ds) => ds.map (Finding.of path)

/-- How many problems have a weight. -/
def count (r : Report) (severity : Severity) : Nat :=
  (r.findings.filter (·.severity = severity)).length

/-- How many errors there are. -/
def errors (r : Report) : Nat := r.count .error

/-- How many warnings there are. -/
def warnings (r : Report) : Nat := r.count .warning

/-- The report as lines of text, the numbers last. -/
def lines (r : Report) : String :=
  String.join (r.findings.map (Finding.render r.root))
    ++ s!"{r.errors} error(s), {r.warnings} warning(s) in {r.files} file(s)\n"

/-- The report as a value. -/
def encode (r : Report) : Value :=
  .object
    [("root", .string r.root.display), ("files", .nat r.files), ("errors", .nat r.errors),
      ("warnings", .nat r.warnings), ("findings", .array (r.findings.map Finding.encode))]

end Report

end MesonLens
