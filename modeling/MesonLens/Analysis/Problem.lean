import MesonLens.Syntax.Fault
import MesonLens.Types.TypeSet

/-!
# `MesonLens.Analysis.Problem`: what is wrong with a file

A `Diagnostic` is a `Problem` with the stretch of text it concerns. Problems are
told by their cause; `Problem.message` words them and `Problem.severity` weighs
them.
-/

set_option autoImplicit false

namespace MesonLens

/-- How bad a problem is. -/
inductive Severity where
  | error | warning
  deriving DecidableEq, Repr

/-- The name of a weight. -/
def Severity.display : Severity → String
  | error => "error"
  | warning => "warning"

/-- A cause of a diagnostic. -/
inductive Problem where
  /-- The text does not follow the grammar. -/
  | malformed (fault : Fault)
  | unknownIdentifier (name : String)
  /-- A format string has a placeholder for a variable that is not there. -/
  | unknownPlaceholder (name : String)
  | unknownFunction (name : String)
  | unknownMethod (name : String) (receiver : TypeSet)
  | unknownModule (name : String)
  | missingPositional (name callee : String)
  | tooManyPositional (callee : String) (limit given : Nat)
  | positionalType (name callee : String) (expected actual : TypeSet)
  | unknownKeyword (name callee : String)
  | keywordType (name callee : String) (expected actual : TypeSet)
  | missingKeyword (name callee : String)
  | computedDirectory
  | dictNeedsTwoVariables
  | listNeedsOneVariable
  /-- A directory includes itself, maybe through others. -/
  | recursiveInclude (dir : String)
  | repeatedInclude (dir : String)
  | noBuildFile (dir : String)
  | unreadableBuildFile (dir : String)
  deriving Repr

namespace Problem

/-- The wording of a problem. -/
def message : Problem → String
  | malformed fault => fault.message
  | unknownIdentifier name => s!"Unknown identifier '{name}'"
  | unknownPlaceholder name => s!"Unknown identifier '{name}' in format string"
  | unknownFunction name => s!"Unknown function '{name}'"
  | unknownMethod name receiver => s!"Unknown method '{name}' for type '{receiver.display}'"
  | unknownModule name => s!"Unknown module '{name}'"
  | missingPositional name callee =>
    s!"Missing positional argument '{name}' in call to '{callee}'"
  | tooManyPositional callee limit given =>
    s!"Too many positional arguments in call to '{callee}': "
      ++ s!"expected at most {limit}, got {given}"
  | positionalType name callee expected actual =>
    s!"Argument '{name}' of '{callee}' expects {expected.display}, got {actual.display}"
  | unknownKeyword name callee => s!"Unknown keyword argument '{name}' in call to '{callee}'"
  | keywordType name callee expected actual =>
    s!"Keyword argument '{name}' of '{callee}' expects {expected.display}, got {actual.display}"
  | missingKeyword name callee => s!"Missing keyword argument '{name}' in call to '{callee}'"
  | computedDirectory => "subdir() argument is not a string literal, directory is skipped"
  | dictNeedsTwoVariables => "Iterating over a dict requires two loop variables"
  | listNeedsOneVariable => "Iterating over a list requires one loop variable"
  | recursiveInclude dir => s!"Recursive inclusion of directory '{dir}'"
  | repeatedInclude dir => s!"Directory '{dir}' is already included"
  | noBuildFile dir => s!"Directory '{dir}' does not contain a meson.build"
  | unreadableBuildFile dir => s!"Cannot read meson.build of directory '{dir}'"

/-- What may still work is a warning; the rest are errors. -/
def severity : Problem → Severity
  | unknownModule _ | positionalType .. | keywordType .. | computedDirectory => .warning
  | _ => .error

end Problem

/-- A problem at a place. -/
structure Diagnostic where
  problem : Problem
  span : Span
  deriving Repr

namespace Diagnostic

/-- The wording of the problem. -/
def message (d : Diagnostic) : String := d.problem.message

/-- The weight of the problem. -/
def severity (d : Diagnostic) : Severity := d.problem.severity

/-- Whether the problem is an error. -/
def isError (d : Diagnostic) : Bool := d.severity = .error

/-- A syntax error as a diagnostic. -/
def ofSyntaxError (e : SyntaxError) : Diagnostic := ⟨.malformed e.fault, e.span⟩

/-- How many of the problems are errors. -/
def errorCount (ds : List Diagnostic) : Nat := (ds.filter isError).length

end Diagnostic

end MesonLens
