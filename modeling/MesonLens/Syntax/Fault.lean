import MesonLens.Text.Position
import MesonLens.Token

/-!
# `MesonLens.Syntax.Fault`: what can be wrong with a text

Reading a text never fails; what is wrong with it is told by a list of
`SyntaxError`s, each a `Fault` with the stretch of text at fault.

* `Wanted`: what the grammar can ask for at a place;
* `Fault` and `Fault.message`: the causes and their wording.
-/

set_option autoImplicit false

namespace MesonLens

/-- What the grammar wanted where it found something else. -/
inductive Wanted where
  | token (t : Token)
  | expression
  | endOfLine
  | loopVariable
  /-- The bracket that opens a method's arguments. -/
  | methodArguments
  /-- A comma or the bracket that closes the list. -/
  | commaOr (close : Token)
  deriving DecidableEq, Repr

/-- How a message names what was wanted. -/
def Wanted.display : Wanted → String
  | token t => s!"'{t.display}'"
  | expression => "an expression"
  | endOfLine => "end of line"
  | loopVariable => "loop variable name"
  | methodArguments => "'(' after method name"
  | commaOr close => s!"',' or '{close.display}'"

/-- A cause of a syntax error. -/
inductive Fault where
  | strayCharacter (c : Char)
  /-- A number with a digit its radix does not have, none at all, or a value
  past the largest integer. -/
  | badInteger (raw : String)
  | openMultiline
  | openString
  | badEscape
  | expected (wanted : Wanted) (found : Option Token)
  | unexpected (t : Token)
  | badTarget
  | elifAfterElse
  | repeatedElse
  | tooManyVariables
  | noMethodName
  | badKeyword
  | nestedTooDeep
  | expressionTooTall
  deriving DecidableEq, Repr

/-- The wording of a cause. -/
def Fault.message : Fault → String
  | strayCharacter c => s!"Unexpected character '{c}'"
  | badInteger raw => s!"Invalid integer literal '{raw}'"
  | openMultiline => "Multiline string not closed"
  | openString => "String not closed"
  | badEscape => "Invalid escape sequence"
  | expected wanted (some t) => s!"Expected {wanted.display}, found '{t.display}'"
  | expected wanted none => s!"Expected {wanted.display}, found end of file"
  | unexpected t => s!"Unexpected '{t.display}'"
  | badTarget => "Assignment target must be an identifier"
  | elifAfterElse => "'elif' after 'else'"
  | repeatedElse => "Duplicate 'else'"
  | tooManyVariables => "A foreach loop takes at most two variables"
  | noMethodName => "Expected method name after '.'"
  | badKeyword => "Keyword argument name must be an identifier"
  | nestedTooDeep => "Nesting is too deep"
  | expressionTooTall => "Expression is too deeply nested"

/-- A cause with the stretch of text at fault. -/
structure SyntaxError where
  fault : Fault
  span : Span
  deriving DecidableEq, Repr

/-- The message with its place. -/
def SyntaxError.display (e : SyntaxError) : String :=
  s!"{e.fault.message} at {e.span.display}"

end MesonLens
