/-!
# `MesonLens.Token`: the words of a build file

A build file is a sequence of tokens: brackets and separators, operators,
keywords, literals, names and line ends.

* `Token` and `Token.display`: the tokens and how messages name them;
* `Token.ofWord`: a word is a keyword or a name;
* `Token.isKeyword`, `Token.closesBlock`: the classes the grammar asks about.
-/

set_option autoImplicit false

namespace MesonLens

/-- A token of a build file. -/
inductive Token where
  | lparen | rparen | lbrace | rbrace | lbracket | rbracket
  | dot | colon | comma | question
  | assign | addAssign | subAssign | mulAssign | divAssign | modAssign
  | eq | ne | gt | lt | ge | le
  | add | sub | mul | div | mod
  | kwIf | kwElif | kwElse | kwEndif | kwForeach | kwEndforeach | kwBreak | kwContinue
  | kwAnd | kwOr | kwNot | kwIn
  /-- A string literal, its escapes already decoded. -/
  | string (value : String) (format multiline : Bool)
  /-- An integer literal in any radix; no literal is negative. -/
  | integer (value : Nat)
  | boolean (value : Bool)
  | name (text : String)
  /-- The end of a line, which counts only outside brackets. -/
  | newline
  /-- A character that no token starts with. -/
  | unknown (c : Char)
  deriving DecidableEq, Repr, Inhabited

namespace Token

/-- The token of a word: a keyword where the word is one, a name otherwise. -/
def ofWord (word : String) : Token :=
  match word with
  | "if" => kwIf
  | "elif" => kwElif
  | "else" => kwElse
  | "endif" => kwEndif
  | "foreach" => kwForeach
  | "endforeach" => kwEndforeach
  | "break" => kwBreak
  | "continue" => kwContinue
  | "and" => kwAnd
  | "or" => kwOr
  | "not" => kwNot
  | "in" => kwIn
  | "true" => boolean true
  | "false" => boolean false
  | _ => name word

/-- Whether the token ends the block it stands in. -/
def closesBlock : Token → Bool
  | kwElif | kwElse | kwEndif | kwEndforeach => true
  | _ => false

/-- Whether the token is a reserved word; `true` and `false` are literals. -/
def isKeyword : Token → Bool
  | kwIf | kwElif | kwElse | kwEndif | kwForeach | kwEndforeach | kwBreak | kwContinue => true
  | kwAnd | kwOr | kwNot | kwIn => true
  | _ => false

/-- Whether the token opens a bracket. -/
def opens : Token → Bool
  | lparen | lbracket | lbrace => true
  | _ => false

/-- Whether the token closes a bracket. -/
def closes : Token → Bool
  | rparen | rbracket | rbrace => true
  | _ => false

/-- How a message names the token: as written, except that a string is only
called a string. -/
def display : Token → String
  | lparen => "("
  | rparen => ")"
  | lbrace => "\x7b"
  | rbrace => "\x7d"
  | lbracket => "["
  | rbracket => "]"
  | dot => "."
  | colon => ":"
  | comma => ","
  | question => "?"
  | assign => "="
  | addAssign => "+="
  | subAssign => "-="
  | mulAssign => "*="
  | divAssign => "/="
  | modAssign => "%="
  | eq => "=="
  | ne => "!="
  | gt => ">"
  | lt => "<"
  | ge => ">="
  | le => "<="
  | add => "+"
  | sub => "-"
  | mul => "*"
  | div => "/"
  | mod => "%"
  | kwIf => "if"
  | kwElif => "elif"
  | kwElse => "else"
  | kwEndif => "endif"
  | kwForeach => "foreach"
  | kwEndforeach => "endforeach"
  | kwBreak => "break"
  | kwContinue => "continue"
  | kwAnd => "and"
  | kwOr => "or"
  | kwNot => "not"
  | kwIn => "in"
  | string _ _ _ => "string"
  | integer value => toString value
  | boolean value => if value then "true" else "false"
  | name text => text
  | newline => "end of line"
  | unknown c => c.toString

/-- The word for a kind of token in reports on a text. -/
def label : Token → String
  | lparen => "LParen"
  | rparen => "RParen"
  | lbrace => "LBrace"
  | rbrace => "RBrace"
  | lbracket => "LBracket"
  | rbracket => "RBracket"
  | dot => "Dot"
  | colon => "Colon"
  | comma => "Comma"
  | question => "Question"
  | assign => "Assign"
  | addAssign => "AddAssign"
  | subAssign => "SubAssign"
  | mulAssign => "MulAssign"
  | divAssign => "DivAssign"
  | modAssign => "ModAssign"
  | eq => "Eq"
  | ne => "Ne"
  | gt => "Gt"
  | lt => "Lt"
  | ge => "Ge"
  | le => "Le"
  | add => "Add"
  | sub => "Sub"
  | mul => "Mul"
  | div => "Div"
  | mod => "Mod"
  | kwIf => "If"
  | kwElif => "Elif"
  | kwElse => "Else"
  | kwEndif => "Endif"
  | kwForeach => "Foreach"
  | kwEndforeach => "Endforeach"
  | kwBreak => "Break"
  | kwContinue => "Continue"
  | kwAnd => "And"
  | kwOr => "Or"
  | kwNot => "Not"
  | kwIn => "In"
  | string .. => "Str"
  | integer _ => "Int"
  | boolean _ => "Bool"
  | name _ => "Id"
  | newline => "Newline"
  | unknown _ => "Unknown"

end Token

end MesonLens
