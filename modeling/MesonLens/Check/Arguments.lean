/-!
# `MesonLens.Check.Arguments`: what the command line asks for

There are two commands: one checks a project, the other tells the types of the
expression at a place. Words that start with a dash are options, unless they
stand after two dashes alone.
-/

set_option autoImplicit false

namespace MesonLens

/-- What help is wanted about. -/
inductive Topic where
  | commands | check | types | help
  deriving DecidableEq, Repr

/-- What the command line asks for. -/
inductive Request where
  /-- Tell the problems of the project in a directory. -/
  | check (dir : String) (structured : Bool)
  /-- Tell the types of the expression at a place, which counts from one. -/
  | types (file : String) (line column : Nat)
  | help (topic : Topic)
  | version
  deriving DecidableEq, Repr

namespace Request

/-- The words after a command, sorted out. -/
structure Words where
  /-- The words that are no options. -/
  plain : List String := []
  /-- Whether a report as a structured value is asked for. -/
  structured : Bool := false
  help : Bool := false
  deriving Repr

/-- The words that a command takes. -/
structure Shape where
  /-- What the words that are no options must be, in their order. -/
  plain : List (String → Bool)
  /-- Whether a report as a structured value can be asked for. -/
  structured : Bool := false

/-- Takes one more word that is no option. -/
def take? (shape : Shape) (seen : Words) (word : String) : Option Words :=
  match shape.plain[seen.plain.length]? with
  | some accepts => if accepts word then some { seen with plain := seen.plain ++ [word] } else none
  | none => none

/-- Whether a word is an option: a dash stands in front of something. -/
def isOption (word : String) : Bool := word ≠ "-" && word.toList.head? = some '-'

/-- Whether a word asks for something by a letter or by its name. What stands
after the letter of an option is not looked at any more. -/
def asksFor (letter : Char) (name word : String) : Bool :=
  word = name || word.toList.take 2 = ['-', letter]

/-- Sorts out the words after a command, the first wrong word decides. Help is
given as soon as it is asked for. -/
def sort (shape : Shape) (seen : Words) : List String → Option Words
  | [] => some seen
  | "--" :: rest => rest.foldlM (take? shape) seen
  | word :: rest =>
    if !isOption word then do sort shape (← take? shape seen word) rest
    else if asksFor 'h' "--help" word then some { seen with help := true }
    else if word = "--json" && shape.structured && !seen.structured then
      sort shape { seen with structured := true } rest
    else none

/-- A line or column: a number from one on that fits in 32 bits. -/
def ordinal? (word : String) : Option Nat := do
  let digits := match word.toList with
    | '+' :: digits => digits
    | digits => digits
  guard (!digits.isEmpty && digits.all Char.isDigit)
  let n := Nat.ofDigitChars 10 digits 0
  guard (1 ≤ n && n ≤ 0xffffffff)
  pure n

/-- Whether a word can name a file. -/
def isFileName (word : String) : Bool := word ≠ ""

/-- The words of `check`. -/
def checkShape : Shape := { plain := [isFileName], structured := true }

/-- The words of `types`. -/
def typesShape : Shape :=
  { plain := [isFileName, fun w => (ordinal? w).isSome, fun w => (ordinal? w).isSome] }

/-- Reads what is asked for by the words after `check`. -/
def checkOf? (words : Words) : Option Request :=
  if words.help then some (help .check)
  else some (check (words.plain.head?.getD ".") words.structured)

/-- Reads what is asked for by the words after `types`. -/
def typesOf? (words : Words) : Option Request :=
  if words.help then some (help .types)
  else
    match words.plain with
    | [file, line, column] => do pure (types file (← ordinal? line) (← ordinal? column))
    | _ => none

/-- Reads what help is wanted about. -/
def helpOf? : List String → Option Request
  | [] => some (help .commands)
  | ["check"] => some (help .check)
  | ["types"] => some (help .types)
  | ["help"] => some (help .help)
  | _ => none

/-- Reads a command line; nothing when it makes no sense. -/
def ofArguments? : List String → Option Request
  | "check" :: rest => (sort checkShape {} rest).bind checkOf?
  | "types" :: rest => (sort typesShape {} rest).bind typesOf?
  | "help" :: rest => helpOf? rest
  | word :: _ =>
    if asksFor 'h' "--help" word then some (help .commands)
    else if asksFor 'V' "--version" word then some version
    else none
  | [] => none

end Request

end MesonLens
