import MesonLens.Editor.Edit
import MesonLens.Text.Blank
import MesonLens.Text.Utf8

/-!
# `MesonLens.Editor.Formatting`: a text laid out anew

A formatter is a program that reads a text and writes it laid out anew. What
running it gives is a `ProgramRun`; `formatted` is the text in it, or the cause
of the failure.
-/

set_option autoImplicit false

namespace MesonLens

/-- A program with its arguments. -/
structure Command where
  program : String
  args : List String
  deriving DecidableEq, Repr

/-- What running a program gives. -/
inductive ProgramRun where
  /-- It could not be started. -/
  | notStarted (reason : String)
  /-- It ended with a code, and has written bytes. -/
  | ended (code : Nat) (output errors : List UInt8)
  /-- A signal ended it. -/
  | killed (signal : Nat) (errors : List UInt8)
  deriving Repr

/-- Runs a program by a machine. No machine can be told words with a zero byte in
them. -/
def Command.runBy (c : Command) (machine : Command → String → ProgramRun) (text : String) :
    ProgramRun :=
  if (c.program :: c.args).any fun word => word.toList.contains '\x00' then
    .notStarted "nul byte found in provided data"
  else machine c text

/-- The names of signals, in the order of their numbers. -/
def signalNames : List String :=
  ["HUP", "INT", "QUIT", "ILL", "TRAP", "ABRT", "BUS", "FPE", "KILL", "USR1", "SEGV", "USR2",
    "PIPE", "ALRM", "TERM", "STKFLT", "CHLD", "CONT", "STOP", "TSTP", "TTIN", "TTOU", "URG",
    "XCPU", "XFSZ", "VTALRM", "PROF", "WINCH", "IO", "PWR", "SYS"]

/-- How a program can end without success. -/
inductive Failure where
  | code (number : Nat)
  | signal (number : Nat)
  deriving DecidableEq, Repr

/-- The wording of an end. A signal has its name too, if there is one. -/
def Failure.message : Failure → String
  | code n => "exit status: " ++ toString n
  | signal n =>
    let name := if n = 0 then none else signalNames[n - 1]?
    "signal: " ++ toString n ++ (name.map fun name => " (SIG" ++ name ++ ")").getD ""

/-- Why a text could not be formatted. -/
inductive FormatError where
  | notStarted (program reason : String)
  | exited (program : String) (failure : Failure) (errors : String)
  | notText (fault : Utf8.Fault)
  deriving DecidableEq, Repr

/-- The wording of a failure, the outermost cause first. -/
def FormatError.message : FormatError → String
  | notStarted program reason => s!"Failed to start formatter '{program}': {reason}"
  | exited program failure errors =>
    "Formatter '" ++ program ++ "' exited with " ++ failure.message ++ ": " ++ errors
  | notText fault => s!"Formatter output is not UTF-8: {fault.message}"

/-- What a program has written about its failure, without blanks around it. -/
def errorText (errors : List UInt8) : String :=
  String.ofList (trimBlanks (Utf8.decodeLossy errors).toList)

/-- The text that a formatter has written. -/
def ProgramRun.formatted (run : ProgramRun) (program : String) : Except FormatError String :=
  match run with
  | notStarted reason => .error (.notStarted program reason)
  | ended 0 output _ => (Utf8.decode output).mapError .notText
  | ended code _ errors => .error (.exited program (.code code) (errorText errors))
  | killed signal errors => .error (.exited program (.signal signal) (errorText errors))

/-- The edit that turns a text into another: nothing when they are equal, else
one that replaces everything. -/
def formatEdits (text formatted : String) : Option (List TextEdit) :=
  if formatted = text then none
  else some [⟨⟨{}, Place.endOf text⟩, formatted⟩]

end MesonLens
