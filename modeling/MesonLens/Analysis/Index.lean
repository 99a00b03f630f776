import MesonLens.Analysis.Scope
import MesonLens.Syntax.Tree

/-!
# `MesonLens.Analysis.Index`: what stands where in a file

While a file is analyzed, every use of a name, call, string and assignment is
listed in an `Index`, in the order in which they are evaluated. `Index.innermost`
finds the smallest one around a place.
-/

set_option autoImplicit false

namespace MesonLens

/-- A use of a variable, to read or to bind it. -/
structure IdentifierUse where
  node : Nat
  span : Span
  name : String
  types : TypeSet
  /-- The bindings that reach the use. -/
  origins : List Origin
  deriving Repr

/-- A call of a function. -/
structure FunctionUse where
  node : Nat
  span : Span
  name : String
  nameSpan : Span
  function : Option (Signature TypeSet)
  types : TypeSet
  deriving Repr

/-- A call of a method. -/
structure MethodUse where
  node : Nat
  span : Span
  name : String
  nameSpan : Span
  receiver : TypeSet
  /-- The methods the name can mean, each once. -/
  methods : List (Signature TypeSet)
  types : TypeSet
  deriving Repr

/-- A keyword argument. -/
structure KeywordUse where
  node : Nat
  /-- The stretch of the name. -/
  span : Span
  name : String
  /-- The call it is an argument of. -/
  call : Mark
  function : Option (Signature TypeSet)
  deriving Repr

/-- An inclusion of a directory. -/
structure IncludeUse where
  node : Nat
  span : Span
  /-- The directory, if it can be read off the text. -/
  dir : Option String
  deriving Repr

/-- A string. -/
structure StringUse where
  node : Nat
  span : Span
  value : String
  deriving Repr

/-- A place where a variable is bound: by an assignment or a loop. -/
structure AssignmentUse where
  /-- The assignment or loop. -/
  node : Mark
  /-- The node that names the variable. -/
  target : Nat
  span : Span
  name : String
  types : TypeSet
  deriving Repr

/-- What stands where in a file. -/
structure Index where
  identifiers : List IdentifierUse := []
  calls : List FunctionUse := []
  methodCalls : List MethodUse := []
  keywords : List KeywordUse := []
  includes : List IncludeUse := []
  strings : List StringUse := []
  assignments : List AssignmentUse := []
  deriving Repr

namespace Index

variable {α : Type}

/-- The item with the least weight, the first of several. -/
def leastBy (weight : α → Nat) : List α → Option α
  | [] => none
  | x :: xs =>
    match leastBy weight xs with
    | some best => if weight x ≤ weight best then some x else some best
    | none => some x

/-- The smallest item around a place. -/
def innermost (span : α → Span) (line column : Nat) (items : List α) : Option α :=
  leastBy (fun x => (span x).length) (items.filter fun x => (span x).contains line column)

/-- The use of a variable around a place. -/
def identifierAt (i : Index) (line column : Nat) : Option IdentifierUse :=
  innermost (·.span) line column i.identifiers

/-- The call around a place. -/
def callAt (i : Index) (line column : Nat) : Option FunctionUse :=
  innermost (·.span) line column i.calls

/-- The call of a known function around a place. -/
def knownCallAt (i : Index) (line column : Nat) : Option FunctionUse :=
  innermost (·.span) line column (i.calls.filter (·.function.isSome))

/-- The method call around a place. -/
def methodCallAt (i : Index) (line column : Nat) : Option MethodUse :=
  innermost (·.span) line column i.methodCalls

/-- The call of a known method around a place. -/
def knownMethodCallAt (i : Index) (line column : Nat) : Option MethodUse :=
  innermost (·.span) line column (i.methodCalls.filter (!·.methods.isEmpty))

/-- The name of a keyword argument around a place. -/
def keywordAt (i : Index) (line column : Nat) : Option KeywordUse :=
  innermost (·.span) line column i.keywords

/-- The inclusion around a place. -/
def includeAt (i : Index) (line column : Nat) : Option IncludeUse :=
  innermost (·.span) line column i.includes

/-- The string around a place. -/
def stringAt (i : Index) (line column : Nat) : Option StringUse :=
  innermost (·.span) line column i.strings

/-- The name that is bound around a place. -/
def assignmentAt (i : Index) (line column : Nat) : Option AssignmentUse :=
  innermost (·.span) line column i.assignments

end Index

end MesonLens
