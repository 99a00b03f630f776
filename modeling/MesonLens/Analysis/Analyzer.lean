import MesonLens.Analysis.Index
import MesonLens.Analysis.Operator
import MesonLens.Analysis.Problem
import MesonLens.Syntax.SourceFile

/-!
# `MesonLens.Analysis.Analyzer`: what a file means

`SourceFile.analyze` goes through a file in the order in which it would run. It
works out what every expression can be, checks calls against the catalog, and
follows the variables: a branch starts from the scope before the selection, and
the scopes at the ends of the branches are merged; the body of a loop runs
zero times or once.

* `Analyze.expr`: the types of an expression;
* `Analyze.statement`, `Analyze.block`: statements;
* `Analysis`: the result for a file.
-/

set_option autoImplicit false

namespace MesonLens

/-- The scope at an inclusion, from which the included file starts. -/
structure IncludeScope where
  /-- The number of the call. -/
  call : Nat
  dir : String
  scope : Scope
  deriving Repr

/-- What is found out about a file. -/
structure Analysis where
  /-- The types of nodes by their numbers, newest first. -/
  types : List (Nat × TypeSet) := []
  index : Index := {}
  diagnostics : List Diagnostic := []
  includeScopes : List IncludeScope := []
  /-- The scope at the end. -/
  scope : Scope := {}
  deriving Repr

/-- The types of a node, if it was evaluated. -/
def Analysis.typesOf? (a : Analysis) (id : Nat) : Option TypeSet := a.types.lookup id

/-- A step of the analysis. -/
abbrev Analyze := StateM Analysis

namespace Analyze

/-- What an analysis reads from. -/
structure Context where
  catalog : Catalog
  /-- The path of the file. -/
  file : Path

/-- An argument by place. -/
structure PositionalArg where
  node : Tree Mark
  types : TypeSet

/-- An argument by name. -/
structure KeywordArg where
  name : String
  keySpan : Span
  valueSpan : Span
  types : TypeSet

/-- The evaluated arguments of a call. -/
structure CallArgs where
  positional : List PositionalArg := []
  keywords : List KeywordArg := []

/-- The types of the argument at a place, empty when there is none. -/
def CallArgs.typesAt (args : CallArgs) (index : Nat) : TypeSet :=
  (args.positional[index]?.map PositionalArg.types).getD {}

/-- The node and value of the argument at a place, if it is a plain string. -/
def CallArgs.literal? (args : CallArgs) (index : Nat) : Option (Tree Mark × String) := do
  let arg ← args.positional[index]?
  let value ← arg.node.string?
  pure (arg.node, value)

/-- Notes a problem. -/
def report (problem : Problem) (span : Span) : Analyze Unit :=
  modify fun a => { a with diagnostics := a.diagnostics ++ [⟨problem, span⟩] }

/-- Adds to the index. -/
def note (f : Index → Index) : Analyze Unit :=
  modify fun a => { a with index := f a.index }

/-- Changes the scope. -/
def modifyScope (f : Scope → Scope) : Analyze Unit :=
  modify fun a => { a with scope := f a.scope }

/-- Notes the types of a node. -/
def record (mark : Mark) (types : TypeSet) : Analyze TypeSet := do
  modify fun a => { a with types := (mark.id, types) :: a.types }
  return types

/-- The origin of a variable that is named at a node. -/
def Context.origin (ctx : Context) (mark : Mark) : Origin := ⟨ctx.file, mark.id, mark.span⟩

/-- A variable is read. -/
def readVariable (mark : Mark) (name : String) : Analyze TypeSet := do
  let binding ←
    match (← get).scope.get? name with
    | some b => pure b
    | none => do
      report (.unknownIdentifier name) mark.span
      pure {}
  note fun i => { i with
    identifiers := i.identifiers ++ [⟨mark.id, mark.span, name, binding.types, binding.origins⟩] }
  return binding.types

/-- Checks that every placeholder of a format string names a variable. -/
def checkPlaceholders (value : String) (span : Span) : Analyze Unit := do
  for (_, name) in placeholders value do
    unless (← get).scope.contains name do report (.unknownPlaceholder name) span

/-- A string is evaluated. -/
def readString (mark : Mark) (value : String) (format : Bool) : Analyze Unit := do
  note fun i => { i with strings := i.strings ++ [⟨mark.id, mark.span, value⟩] }
  if format then checkPlaceholders value mark.span

/-! ### Calls -/

/-- Checks how many arguments are given by place. -/
def checkCount (f : Signature TypeSet) (given : Nat) (span : Span) : Analyze Unit := do
  if given < f.minPositional then
    let needed := f.positional.filter (!·.kind.isOptional)
    let missing := (needed[given]?.map Parameter.name).getD ""
    report (.missingPositional missing f.id) span
  match f.maxPositional? with
  | some limit => if limit < given then report (.tooManyPositional f.id limit given) span
  | none => pure ()

/-- Checks the types of the arguments given by place. -/
def checkPositional (ctx : Context) (f : Signature TypeSet) :
    Nat → List PositionalArg → Analyze Unit
  | _, [] => pure ()
  | place, arg :: rest => do
    match f.positionalAt? place with
    | some param =>
      unless ctx.catalog.acceptsSome param.types arg.types do
        report (.positionalType param.name f.id param.types arg.types) arg.node.span
    | none => pure ()
    checkPositional ctx f (place + 1) rest

/-- The keyword that passes on keyword arguments which cannot be seen. -/
def splat : String := "kwargs"

/-- Checks a keyword argument. -/
def checkKeyword (ctx : Context) (f : Signature TypeSet) (arg : KeywordArg) : Analyze Unit :=
  match f.keyword? arg.name with
  | some param =>
    unless ctx.catalog.acceptsSome param.types arg.types do
      report (.keywordType arg.name f.id param.types arg.types) arg.valueSpan
  | none =>
    unless arg.name = splat do report (.unknownKeyword arg.name f.id) arg.keySpan

/-- Checks that every keyword argument that has to be given is given. -/
def checkMissing (f : Signature TypeSet) (args : CallArgs) (span : Span) : Analyze Unit := do
  unless args.keywords.any (·.name == splat) do
    for param in f.keywords.filter (!·.kind.isOptional) do
      unless args.keywords.any (·.name == param.name) do
        report (.missingKeyword param.name f.id) span

/-- Checks the arguments of a call. -/
def checkCall (ctx : Context) (f : Signature TypeSet) (args : CallArgs) (span : Span) :
    Analyze Unit := do
  checkCount f args.positional.length span
  checkPositional ctx f 0 args.positional
  for arg in args.keywords do checkKeyword ctx f arg
  checkMissing f args span

/-- An imported module is an object of its own type. -/
def importModule (ctx : Context) (args : CallArgs) : Analyze (Option TypeSet) := do
  match args.literal? 0 with
  | none => return none
  | some (node, name) =>
    match ctx.catalog.module? name with
    | some o => return some (TypeSet.single o.type)
    | none =>
      report (.unknownModule name) node.span
      return (ctx.catalog.lookup? "module").map fun o => TypeSet.single o.type

/-- A variable read by its name as a string; its fallback may be used instead. -/
def getVariable (args : CallArgs) : Analyze (Option TypeSet) := do
  match args.literal? 0 with
  | none => return none
  | some (node, name) =>
    let fallback := args.typesAt 1
    match (← get).scope.get? name with
    | some b => return some (fallback.union b.types)
    | none =>
      if args.positional.length < 2 then report (.unknownIdentifier name) node.span
      return some fallback

/-- A variable bound by its name as a string. -/
def setVariable (ctx : Context) (args : CallArgs) : Analyze Unit := do
  match args.literal? 0 with
  | none => pure ()
  | some (node, name) =>
    modifyScope (·.assign name (args.typesAt 1) (some (ctx.origin node.note)))

/-- A directory is included; its file starts from the scope at this place. -/
def includeDirectory (call : Mark) (args : CallArgs) : Analyze Unit := do
  let dir := (args.literal? 0).map (·.2)
  note fun i => { i with includes := i.includes ++ [⟨call.id, call.span, dir⟩] }
  match dir with
  | some dir =>
    modify fun a => { a with
      includeScopes := a.includeScopes ++ [⟨call.id, dir, a.scope⟩] }
  | none => unless args.positional.isEmpty do report .computedDirectory call.span

/-- The functions that the analysis knows more about than their signatures
tell. The result replaces the one of the signature. -/
def special (ctx : Context) (call : Mark) (name : String) (args : CallArgs) :
    Analyze (Option TypeSet) := do
  match name with
  | "import" => importModule ctx args
  | "get_variable" => getVariable args
  | "set_variable" =>
    setVariable ctx args
    return none
  | "subdir" =>
    includeDirectory call args
    return none
  | _ => return none

/-- A function is called with evaluated arguments. -/
def callFunction (ctx : Context) (call : Mark) (callee : Tree Mark)
    (function : Option (Signature TypeSet)) (args : CallArgs) : Analyze TypeSet := do
  let name := callee.identifier?.getD ""
  let declared ←
    match function with
    | some f => do
      checkCall ctx f args call.span
      pure f.returns
    | none => do
      report (.unknownFunction name) callee.span
      pure {}
  -- A special function is known by its name, whether or not the catalog declares it.
  let types := (← special ctx call name args).getD declared
  note fun i => { i with
    calls := i.calls ++ [⟨call.id, call.span, name, callee.span, function, types⟩] }
  return types

/-- What a method gives on a receiver. What a list or dictionary gives out is
what it holds. -/
def methodResult (receiver : Ty) (m : Signature TypeSet) (args : CallArgs) : TypeSet :=
  match receiver, m.name with
  | .list elements, "get" => (TypeSet.mk elements).union (args.typesAt 1)
  | .dict values, "get" => (TypeSet.mk values).union (args.typesAt 1)
  | .dict _, "keys" => TypeSet.single (.list [.str])
  | _, _ => m.returns

/-- The members of the receiver that have the method, with the method. -/
def candidates (ctx : Context) (receiver : TypeSet) (name : String) :
    List (Ty × Signature TypeSet) :=
  receiver.members.filterMap fun t =>
    if t.isAnyLike then none else (ctx.catalog.findMethod? t name).map (t, ·)

/-- Methods without repetition, told apart by owner and name. -/
def distinct (methods : List (Signature TypeSet)) : List (Signature TypeSet) :=
  methods.foldl
    (fun known m =>
      if known.any fun k => k.owner == m.owner && k.name == m.name then known else known ++ [m])
    []

/-- A method is called with evaluated arguments. -/
def callMethod (ctx : Context) (call : Mark) (member : Tree Mark) (name : String)
    (receiver : TypeSet) (found : List (Ty × Signature TypeSet)) (args : CallArgs) :
    Analyze TypeSet := do
  let methods := distinct (found.map (·.2))
  let unchecked := TypeSet.ofList (receiver.members.filter Ty.isAnyLike)
  let types := found.foldl (fun types (t, m) => types.union (methodResult t m args)) unchecked
  if methods.isEmpty && !receiver.isEmpty && !receiver.hasAnyLike then
    report (.unknownMethod name receiver) member.span
  -- Where a name can mean several methods, the arguments may fit any of them.
  match methods with
  | [m] => checkCall ctx m args call.span
  | _ => pure ()
  note fun i => { i with
    methodCalls := i.methodCalls ++
      [⟨call.id, call.span, name, member.span, receiver, methods, types⟩] }
  return types

/-! ### Expressions -/

mutual

/-- Evaluates an expression and notes its types. -/
def expr (ctx : Context) : Tree Mark → Analyze TypeSet
  | .boolean mark _ => record mark (TypeSet.single .bool)
  | .integer mark _ _ => record mark (TypeSet.single .int)
  | .string mark value format _ => do
    readString mark value format
    record mark (TypeSet.single .str)
  | .array mark elements => do
    let inner ← exprs ctx {} elements
    record mark (TypeSet.single inner.listType)
  | .dictionary mark items => do
    let inner ← entries ctx {} items
    record mark (TypeSet.single inner.dictType)
  | .identifier mark name => do
    let types ← readVariable mark name
    record mark types
  | .unary mark op operand => do
    discard (expr ctx operand)
    match op with
    | .not => record mark (TypeSet.single .bool)
    | .negate => record mark (TypeSet.single .int)
  | .binary mark left op right => do
    let l ← expr ctx left
    let r ← expr ctx right
    record mark (op.result l r)
  | .conditional mark condition ifTrue ifFalse => do
    discard (expr ctx condition)
    let t ← expr ctx ifTrue
    let f ← expr ctx ifFalse
    record mark (t.union f)
  | .subscript mark object index => do
    let container ← expr ctx object
    discard (expr ctx index)
    record mark (ctx.catalog.subscriptResult container)
  | .call mark callee (.arguments _ items) => do
    let function := ctx.catalog.function? (callee.identifier?.getD "")
    let args ← arguments ctx mark function items
    let types ← callFunction ctx mark callee function args
    record mark types
  | .call mark callee _ => do
    let function := ctx.catalog.function? (callee.identifier?.getD "")
    let types ← callFunction ctx mark callee function {}
    record mark types
  | .method mark object (.identifier m name) (some (.arguments _ items)) => do
    let receiver ← expr ctx object
    let found := candidates ctx receiver name
    let args ← arguments ctx mark (found.head?.map (·.2)) items
    let types ← callMethod ctx mark (.identifier m name) name receiver found args
    record mark types
  | .method mark object (.identifier m name) _ => do
    let receiver ← expr ctx object
    let found := candidates ctx receiver name
    let types ← callMethod ctx mark (.identifier m name) name receiver found {}
    record mark types
  | .method mark object _ _ => do
    discard (expr ctx object)
    record mark {}
  | .file mark _ | .arguments mark _ | .assignment mark _ _ _ | .iteration mark _ _ _
  | .entry mark _ _ | .keyword mark _ _ | .selection mark _ | .malformed mark _
  | .breakLoop mark | .continueLoop mark => record mark {}

/-- Evaluates expressions and adds their types to a set. -/
def exprs (ctx : Context) (types : TypeSet) : List (Tree Mark) → Analyze TypeSet
  | [] => return types
  | t :: rest => do
    let more ← expr ctx t
    exprs ctx (types.union more) rest

/-- Evaluates the entries of a dictionary and adds the types of their values to
a set. -/
def entries (ctx : Context) (types : TypeSet) : List (Tree Mark) → Analyze TypeSet
  | [] => return types
  | .entry _ key value :: rest => do
    discard (expr ctx key)
    let more ← expr ctx value
    entries ctx (types.union more) rest
  | _ :: rest => entries ctx types rest

/-- Evaluates the arguments of a call. -/
def arguments (ctx : Context) (call : Mark) (function : Option (Signature TypeSet)) :
    List (Tree Mark) → Analyze CallArgs
  | [] => return {}
  | .keyword mark key value :: rest => do
    let types ← expr ctx value
    let name := key.identifier?.getD ""
    note fun i => { i with
      keywords := i.keywords ++ [⟨mark.id, key.span, name, call, function⟩] }
    let args ← arguments ctx call function rest
    return { args with keywords := ⟨name, key.span, value.span, types⟩ :: args.keywords }
  | item :: rest => do
    let types ← expr ctx item
    let args ← arguments ctx call function rest
    return { args with positional := ⟨item, types⟩ :: args.positional }

end

/-! ### Statements -/

/-- Notes that a variable was bound at a node, after the binding. -/
def recordBinding (node target : Mark) (name : String) (types : TypeSet) : Analyze Unit := do
  let origins := (((← get).scope.get? name).map Binding.origins).getD []
  discard (record target types)
  note fun i => { i with
    assignments := i.assignments ++ [⟨node, target.id, target.span, name, types⟩]
    identifiers := i.identifiers ++ [⟨target.id, target.span, name, types, origins⟩] }

/-- Binds a variable to a value, or changes what it holds by an operator. -/
def bindVariable (ctx : Context) (node target : Mark) (name : String) (op : AssignOp)
    (value : TypeSet) : Analyze Unit := do
  let origin := some (ctx.origin target)
  match op.binary? with
  | none =>
    modifyScope (·.assign name value origin)
    recordBinding node target name value
  | some binary =>
    let current ←
      match (← get).scope.get? name with
      | some b => pure b.types
      | none => do
        report (.unknownIdentifier name) target.span
        pure {}
    let types := binary.result current value
    modifyScope (·.update name types origin)
    recordBinding node target name types

/-- Whether the type is a range of numbers. -/
def isRange : Ty → Bool
  | .object _ name => name == "range"
  | _ => false

/-- Whether the type is a dictionary. -/
def isDict : Ty → Bool
  | .dict _ => true
  | _ => false

/-- What the variables of a loop hold, and what is wrong with their number. -/
def loopTypes (count : Nat) (iterable : TypeSet) : List TypeSet × Option Problem :=
  if iterable.hasAnyLike then (List.replicate count TypeSet.any, none)
  else
    let hasDict := iterable.members.any isDict
    let hasRange := iterable.members.any isRange
    let hasList := hasRange || iterable.members.any Ty.isList
    match count with
    | 1 =>
      let elements := iterable.elements
      ([if hasRange then elements.insert .int else elements],
        if hasDict && !hasList then some .dictNeedsTwoVariables else none)
    | 2 =>
      ([TypeSet.single .str, iterable.values],
        if hasList && !hasDict then some .listNeedsOneVariable else none)
    | count => (List.replicate count {}, none)

/-- Binds the variables of a loop. -/
def bindLoopVariables (ctx : Context) (node : Mark) : List (Tree Mark × TypeSet) → Analyze Unit
  | [] => pure ()
  | (.identifier mark name, types) :: rest => do
    modifyScope (·.assign name types (some (ctx.origin mark)))
    recordBinding node mark name types
    bindLoopVariables ctx node rest
  | _ :: rest => bindLoopVariables ctx node rest

mutual

/-- Runs a statement. -/
def statement (ctx : Context) : Tree Mark → Analyze Unit
  | .assignment mark target op value => do
    let types ← expr ctx value
    match target with
    | .identifier m name => bindVariable ctx mark m name op types
    | _ => pure ()
  | .selection _ bs => do
    let before := (← get).scope
    let after ← branches ctx before none bs
    modifyScope fun _ => after
  | .iteration mark names iterable body => do
    let types ← expr ctx iterable
    let before := (← get).scope
    let (held, problem) := loopTypes names.length types
    match problem with
    | some p => report p iterable.span
    | none => pure ()
    bindLoopVariables ctx mark (names.zip held)
    block ctx body
    -- The body may not run at all, and then what was known before it still holds.
    modifyScope (·.merge before)
  | .breakLoop _ | .continueLoop _ | .malformed _ _ => pure ()
  | t => discard (expr ctx t)

/-- Runs statements in order. -/
def block (ctx : Context) : List (Tree Mark) → Analyze Unit
  | [] => pure ()
  | t :: rest => do
    statement ctx t
    block ctx rest

/-- Runs every branch from the scope before the selection. The result is what
is known after any of them, or after none where none has to be taken. -/
def branches (ctx : Context) (before : Scope) (merged : Option Scope) :
    Branches Mark → Analyze Scope
  | .done => return (merged.getD before).merge before
  | .otherwise body => do
    modifyScope fun _ => before
    block ctx body
    let after := (← get).scope
    return (merged.map (·.merge after)).getD after
  | .arm condition body rest => do
    modifyScope fun _ => before
    discard (expr ctx condition)
    block ctx body
    let after := (← get).scope
    branches ctx before (some ((merged.map (·.merge after)).getD after)) rest

end

end Analyze

/-- Analyzes a file that starts from a scope. Its syntax errors come first among
its diagnostics. -/
def SourceFile.analyze (f : SourceFile) (catalog : Catalog) (file : Path) (scope : Scope) :
    Analysis :=
  let start : Analysis := { scope, diagnostics := f.errors.map Diagnostic.ofSyntaxError }
  match f.root with
  | .file _ statements => ((Analyze.block ⟨catalog, file⟩ statements).run start).2
  | _ => start

end MesonLens
