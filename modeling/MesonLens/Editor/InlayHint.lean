import MesonLens.Editor.Edit
import MesonLens.Project.Basic

/-!
# `MesonLens.Editor.InlayHint`: hints between the text

After a bound name its types can be shown, and before an argument that is given
by place the name of its parameter.
-/

set_option autoImplicit false

namespace MesonLens

/-- Which hints are shown between the text. -/
structure HintOptions where
  types : Bool := true
  parameters : Bool := true
  deriving DecidableEq, Repr

/-- A hint. -/
inductive HintKind where
  | type | parameter
  deriving DecidableEq, Repr

/-- A text to show at a place. -/
structure InlayHint where
  place : Place
  label : String
  kind : HintKind
  deriving Repr

namespace InlayHint

/-- Whether a line is among the lines of a range. -/
def inLines (range : Range) (line : Nat) : Bool :=
  range.start.line ≤ line && line ≤ range.stop.line

/-- The types of a bound name. -/
def ofAssignment? (range : Range) (use : AssignmentUse) : Option InlayHint :=
  if use.types.isEmpty || !inLines range use.span.stop.line then none
  else some ⟨use.span.stop.place, s!": {use.types.display}", .type⟩

/-- The name of a parameter before its argument, unless the argument is a
variable of that name. -/
def ofArgument? (range : Range) (param : Parameter TypeSet) (arg : Tree Mark) :
    Option InlayHint :=
  if !inLines range arg.span.start.line || arg.identifier? == some param.name then none
  else some ⟨arg.span.start.place, s!"{param.name}:", .parameter⟩

/-- The names of the parameters from an argument on. A parameter that takes all
further arguments is shown once. -/
def ofArguments (range : Range) (f : Signature TypeSet) (seenVariadic : Bool) :
    Nat → List (Tree Mark) → List InlayHint
  | _, [] => []
  | index, arg :: args =>
    match f.positionalAt? index with
    | none => []
    | some param =>
      let variadic := param.kind == .variadic
      if variadic && seenVariadic then []
      else
        (ofArgument? range param arg).toList
          ++ ofArguments range f (seenVariadic || variadic) (index + 1) args

/-- The names of the parameters of a call. -/
def ofCall (range : Range) (source : SourceFile) (node : Nat) (f : Signature TypeSet) :
    List InlayHint :=
  ((source.root.find? node).map fun t => ofArguments range f false 0 t.positionalArgs).getD []

/-- The names of the parameters of all calls. A method call shows them only when
its name means one method. -/
def parameters (range : Range) (view : FileView) : List InlayHint :=
  let i := view.analysis.index
  (i.calls.flatMap fun use =>
      (use.function.map (ofCall range view.source use.node)).getD [])
    ++ i.methodCalls.flatMap fun use =>
      match use.methods with
      | [m] => ofCall range view.source use.node m
      | _ => []

/-- The hints on the lines of a range in text order. -/
def all (p : Project) (path : Path) (range : Range) (options : HintOptions) : List InlayHint :=
  match p.view? path with
  | none => []
  | some view =>
    let types :=
      if options.types then view.analysis.index.assignments.filterMap (ofAssignment? range)
      else []
    let params := if options.parameters then parameters range view else []
    (types ++ params).mergeSort fun a b => a.place.le b.place

end InlayHint

end MesonLens
