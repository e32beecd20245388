import QLisp.Program.Session
import QLisp.Shared.Reduce

/-! Evaluating source text in place, with every form read into fresh containers. -/

namespace QLisp.Shared

namespace Act

/-- Evaluates a line of input as one implicit list in round brackets. -/
def evaluateLine (source : Text.Bytes) : Act (Except ParseError Handle) := do
  match Form.parseLine source with
  | .error e => return .error e
  | .ok form =>
    let v ← ListOp.place (form.toValue Primitive.all)
    return .ok (← evaluate Scopes.global v)

/-- Evaluates every form of a text in order, an error in one not stopping the next. -/
def evaluateText (source : Text.Bytes) : Act (Except ParseError (List Handle)) := do
  match Form.parse source with
  | .error e => return .error e
  | .ok forms => return .ok (← each evaluate Scopes.global (Form.toValues Primitive.all forms))

/-- Evaluates every form of an input that is read to its end first. -/
def evaluateInput (source : Input) : Act (Except SourceError (List Handle)) := do
  match source.failure with
  | some reason => return .error (.input reason)
  | none => return (← evaluateText source.bytes).mapError (.parse none)

/-- Evaluates every form of a file. -/
def evaluateFile (path : Text.Bytes) : Act (Except SourceError (List Handle)) := do
  match ← inWorld (Run.readFile path) with
  | .error fault => return .error (.file path fault)
  | .ok bytes =>
    return (← evaluateText (withoutInterpreterLine bytes)).mapError (.parse (some path))

/-- Evaluates a source, a line as the only form of its text. -/
def evaluateSource : Source → Act (Except SourceError (List Handle))
  | .line bytes => return ((← evaluateLine bytes).mapError (.parse none)).map ([·])
  | .text bytes => return (← evaluateText bytes).mapError (.parse none)
  | .input input => evaluateInput input
  | .file path => evaluateFile path

/-- Evaluates sources in order, each on the machine that the one before it left. -/
def evaluateSources (sources : List Source) : Act (List (Except SourceError (List Handle))) :=
  sources.mapM evaluateSource

/-- Sets the limit on nested reductions, a setting of zero or less asking for none. -/
def setLimit (setting : Int) : Act Unit :=
  inWorld (Run.setLimit setting)

/-- Binds the arguments of the program to their name. -/
def setArguments (arguments : List Text.Bytes) : Act Unit := do
  bindRoot Scopes.global "argv" (← ListOp.make .qexpr (arguments.map .string))

/-- The machine that a computation leaves, whether or not it faults. -/
def after {α : Type} (act : Act α) (m : Machine) : Machine :=
  match act m with
  | .ok _ m => m
  | .error _ m => m

end Act

namespace Machine

/-- A machine on which the primitive operations are bound to their names. -/
def withPrimitives (files : Files) : Machine :=
  let m := initial files
  let bindings := Primitive.all.map fun p => (p.name, Handle.builtin (.primitive p))
  { m with world.scopes := m.world.scopes.bindAll Scopes.global bindings }

/-- The machine that a program starts on, with the primitive operations and the library bound. -/
def standard (files : Files) : Machine :=
  (Act.each Act.evaluate Scopes.global Library.expressions).after (withPrimitives files)

end Machine
end QLisp.Shared
