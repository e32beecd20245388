import QLisp.Program.Library

/-! Evaluating source text, a line or a whole text at a time. -/

namespace QLisp

/-- A text that is read until it ends or the reading fails. -/
structure Input where
  /-- The bytes that can be read. -/
  bytes : Text.Bytes
  /-- The reason why nothing can be read after them, if the text does not simply end there. -/
  failure : Option Text.Bytes := none

/-- Why a text was not evaluated. -/
inductive SourceError where
  /-- The text is not a sequence of forms; a file is named by its path. -/
  | parse (path : Option Text.Bytes) (error : ParseError)
  /-- The file cannot be read. -/
  | file (path : Text.Bytes) (fault : FileFault)
  /-- The input cannot be read to its end. -/
  | input (reason : Text.Bytes)

/-- The wording of an error. -/
def SourceError.message : SourceError → Text.Bytes
  | .parse none error => Text.encode error.message
  | .parse (some path) error => path ++ Text.encode (": " ++ error.message)
  | .file path fault => fault.message path
  | .input reason => reason

/-- Where a session takes source text from. -/
inductive Source where
  /-- A line, which is one implicit list in round brackets. -/
  | line (bytes : Text.Bytes)
  /-- A text of any number of forms. -/
  | text (bytes : Text.Bytes)
  /-- An input that is read to its end first. -/
  | input (input : Input)
  /-- A file, which may begin with an interpreter line. -/
  | file (path : Text.Bytes)

namespace Run

/-- Evaluates a line of input as one implicit list in round brackets. -/
def evaluateLine (source : Text.Bytes) : Run (Except ParseError Value) :=
  match Form.parseLine source with
  | .error e => return .error e
  | .ok form => return .ok (← evaluate Scopes.global (form.toValue Primitive.all))

/-- Evaluates every form of a text in order, an error in one not stopping the next. -/
def evaluateText (source : Text.Bytes) : Run (Except ParseError (List Value)) :=
  match Form.parse source with
  | .error e => return .error e
  | .ok forms => return .ok (← each evaluate Scopes.global (Form.toValues Primitive.all forms))

/-- Evaluates every form of an input that is read to its end first. -/
def evaluateInput (source : Input) : Run (Except SourceError (List Value)) :=
  match source.failure with
  | some reason => return .error (.input reason)
  | none => return (← evaluateText source.bytes).mapError (.parse none)

/-- Evaluates every form of a file. -/
def evaluateFile (path : Text.Bytes) : Run (Except SourceError (List Value)) := do
  match ← readFile path with
  | .error fault => return .error (.file path fault)
  | .ok bytes =>
    return (← evaluateText (withoutInterpreterLine bytes)).mapError (.parse (some path))

/-- Evaluates a source, a line as the only form of its text. -/
def evaluateSource : Source → Run (Except SourceError (List Value))
  | .line bytes => return ((← evaluateLine bytes).mapError (.parse none)).map ([·])
  | .text bytes => return (← evaluateText bytes).mapError (.parse none)
  | .input input => evaluateInput input
  | .file path => evaluateFile path

/-- Evaluates sources in order, each in the world that the one before it left. -/
def evaluateSources (sources : List Source) : Run (List (Except SourceError (List Value))) :=
  sources.mapM evaluateSource

/-- Binds the arguments of the program to their name. -/
def setArguments (arguments : List Text.Bytes) : Run Unit :=
  bindAll Scopes.global [("argv", .qexpr (arguments.map .string))]

end Run
end QLisp
