import QLisp.Program.Script

/-!
The read-eval-print loop on an input that is not a terminal.

Lines are gathered until they make complete forms, which are then evaluated together as one line.
-/

namespace QLisp.Repl

/-- An input cut after each newline: the finished lines and what follows the last of them. -/
structure Lines where
  /-- The lines that a newline ends, newline included. -/
  finished : List Text.Bytes
  /-- The bytes after the last newline. -/
  rest : Text.Bytes
  deriving DecidableEq, Repr

/-- Cuts bytes after each newline, given the bytes of the current line so far, last first. -/
def cutFrom (current : Text.Bytes) (done : List Text.Bytes) : Text.Bytes → Lines
  | [] => ⟨done.reverse, current.reverse⟩
  | b :: rest =>
    if b = 0x0A then cutFrom [] ((b :: current).reverse :: done) rest
    else cutFrom (b :: current) done rest

/-- Cuts an input into lines. -/
def cut (bytes : Text.Bytes) : Lines :=
  cutFrom [] [] bytes

/-- Whether a line holds nothing but white space. -/
def isBlank (line : Text.Bytes) : Bool :=
  let text := Text.decode line
  text.complete && text.chars.all Text.isSpace

/-- What the loop writes, beside what programs print. -/
structure Written where
  /-- The values of the chunks, each on a line of its own. -/
  printed : Text.Bytes := []
  /-- What is reported to the user. -/
  diagnostics : Text.Bytes := []
  deriving DecidableEq, Repr

/-- What the loop holds between lines. -/
structure State extends Written where
  /-- The lines gathered so far that do not make complete forms yet. -/
  pending : Text.Bytes := []
  deriving DecidableEq, Repr

/-- Takes the next line. The last line of the input is not waited on to be completed. -/
def takeLine (last : Bool) (s : State) (line : Text.Bytes) : Run State := do
  if s.pending.isEmpty && isBlank line then return s
  let source := s.pending ++ line
  match ← Run.evaluateLine source with
  | .ok v => return { s with
      pending := []
      printed := s.printed ++ v.render ++ Text.encode "\n" }
  | .error e =>
    if e.isIncomplete && !last then return { s with pending := source }
    return { s with
      pending := []
      diagnostics := s.diagnostics ++ Text.encode ("parse error: " ++ e.message ++ "\n") }

/-- Takes the next line when the values are written where programs print. -/
def takeLineJoint (last : Bool) (s : State) (line : Text.Bytes) : Run State := do
  let s ← takeLine last s line
  Run.write s.printed
  return { s with printed := [] }

/-- Takes lines in order, given how one is taken. -/
def takeLines (take : State → Text.Bytes → Run State) : State → List Text.Bytes → Run State
  | s, [] => return s
  | s, line :: rest => do takeLines take (← take s line) rest

/-- Takes an input to its end, given how a line is taken. -/
def runWith (take : Bool → State → Text.Bytes → Run State) (input : Input) : Run Written := do
  let lines := cut input.bytes
  let s ← takeLines (take false) {} lines.finished
  match input.failure with
  | some reason => return { s.toWritten with
      diagnostics := s.diagnostics ++ Text.encode "read error: " ++ reason ++ Text.encode "\n" }
  | none => return (← take true s lines.rest).toWritten

/-- Takes an input to its end, and gives what the loop writes. -/
def run (input : Input) : Run Written :=
  runWith takeLine input

/-- Takes an input to its end when the values are written where programs print. -/
def runJoint (input : Input) : Run Written :=
  runWith takeLineJoint input

end QLisp.Repl
