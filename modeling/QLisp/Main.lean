import QLisp.Program.CommandLine

/-!
The program on the command line.

Programs are evaluated without access to the system. The paths they ask for are fetched when a run
turns out to need them, and the run is then repeated from where it began.
-/

namespace QLisp.CommandLine

/-- The files fetched so far, each with its contents or the reason why it has none. -/
abbrev Fetched := List (Text.Bytes × Except FileFault Text.Bytes)

/-- The files that have been fetched, and no others. -/
def Fetched.files (fetched : Fetched) : Files := fun path =>
  (fetched.lookup path).getD (.error .missing)

/-- The number that the system gives an error, which may come with either sign. -/
def errorNumber (code : UInt32) : Nat :=
  if code < 0x80000000 then code.toNat else 0x100000000 - code.toNat

/-- The fault that an error of the system stands for. -/
def faultOf : IO.Error → FileFault
  | .noFileOrDirectory .. | .noSuchThing .. => .missing
  | .inappropriateType _ code _ => if errorNumber code = 20 then .notDirectory else .isDirectory
  | .invalidArgument _ code _ => if errorNumber code = 36 then .nameTooLong else .invalidName
  | .permissionDenied .. => .system "open" "permission denied"
  | e => .system "open" (toString e)

/-- Fetches a file from the system, which can be asked only for paths that are texts. -/
def fetch (path : Text.Bytes) : IO (Except FileFault Text.Bytes) := do
  unless (Text.decode path).complete do return .error .missing
  try
    return .ok (← IO.FS.readBinFile (String.ofList (Text.decode path).chars)).toList
  catch e =>
    return .error (faultOf e)

/-- Runs a computation, fetching the files it asks for until it asks for no new one. -/
partial def settle {α : Type} (run : Run α) (world : World Value) (fetched : Fetched) :
    IO (α × World Value × Fetched) := do
  let (result, after) := run.run { world with files := fetched.files, asked := [] }
  match after.asked.filter fun path => (fetched.lookup path).isNone with
  | [] => return (result, after, fetched)
  | path :: _ => settle run world ((path, ← fetch path) :: fetched)

/-- Prints what a run has written and starts the next one with nothing written. -/
def release (world : World Value) : IO (World Value) := do
  let stdout ← IO.getStdout
  stdout.write ⟨world.output.toArray⟩
  stdout.flush
  return { world with output := [] }

/-- The rest of the standard input. -/
partial def readAll (stream : IO.FS.Stream) (read : ByteArray) : IO Text.Bytes := do
  let chunk ← stream.read 65536
  if chunk.isEmpty then return read.toList
  readAll stream (read ++ chunk)

/-- Runs a script and gives its exit status. -/
def runScript (arguments : List Text.Bytes) (world : World Value) : IO UInt32 := do
  let bytes ← if arguments.head? = some Script.inputName then
    readAll (← IO.getStdin) .empty
  else pure []
  let (outcome, after, _) ← settle (runCommand arguments ⟨bytes, none⟩) world []
  let _ ← release after
  (← IO.getStderr).write ⟨outcome.diagnostics.toArray⟩
  return outcome.status.toUInt32

/-- Takes lines from the standard input until it ends. -/
partial def runLoop (s : Repl.State) (world : World Value) (fetched : Fetched) : IO Unit := do
  let line := Text.encode (← (← IO.getStdin).getLine)
  let last := line.getLast? ≠ some 0x0A
  let (s, after, fetched) ← settle (Repl.takeLineJoint last s line) world fetched
  let world ← release after
  (← IO.getStderr).write ⟨s.diagnostics.toArray⟩
  unless last do runLoop { s with diagnostics := [] } world fetched

end QLisp.CommandLine

/-- Runs a script given with its arguments, or takes lines from the input when there is none. -/
def main (arguments : List String) : IO UInt32 := do
  let world := QLisp.World.standard fun _ => .error .missing
  if arguments.isEmpty then
    QLisp.CommandLine.runLoop {} ((QLisp.Run.setArguments []).run world).2 []
    return 0
  else QLisp.CommandLine.runScript (arguments.map QLisp.Text.encode) world
