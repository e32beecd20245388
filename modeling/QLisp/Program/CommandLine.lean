import QLisp.Program.Repl

/-! The command line: a script with its arguments, or the loop when there are none. -/

namespace QLisp

/-- Runs the program with its arguments and its input. -/
def runCommand (arguments : List Text.Bytes) (input : Input) : Run Outcome := do
  Run.setArguments arguments
  match arguments with
  | path :: _ => Script.run path input
  | [] => return ⟨0, (← Repl.runJoint input).diagnostics⟩

end QLisp
