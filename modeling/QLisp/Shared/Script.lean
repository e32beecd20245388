import QLisp.Program.Script
import QLisp.Shared.Session

/-! Running a script in place. -/

namespace QLisp.Shared.Act

/-- Ends a script that was answered with results, or with the reason why there are none. -/
def conclude : Except SourceError (List Handle) → Act QLisp.Outcome
  | .error e => return ⟨1, Script.report e.message⟩
  | .ok results => return Script.outcome (← views (results.filter (·.isError)))

/-- Runs a file, or the input under its own name. -/
def runScript (path : Text.Bytes) (input : Input) : Act QLisp.Outcome := do
  conclude (← if path = Script.inputName then evaluateInput input else evaluateFile path)

end QLisp.Shared.Act
