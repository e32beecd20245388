import QLisp.Program.Session

/-! Running a script: every form is evaluated, and every error among the results is reported. -/

namespace QLisp

/-- How a run of the program ends. -/
structure Outcome where
  /-- The exit status, zero when nothing went wrong. -/
  status : Nat
  /-- What is reported to the user beside the output. -/
  diagnostics : Text.Bytes
  deriving DecidableEq, Repr

namespace Script

/-- A message as a script reports it. -/
def report (message : Text.Bytes) : Text.Bytes :=
  Text.encode "risp: " ++ message ++ Text.encode "\n"

/-- The outcome of a script from the results of its forms. -/
def outcome (results : List Value) : Outcome :=
  let errors := results.filter (·.isError)
  ⟨if errors.isEmpty then 0 else 1, errors.flatMap fun v => report v.render⟩

/-- The name under which a script is read from the input. -/
def inputName : Text.Bytes := Text.encode "-"

/-- Runs a file, or the input under its own name. -/
def run (path : Text.Bytes) (input : Input) : Run Outcome := do
  let results ← if path = inputName then Run.evaluateInput input else Run.evaluateFile path
  match results with
  | .error e => return ⟨1, report e.message⟩
  | .ok values => return outcome values

end Script
end QLisp
