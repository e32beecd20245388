import QLisp.Eval.Reduce

/-!
Evaluation with operators applied in a given way.

Operators are applied in one place only, at the end of a reduction. Evaluation is told apart from one
that applies them otherwise by what is handed over there.
-/

namespace QLisp.Run

/-- A way of applying operators, given an evaluator. -/
abbrev Caller := Evaluator → ScopeId → Value → List Value → Run Value

/-- Reduces a list, with a given way of applying operators. -/
def reduceVia (caller : Caller) (ev : Evaluator) (scope : ScopeId) (items : List Value) :
    Run Value := do
  let values ← each ev scope items
  match values.find? (·.isError) with
  | some failed => return failed
  | none =>
    match values with
    | [] => return .unit
    | [v] => ev scope v
    | operator :: arguments => caller ev scope operator arguments

/-- Evaluates an expression, with a given way of applying operators. -/
def evalVia (caller : Caller) : Nat → Evaluator
  | 0, scope, v => evalWith (fun _ => return .error (.tooDeep (← get).limit)) scope v
  | room + 1, scope, v => evalWith (reduceVia caller (evalVia caller room) scope) scope v

/-- Evaluates an expression with no reduction in progress and a given way of applying operators. -/
def evaluateVia (caller : Caller) (scope : ScopeId) (v : Value) : Run Value := do
  evalVia caller (← get).limit scope v

/-- Evaluation applies operators in the one way there is. -/
theorem evalVia_call (room : Nat) : evalVia call room = eval room := by
  -- The two are the same but for the evaluator that is handed on.
  induction room with
  | zero => rfl
  | succ room ih =>
    funext scope v
    rw [evalVia, eval, ih]
    rfl

/-- Evaluation with no reduction in progress applies operators in the one way there is. -/
theorem evaluateVia_call : evaluateVia call = evaluate := by
  funext scope v
  simp only [evaluateVia, evaluate, evalVia_call]

end QLisp.Run
