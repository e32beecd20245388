import QLisp.Eval.Apply

/-!
Evaluation.

Symbols stand for their bindings, lists in round brackets are reduced, and every other value
stands for itself. Evaluation recurses only through reductions, so the number of reductions that
may still be entered bounds it.
-/

namespace QLisp.Run

/-- Reduces a list: its elements are evaluated, and then the first is applied to the others. -/
def reduce (ev : Evaluator) (scope : ScopeId) (items : List Value) : Run Value := do
  let values ← each ev scope items
  match values.find? (·.isError) with
  | some failed => return failed
  | none =>
    match values with
    | [] => return .unit
    -- A lone element is evaluated once more instead of being called.
    | [v] => ev scope v
    | operator :: arguments => call ev scope operator arguments

/-- Evaluates an expression, given how to reduce a list. -/
def evalWith (reduce : List Value → Run Value) (scope : ScopeId) : Value → Run Value
  | .symbol name => lookup scope name
  | .list .sexpr items => reduce items
  | v => return v

/-- Evaluates an expression with room for a number of reductions nested in one another. -/
def eval : Nat → Evaluator
  | 0, scope, v => evalWith (fun _ => return .error (.tooDeep (← get).limit)) scope v
  | room + 1, scope, v => evalWith (reduce (eval room) scope) scope v

/-- Evaluates an expression with no reduction in progress. -/
def evaluate (scope : ScopeId) (v : Value) : Run Value := do
  eval (← get).limit scope v

end QLisp.Run
