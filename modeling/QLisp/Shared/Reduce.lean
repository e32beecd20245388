import QLisp.Shared.Apply

/-! Evaluation in place: a list is reduced inside its own container. -/

namespace QLisp.Shared.Act

/-- Evaluates what is in slots in order, putting each result in its slot. -/
def evalSlots (ev : Evaluator) (scope : ScopeId) (span : Span) (index : Nat) : Nat → Act Unit
  | 0 => return
  | count + 1 => do
    let result ← ev scope (← ListOp.slot span index)
    ListOp.put span index result
    evalSlots ev scope span (index + 1) count

/-- The first of some slots in order that holds an error. -/
def findError? (span : Span) (index : Nat) : Nat → ListOp (Option Nat)
  | 0 => return none
  | count + 1 => do
    if (← ListOp.slot span index).isError then return some index
    findError? span (index + 1) count

/-- Reduces the list in a container. -/
def reduce (ev : Evaluator) (scope : ScopeId) (id : CellId) : Act Handle := do
  let list := Handle.list .sexpr id
  -- The slots stay the same ones even if an evaluation makes the list move.
  let span ← ListOp.span id
  evalSlots ev scope span 0 span.length
  match ← findError? span 0 span.length with
  | some index => ListOp.take list index
  | none =>
    match ← ListOp.items id with
    | [] => return list
    -- A lone element is evaluated once more instead of being called.
    | [_] => do ev scope (← ListOp.take list 0)
    | _ => do
      let operator ← ListOp.popFront list
      call ev scope operator list

/-- Carries out a reduction if the limit allows one more to be in progress. -/
def guarded (act : Act Handle) : Act Handle := do
  let machine ← get
  if machine.world.limit ≤ machine.depth then return .error (.tooDeep machine.world.limit)
  nested act

/-- Evaluates a handle, given how to reduce the list in a container. -/
def evalWith (reduce : CellId → Act Handle) (scope : ScopeId) : Handle → Act Handle
  | .symbol name => lookup scope name
  | .list .sexpr id => guarded (reduce id)
  -- A list without a container has nothing to reduce.
  | .bareList .sexpr => guarded (return .bareList .sexpr)
  | v => return v

/-- Evaluates a handle with room for a number of reductions nested in one another. -/
def eval : Nat → Evaluator
  -- The limit never lets a reduction begin without room.
  | 0 => evalWith fun _ => throw .unending
  | room + 1 => fun scope => evalWith (reduce (eval room) scope) scope

/-- The number of reductions that may still be entered. -/
def room : Act Nat := do
  let machine ← get
  return machine.world.limit - machine.depth

/-- Evaluates a handle in a scope. -/
def evaluate (scope : ScopeId) (v : Handle) : Act Handle := do
  eval (← room) scope v

/-- Applies an operator to a list of evaluated arguments. -/
def apply (scope : ScopeId) (operator arguments : Handle) : Act Handle := do
  call (eval (← room)) scope operator arguments

end QLisp.Shared.Act
