import QLisp.Number.Arithmetic
import QLisp.Value.Basic

/-! The primitive operations whose result is a single atom that depends on the arguments alone. -/

namespace QLisp

/-- Requires a number of arguments. -/
def expectCount (caller : String) (expected got : Nat) : Except Failure Unit :=
  if got = expected then .ok () else .error (.wrongCount caller expected got)

/-- Requires at least one argument. -/
def expectSome (caller : String) (got : Nat) : Except Failure Unit :=
  if got = 0 then .error (.wrongCount caller 1 0) else .ok ()

/-- Requires a kind of value. -/
def expectKind (caller : String) (expected got : Kind) : Except Failure Unit :=
  if got = expected then .ok () else .error (.wrongType caller expected got)

/-- Requires a truth value or a number. -/
def expectCondition (caller : String) (got : Kind) : Except Failure Unit :=
  if got = .bool || got = .number then .ok () else .error (.wrongType caller .bool got)

namespace Primitive

/-- One step of an arithmetic operation on the result so far and the next operand. -/
def combine (p : Primitive) (x y : Number) : Except Failure Number :=
  match p with
  | .add => .ok (x.add y)
  | .sub => .ok (x.sub y)
  | .mul => .ok (x.mul y)
  | .div => if y.magnitude = 0 then .error .divisionByZero else .ok (x.div y)
  | .rem => if y.truncate = 0 then .error .divisionByZero else .ok (x.rem y)
  | _ => .ok x

/-- The operand of an arithmetic operation. -/
def operand (p : Primitive) : Value → Except Failure Number
  | .number x => .ok x
  | v => .error (.wrongType p.name .number v.kind)

/-- An arithmetic operation, folded from the left; a lone operand of the difference is negated. -/
def arithmetic (p : Primitive) (arguments : List Value) : Except Failure Value := do
  expectSome p.name arguments.length
  -- Every operand is checked before any is used.
  let operands ← arguments.mapM p.operand
  match p, operands with
  | .sub, [x] => return .number x.neg
  | _, x :: rest => return .number (← rest.foldlM p.combine x)
  | _, [] => return .number .zero

/-- Whether an ordering satisfies a comparison. -/
def holds (p : Primitive) (o : Ordering) : Bool :=
  match p with
  | .greater => o = .gt
  | .less => o = .lt
  | .greaterEq => o ≠ .lt
  | .lessEq => o ≠ .gt
  | _ => false

/-- The order of two numbers, of two strings, or of two quoted lists by length. -/
def comparison (p : Primitive) : Value → Value → Except Failure Ordering
  | .number x, .number y => .ok (x.order y)
  | .string a, .string b => .ok (compare a b)
  | .list .qexpr items, .list .qexpr items' => .ok (compare items.length items'.length)
  | a, b => .error (.cantCompare p.name a.kind b.kind)

/-- Applies a function to exactly two arguments. -/
def onTwo (p : Primitive) (f : Value → Value → Except Failure Value) :
    List Value → Except Failure Value
  | [a, b] => f a b
  | arguments => .error (.wrongCount p.name 2 arguments.length)

/-- Applies a function to exactly one argument. -/
def onOne (p : Primitive) (f : Value → Except Failure Value) : List Value → Except Failure Value
  | [a] => f a
  | arguments => .error (.wrongCount p.name 1 arguments.length)

/-- The truth of a condition. -/
def condition (p : Primitive) (v : Value) : Except Failure Bool := do
  expectCondition p.name v.kind
  return v.isTruthy

/-- Joins conditions, all of which are checked. -/
def connective (p : Primitive) (join : List Bool → Bool) (arguments : List Value) :
    Except Failure Value := do
  expectSome p.name arguments.length
  return .bool (join (← arguments.mapM p.condition))

/-- The result of an operation that depends on its arguments alone and makes no list. -/
def scalar? (p : Primitive) : Option (List Value → Except Failure Value) :=
  match p with
  | .add | .sub | .mul | .div | .rem => some p.arithmetic
  | .equal => some (p.onTwo fun a b => .ok (.bool (a.same b)))
  | .unequal => some (p.onTwo fun a b => .ok (.bool (!a.same b)))
  | .greater | .less | .greaterEq | .lessEq =>
    some (p.onTwo fun a b => (p.comparison a b).map fun o => .bool (p.holds o))
  | .not => some (p.onOne fun a => (p.condition a).map fun b => .bool (!b))
  | .and => some (p.connective (·.all id))
  | .or => some (p.connective (·.any id))
  -- The failure is a result, not a failure of the operation itself.
  | .error => some (p.onOne fun
    | .string message => .ok (.error (.raised message))
    | v => .error (.wrongType p.name .string v.kind))
  | _ => none

end Primitive
end QLisp
