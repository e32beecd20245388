import QLisp.Eval.Scalar

/-! The primitive operations that take lists apart and build them. -/

namespace QLisp.Primitive

/-- The elements of a quoted list that may not be empty. -/
def nonEmptyItems (p : Primitive) : Value → Except Failure (List Value)
  | .list .qexpr [] => .error (.emptyList p.name)
  | .list .qexpr items => .ok items
  | v => .error (.wrongType p.name (.list .qexpr) v.kind)

/-- The elements of the only argument, a quoted list that is not empty. -/
def onItems (p : Primitive) (f : List Value → List Value) : List Value → Except Failure Value :=
  p.onOne fun v => (p.nonEmptyItems v).map fun items => .qexpr (f items)

/-- The concatenation of quoted lists, none of them empty. -/
def concatenate (p : Primitive) (arguments : List Value) : Except Failure Value := do
  expectSome p.name arguments.length
  return .qexpr (← arguments.mapM p.nonEmptyItems).flatten

/-- Puts a value in front of a quoted list. -/
def putInFront (p : Primitive) (v : Value) : Value → Except Failure Value
  | .list .qexpr items => .ok (.qexpr (v :: items))
  | other => .error (.wrongType p.name (.list .qexpr) other.kind)

/-- The result of an operation on lists that depends on its arguments alone. -/
def listing? (p : Primitive) : Option (List Value → Except Failure Value) :=
  match p with
  | .list => some fun arguments => .ok (.qexpr arguments)
  | .head => some (p.onItems (·.take 1))
  | .tail => some (p.onItems (·.drop 1))
  | .join => some p.concatenate
  | .cons => some (p.onTwo p.putInFront)
  | _ => none

end QLisp.Primitive
