import QLisp.Eval.Formals
import QLisp.Eval.Listing
import QLisp.Eval.World

/-!
Applying operators to evaluated arguments.

Whatever an operation evaluates is handed to an evaluator that it is given, so these definitions
need no recursion of their own.
-/

namespace QLisp

/-- The names of a quoted list of symbols. -/
def Primitive.symbolNames (p : Primitive) : Value → Except Failure (List String)
  | .list .qexpr items => items.mapM fun
    | .symbol name => .ok name
    | v => .error (.wrongType p.name .symbol v.kind)
  | v => .error (.wrongType p.name (.list .qexpr) v.kind)

/-- The elements of a quoted list. -/
def Primitive.quotedItems (p : Primitive) : Value → Except Failure (List Value)
  | .list .qexpr items => .ok items
  | v => .error (.wrongType p.name (.list .qexpr) v.kind)

/-- The names and values that a binding operation is given. -/
def Primitive.bindings (p : Primitive) : List Value → Except Failure (List (String × Value))
  | [] => .error (.wrongCount p.name 1 0)
  | names :: values => do
    let names ← p.symbolNames names
    if names.length = values.length then return names.zip values
    else throw (.bindingCounts p.name names.length values.length)

/-- The formals and the body of a function that is being made. -/
def Primitive.functionParts (p : Primitive) : List Value → Except Failure (Value × Value)
  | [formals, body] => do
    let _ ← p.symbolNames formals
    let _ ← p.quotedItems body
    return (formals, body)
  | arguments => .error (.wrongCount p.name 2 arguments.length)

/-- The branch that a conditional selects, to be evaluated. -/
def Primitive.branch (p : Primitive) : List Value → Except Failure (List Value)
  | [test, first, second] => do
    let chosen ← p.condition test
    let first ← p.quotedItems first
    let second ← p.quotedItems second
    return if chosen then first else second
  | arguments => .error (.wrongCount p.name 3 arguments.length)

/-- A clause of a selection: its condition and its result. -/
def Primitive.clause (p : Primitive) : Value → Except Failure (Value × Value)
  | .list .qexpr [condition, result] => .ok (condition, result)
  | .list .qexpr items => .error (.wrongCount p.name 2 items.length)
  | v => .error (.wrongType p.name (.list .qexpr) v.kind)

/-- The path that a loading operation is given. -/
def Primitive.path (p : Primitive) : List Value → Except Failure Text.Bytes
  | [.string path] => .ok path
  | [v] => .error (.wrongType p.name .string v.kind)
  | arguments => .error (.wrongCount p.name 1 arguments.length)

/-- A quoted list turned into one to evaluate, and any other value as it is. -/
def Value.unquote : Value → Value
  | .list .qexpr items => .sexpr items
  | v => v

namespace Run

/-- Goes on with a result, or ends with the failure as the value. -/
def orFail {α : Type} (result : Except Failure α) (next : α → Run Value) : Run Value :=
  match result with
  | .ok a => next a
  | .error failure => return .error failure

/-- Evaluates conditions in order, and then the result of the first that holds. -/
def select (ev : Evaluator) (scope : ScopeId) : List (Value × Value) → Run Value
  | [] => return .error (.raised (Text.encode "select: no selection found"))
  | (condition, result) :: rest => do
    let test ← ev scope condition
    if test.isError then return test
    orFail (Primitive.select.condition test) fun chosen =>
      if chosen then ev scope result else select ev scope rest

/-- Evaluates every form of a file in a scope, then prints the errors among the results. -/
def load (ev : Evaluator) (scope : ScopeId) (path : Text.Bytes) : Run Value := do
  match ← readFile path with
  | .error fault => return .error (.raised (Text.encode "load: " ++ fault.message path))
  | .ok bytes =>
    match Form.parse (withoutInterpreterLine bytes) with
    | .error e => return .error (.malformedSource
      (Text.encode "load " ++ path ++ Text.encode (": " ++ e.message)))
    | .ok forms =>
      let results ← each ev scope (Form.toValues Primitive.all forms)
      write ((results.filter (·.isError)).flatMap (·.render ++ Text.encode "\n"))
      return .unit

/-- Applies a primitive operation to evaluated arguments. -/
def applyPrimitive (ev : Evaluator) (scope : ScopeId) (p : Primitive) (arguments : List Value) :
    Run Value :=
  match p with
  | .eval => orFail (p.onOne .ok arguments) fun v => ev scope v.unquote
  -- The global scope is the outermost one of the scope that the call is made in.
  | .define => orFail (p.bindings arguments) fun bindings => do
    bindAll (← root scope) bindings
    return .unit
  | .assign => orFail (p.bindings arguments) fun bindings => do
    bindAll scope bindings
    return .unit
  | .lambda => orFail (p.functionParts arguments) fun (formals, body) =>
    return .lambda formals body (some scope)
  | .cond => orFail (p.branch arguments) fun items => ev scope (.sexpr items)
  | .print => do
    write ((Text.encode " ").intercalate (arguments.map (·.display)) ++ Text.encode "\n")
    return .unit
  | .load => orFail (p.path arguments) fun path => do
    load ev (← root scope) path
  | .sequence => return arguments.getLastD .unit
  | .block => orFail (p.onOne .ok arguments) fun body =>
    -- A block has a scope of its own, which nothing is bound in at first.
    orFail (p.quotedItems body) fun items => do
      ev (← enter (some scope) []) (.sexpr items)
  | .select => orFail (arguments.mapM p.clause) (select ev scope)
  -- All other operations give a value that depends on the arguments alone.
  | _ =>
    match p.scalar?.or p.listing? with
    | some f => return .ofExcept (f arguments)
    | none => return .unit

/-- Applies a function to evaluated arguments. -/
def applyLambda (ev : Evaluator) (formals body : Value) (scope : Option ScopeId)
    (arguments : List Value) : Run Value := do
  let matched := matchFormals formals.items arguments
  -- Arguments are bound in a scope of the call's own, which a failed call leaves to nobody.
  let own ← enter scope matched.bound
  match matched with
  | .full _ rest =>
    bindAll own (rest.toList.map fun (name, values) => (name, Value.qexpr values))
    ev own (.sexpr body.items)
  | .short _ waiting => return .lambda (formals.withItems waiting) body (some own)
  | .excess _ => return .error (.wrongCount "lambda" formals.items.length arguments.length)
  | .malformed _ => return .error .malformedVariadic

/-- Applies an operator to evaluated arguments. -/
def call (ev : Evaluator) (scope : ScopeId) : Value → List Value → Run Value
  | .builtin (.primitive p), arguments => applyPrimitive ev scope p arguments
  | .lambda formals body own, arguments => applyLambda ev formals body own arguments
  | v, _ => return .error (.notAFunction v.kind)

end Run
end QLisp
