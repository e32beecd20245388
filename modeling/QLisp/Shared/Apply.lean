import QLisp.Eval.Apply
import QLisp.Shared.Machine

/-!
Applying operators to evaluated arguments that share storage.

The argument list belongs to the operator, which takes its arguments out of the container and
works on the containers of its operands in place. Each operation decides what to do as it does on
immutable values, but looks no deeper than the decision needs: while it is being reduced, a list
may for a moment be part of itself.
-/

namespace QLisp.Shared.Act

/-- Applies an operation to the only argument. -/
def onOne (p : Primitive) (arguments : Handle) (f : Handle → Act Handle) : Act Handle := do
  orFail (expectCount p.name 1 (← ListOp.elements arguments).length) fun _ => do
    f (← ListOp.element arguments 0)

/-- Applies an operation to exactly two arguments. -/
def onTwo (p : Primitive) (arguments : Handle) (f : Handle → Handle → Act Handle) :
    Act Handle := do
  orFail (expectCount p.name 2 (← ListOp.elements arguments).length) fun _ => do
    let first ← ListOp.element arguments 0
    let second ← ListOp.element arguments 1
    f first second

/-- The remainder of a division, which faults on a divisor of zero. -/
def remainder (x y : Number) : Act Number :=
  if y.truncate = 0 then throw .zeroDivisor else return x.rem y

/-- One step of an arithmetic operation on the result so far and the next operand. -/
def combine (p : Primitive) (x y : Number) : Act (Except Failure Number) :=
  match p with
  | .rem =>
    if y.truncate = 0 then return .error .divisionByZero
    else return .ok (← remainder x y)
  | _ => return p.combine x y

/-- Arithmetic steps on operands in order, up to the first that fails. -/
def combineAll (p : Primitive) : Number → List Number → Act (Except Failure Number)
  | x, [] => return .ok x
  | x, y :: rest => do
    match ← combine p x y with
    | .ok z => combineAll p z rest
    | .error failure => return .error failure

/-- An arithmetic operation, folded from the left; a lone operand of the difference is negated. -/
def arithmetic (p : Primitive) (arguments : Handle) : Act Handle := do
  let elements ← ListOp.elements arguments
  orFail (expectSome p.name elements.length) fun _ => do
    -- Every operand is checked before any is used.
    orFail ((← glances elements).mapM p.operand) fun _ => do
      let first ← ListOp.popFront arguments
      let rest ← ListOp.elements arguments
      if p = .sub && rest.isEmpty then return .number first.numeral.neg
      orFail (← combineAll p first.numeral (rest.map (·.numeral))) fun x => return .number x

/-- Compares two arguments by their order. -/
def compareOrder (p : Primitive) (v v' : Handle) : Act Handle := do
  orFail (p.comparison (← ListOp.glance v) (← ListOp.glance v')) fun o => return .bool (p.holds o)

/-- Joins conditions, all of which are checked. -/
def connective (p : Primitive) (join : List Bool → Bool) (arguments : Handle) : Act Handle := do
  let elements ← ListOp.elements arguments
  orFail (expectSome p.name elements.length) fun _ => do
    orFail ((← glances elements).mapM p.condition) fun truths => return .bool (join truths)

/-- Raises a failure with the message of a string. -/
def raise (p : Primitive) : Handle → Act Handle
  | .string message => return .error (.raised message)
  | v => return .error (.wrongType p.name .string v.kind)

/-- Requires a quoted list that is not empty. -/
def expectItems (p : Primitive) (v : Handle) : ListOp (Except Failure Unit) := do
  if v.kind ≠ .list .qexpr then return .error (.wrongType p.name (.list .qexpr) v.kind)
  if (← ListOp.elements v).isEmpty then return .error (.emptyList p.name)
  return .ok ()

/-- Works in place on the only argument, a quoted list that is not empty. -/
def onItems (p : Primitive) (op : Handle → ListOp Handle) (arguments : Handle) : Act Handle :=
  onOne p arguments fun v => do
    orFail (← expectItems p v) fun _ => do
      let _ ← op v
      return v

/-- The first failure of a requirement on handles, in order. -/
def expectAll (check : Handle → ListOp (Except Failure Unit)) :
    List Handle → ListOp (Except Failure Unit)
  | [] => return .ok ()
  | v :: rest => do
    match ← check v with
    | .ok () => expectAll check rest
    | .error failure => return .error failure

/-- More rounds than any run takes. -/
def endless : Nat := World.noLimit

/-- Joins arguments to the first one until none is left, in a number of rounds. -/
def joinAll (arguments first : Handle) : Nat → ListOp Handle
  | 0 => throw .unending
  | count + 1 => do
    if (← ListOp.elements arguments).isEmpty then return first
    let _ ← ListOp.join first (← ListOp.popFront arguments)
    joinAll arguments first count

/-- Concatenates quoted lists into the container of the first. -/
def concatenate (p : Primitive) (arguments : Handle) : Act Handle := do
  let elements ← ListOp.elements arguments
  orFail (expectSome p.name elements.length) fun _ => do
    orFail (← expectAll (expectItems p) elements) fun _ => do
      -- Arguments that are themselves joined to may become more.
      joinAll arguments (← ListOp.popFront arguments) (elements.length + endless)

/-- Puts the first argument in front of the second. -/
def putInFront (p : Primitive) (arguments : Handle) : Act Handle := do
  orFail (expectCount p.name 2 (← ListOp.elements arguments).length) fun _ => do
    let v ← ListOp.popFront arguments
    let list ← ListOp.popFront arguments
    orFail (expectKind p.name (.list .qexpr) list.kind) fun _ => ListOp.pushFront list v

/-- Evaluates the only argument, a quoted list as a call. -/
def evaluateOne (ev : Evaluator) (scope : ScopeId) (p : Primitive) (arguments : Handle) :
    Act Handle := do
  orFail (expectCount p.name 1 (← ListOp.elements arguments).length) fun _ => do
    let v ← ListOp.popFront arguments
    let v ← if v.kind = .list .qexpr then ListOp.retag .sexpr v else pure v
    ev scope v

/-- Binds names in order to the arguments from an index on. -/
def bindFrom (put : String → Handle → Act Unit) (arguments : Handle) : Nat → List String → Act Unit
  | _, [] => return
  | index, name :: rest => do
    put name (← ListOp.element arguments index)
    bindFrom put arguments (index + 1) rest

/-- Binds the names of the first argument to the others. -/
def bindNames (put : String → Handle → Act Unit) (p : Primitive) (arguments : Handle) :
    Act Handle := do
  orFail (expectSome p.name (← ListOp.elements arguments).length) fun _ => do
    -- The list of names is taken out of the arguments before it is looked at.
    let names ← ListOp.popFront arguments
    orFail (p.symbolNames (← ListOp.glance names)) fun names => do
      let values ← ListOp.elements arguments
      if names.length = values.length then
        bindFrom put arguments 0 names
        unit
      else return .error (.bindingCounts p.name names.length values.length)

/-- Makes a function that shares the containers of its formals and its body. -/
def makeLambda (scope : ScopeId) (p : Primitive) (arguments : Handle) : Act Handle := do
  orFail (expectCount p.name 2 (← ListOp.elements arguments).length) fun _ => do
    let formals ← ListOp.popFront arguments
    let body ← ListOp.popFront arguments
    orFail (p.symbolNames (← ListOp.glance formals)) fun _ =>
      orFail (expectKind p.name (.list .qexpr) body.kind) fun _ =>
        return .lambda formals body (some scope)

/-- Evaluates the branch that a condition selects. -/
def branch (ev : Evaluator) (scope : ScopeId) (p : Primitive) (arguments : Handle) :
    Act Handle := do
  orFail (expectCount p.name 3 (← ListOp.elements arguments).length) fun _ => do
    let test ← ListOp.popFront arguments
    orFail (p.condition (← ListOp.glance test)) fun chosen => do
      let branches ← ListOp.elements arguments
      orFail (branches.forM fun v => expectKind p.name (.list .qexpr) v.kind) fun _ => do
        let second ← ListOp.element arguments 1
        let taken ← if chosen then ListOp.element arguments 0 else pure second
        ev scope (← ListOp.retag .sexpr taken)

/-- Prints the arguments. -/
def print (arguments : Handle) : Act Handle := do
  let values ← views (← ListOp.elements arguments)
  inWorld (Run.write ((Text.encode " ").intercalate (values.map (·.display)) ++ Text.encode "\n"))
  unit

/-- Evaluates forms in order, each in fresh containers. -/
def each (ev : Evaluator) (scope : ScopeId) (expressions : List Value) : Act (List Handle) :=
  expressions.mapM fun v => do ev scope (← ListOp.place v)

/-- Evaluates every form of a file in the outermost scope, then prints the errors among the results. -/
def load (ev : Evaluator) (scope : ScopeId) (path : Text.Bytes) : Act Handle := do
  match ← inWorld (Run.readFile path) with
  | .error fault => return .error (.raised (Text.encode "load: " ++ fault.message path))
  | .ok bytes =>
    match Form.parse (withoutInterpreterLine bytes) with
    | .error e => return .error (.malformedSource
      (Text.encode "load " ++ path ++ Text.encode (": " ++ e.message)))
    | .ok forms =>
      let results ← each ev (← root scope) (Form.toValues Primitive.all forms)
      let failed ← views (results.filter (·.isError))
      inWorld (Run.write (failed.flatMap (·.render ++ Text.encode "\n")))
      unit

/-- Loads the file whose path is given by a string. -/
def loadNamed (ev : Evaluator) (scope : ScopeId) (p : Primitive) : Handle → Act Handle
  | .string path => load ev scope path
  | v => return .error (.wrongType p.name .string v.kind)

/-- Gives the last argument, if there is one. -/
def lastOf (arguments : Handle) : Act Handle := do
  match ← ListOp.elements arguments with
  | [] => unit
  | elements => ListOp.take arguments (elements.length - 1)

/-- Evaluates a quoted list in a scope of its own. -/
def block (ev : Evaluator) (scope : ScopeId) (p : Primitive) (body : Handle) : Act Handle :=
  orFail (expectKind p.name (.list .qexpr) body.kind) fun _ => do
    let body ← ListOp.retag .sexpr body
    ev (← enter (some scope)) body

/-- Requires a clause of a selection, a quoted list of two elements. -/
def expectClause (p : Primitive) (v : Handle) : ListOp (Except Failure Unit) := do
  if v.kind ≠ .list .qexpr then return .error (.wrongType p.name (.list .qexpr) v.kind)
  return expectCount p.name 2 (← ListOp.elements v).length

/-- Takes clauses out of the arguments until none is left, in a number of rounds. -/
def selectFrom (ev : Evaluator) (scope : ScopeId) (arguments : Handle) : Nat → Act Handle
  | 0 => throw .unending
  | count + 1 => do
    if (← ListOp.elements arguments).isEmpty then
      return .error (.raised (Text.encode "select: no selection found"))
    let clause ← ListOp.popFront arguments
    let test ← ev scope (← ListOp.popFront clause)
    if test.isError then return test
    orFail (Primitive.select.condition (← ListOp.glance test)) fun chosen => do
      if chosen then ev scope (← ListOp.popFront clause)
      else selectFrom ev scope arguments count

/-- Evaluates conditions in order, and then the result of the first that holds. -/
def select (ev : Evaluator) (scope : ScopeId) (p : Primitive) (arguments : Handle) :
    Act Handle := do
  let elements ← ListOp.elements arguments
  orFail (← expectAll (expectClause p) elements) fun _ =>
    -- A condition may add to the clauses.
    selectFrom ev scope arguments (elements.length + endless)

/-- Applies a primitive operation to a list of evaluated arguments. -/
def applyPrimitive (ev : Evaluator) (scope : ScopeId) (p : Primitive) (arguments : Handle) :
    Act Handle :=
  match p with
  | .add | .sub | .mul | .div | .rem => arithmetic p arguments
  | .list => ListOp.retag .qexpr arguments
  | .head => onItems p (ListOp.split · 1) arguments
  | .tail => onItems p ListOp.popFront arguments
  | .join => concatenate p arguments
  | .cons => putInFront p arguments
  | .eval => evaluateOne ev scope p arguments
  | .define => bindNames (bindRoot scope) p arguments
  | .assign => bindNames (bind scope) p arguments
  | .lambda => makeLambda scope p arguments
  | .equal => onTwo p arguments fun v v' => return .bool (← ListOp.same v v')
  | .unequal => onTwo p arguments fun v v' => return .bool (!(← ListOp.same v v'))
  | .greater | .less | .greaterEq | .lessEq => onTwo p arguments (compareOrder p)
  | .cond => branch ev scope p arguments
  | .not => onOne p arguments fun v => do
    orFail (p.condition (← ListOp.glance v)) fun truth => return .bool (!truth)
  | .and => connective p (·.all id) arguments
  | .or => connective p (·.any id) arguments
  | .error => onOne p arguments (raise p)
  | .print => print arguments
  | .load => onOne p arguments (loadNamed ev scope p)
  | .sequence => lastOf arguments
  | .block => onOne p arguments (block ev scope p)
  | .select => select ev scope p arguments

/-- Takes arguments out of their list in order, binding each to a name before the next is taken. -/
def bindTaken (scope : ScopeId) (arguments : Handle) : List String → Act Unit
  | [] => return
  | name :: rest => do
    bind scope name (← ListOp.popFront arguments)
    bindTaken scope arguments rest

/-- Binds a variadic name to the arguments that are left. -/
def bindRest (scope : ScopeId) (arguments : Handle) : Option (String × List Handle) → Act Unit
  | none => return
  | some (name, []) => do bind scope name (← ListOp.make .qexpr [])
  | some (name, _) => do bind scope name (← ListOp.retag .qexpr arguments)

/-- Applies a function to a list of evaluated arguments. -/
def applyLambda (ev : Evaluator) (formals body : Handle) (scope : Option ScopeId)
    (arguments : Handle) : Act Handle := do
  let shape ← ListOp.view formals
  let given ← ListOp.elements arguments
  let matched := matchFormals shape.items given
  let own ← enter scope
  bindTaken own arguments (matched.bound.map (·.1))
  match matched with
  | .full _ rest =>
    bindRest own arguments rest
    ev own (← ListOp.retag .sexpr (← ListOp.copy body))
  | .short _ waiting =>
    return .lambda (← ListOp.place (shape.withItems waiting)) body (some own)
  | .excess _ => return .error (.wrongCount "lambda" shape.items.length given.length)
  | .malformed _ => return .error .malformedVariadic

/-- Applies an operator to a list of evaluated arguments. -/
def call (ev : Evaluator) (scope : ScopeId) (operator arguments : Handle) : Act Handle :=
  match operator with
  | .builtin (.primitive p) => applyPrimitive ev scope p arguments
  | .lambda formals body own => applyLambda ev formals body own arguments
  | v => return .error (.notAFunction v.kind)

end QLisp.Shared.Act
