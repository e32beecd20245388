import QLisp.Shared.Command
import QLisp.Shared.Reduce

/-!
The interface for embedding programs: values in named registers, and scopes by name.

Registers hold handles, so what is done through one register may show in another.
-/

namespace QLisp.Shared

/-- What an embedding program holds. -/
structure Host where
  /-- The machine on which values are evaluated. -/
  machine : Machine
  /-- The values held, by register. -/
  registers : Std.TreeMap String Handle
  /-- The scopes held, by name. -/
  scopes : Std.TreeMap String ScopeId
  /-- How many operations without a meaning have been made. -/
  foreigners : Nat

/-- Why a command has no result. -/
inductive Stop where
  /-- The command cannot be carried out. -/
  | fault (fault : Fault)
  /-- The source text given with the command cannot be read. -/
  | parse (error : ParseError)
  /-- The source text given with the command holds no form. -/
  | noForm
  deriving DecidableEq, Repr

/-- A command of an embedding program. What it did before it stopped stays done. -/
abbrev HostM := EStateM Stop Host

namespace Host

/-- A host that holds nothing but the global scope of a machine. -/
def start (machine : Machine) : Host :=
  ⟨machine, {}, Std.TreeMap.empty.insert "global" Scopes.global, 0⟩

/-- The value of a register; one never written holds no value. -/
def register (host : Host) (name : String) : Handle :=
  host.registers.getD name .none

/-- The scope with a name. -/
def scope? (host : Host) (name : String) : Option ScopeId :=
  host.scopes[name]?

/-- What each register stands for, in the order of their names. -/
def contents (host : Host) : List (String × Value) :=
  host.registers.toList.map fun (name, v) => (name, host.machine.heap.view v)

end Host

namespace HostM

/-- Runs a computation on the machine. -/
def onMachine {α : Type} (act : Act α) : HostM α := fun ⟨machine, registers, scopes, foreigners⟩ =>
  match act machine with
  | .ok a machine => .ok a ⟨machine, registers, scopes, foreigners⟩
  | .error fault machine => .error (.fault fault) ⟨machine, registers, scopes, foreigners⟩

/-- The value of a register. -/
def register (name : String) : HostM Handle :=
  return (← get).register name

/-- The scope with a name, which must be held. -/
def scope (name : String) : HostM ScopeId := do
  match (← get).scope? name with
  | some id => return id
  | none => throw (.fault .noScope)

/-- The scope with a name, or the global one. -/
def scopeOrGlobal (name : String) : HostM ScopeId :=
  return ((← get).scope? name).getD Scopes.global

/-- The value of an operand; a source text must hold a form, and later forms do not count. -/
def operand : Operand → HostM Handle
  | .register name => register name
  | .source text known =>
    match Form.parse text with
    | .error e => throw (.parse e)
    | .ok [] => throw .noForm
    | .ok (form :: _) => onMachine (ListOp.place (form.toValue known))

/-- Applies a list operation to a register. -/
def onRegister (name : String) (op : Handle → ListOp Handle) : HostM Handle := do
  let v ← register name
  onMachine (op v)

/-- Applies a list operation to two registers. -/
def onRegisters (first second : String) (op : Handle → Handle → ListOp Handle) : HostM Handle := do
  let v ← register first
  let other ← register second
  onMachine (op v other)

/-- Carries out a command that gives a value. -/
def make : Maker → HostM Handle
  | .operand source => operand source
  | .symbol name => return .symbol name
  | .string bytes => return .string bytes
  | .error code message => return .error ⟨.ofCode code, message⟩
  | .foreign name => modifyGet fun host =>
    (.builtin (.foreign host.foreigners name), { host with foreigners := host.foreigners + 1 })
  | .bare code => return .ofTag code
  | .lambda formals body scope => do
    return .lambda (← register formals) (← register body) ((← get).scope? scope)
  | .list kind elements => do
    let elements ← elements.mapM register
    onMachine (ListOp.make kind elements)
  | .append list element => onRegisters list element ListOp.append
  | .pushFront list element => onRegisters list element ListOp.pushFront
  | .popFront list => onRegister list ListOp.popFront
  | .join list other => onRegisters list other ListOp.join
  | .take list index => onRegister list (ListOp.take · index)
  | .split list index => onRegister list (ListOp.split · index)
  | .element list index => onRegister list (ListOp.element · index)
  | .retag kind list => onRegister list (ListOp.retag kind)
  | .copy value => onRegister value ListOp.copy
  | .formals lambda => onRegister lambda ListOp.formals
  | .body lambda => onRegister lambda ListOp.body
  | .lookup scope name => do
    match (← get).scope? scope with
    | some id => onMachine (Act.lookup id name)
    -- Without a scope no name is bound.
    | none => return .error (.unbound name)
  | .eval source scope => do
    let v ← operand source
    onMachine (Act.evaluate (← scopeOrGlobal scope) v)
  | .call operator arguments scope => do
    let arguments ← operand arguments
    onMachine (Act.apply (← scopeOrGlobal scope) (← register operator) arguments)

/-- The value that a register stands for. -/
def viewOf (name : String) : HostM Value := do
  let host ← get
  return host.machine.heap.view (host.register name)

/-- The names under which a scope is held, in order. -/
def namesOf (id : Option ScopeId) : HostM Reply :=
  return .names (((← get).scopes.toList.filter fun (_, held) => some held = id).map (·.1))

/-- Answers a query. -/
def ask : Query → HostM Reply
  | .same left right => do
    let v ← register left
    let v' ← register right
    return .truth (← onMachine (ListOp.same v v'))
  | .truthy value => return .truth (← viewOf value).isTruthy
  | .inspect value => return .inspection (.of (← viewOf value))
  | .extend name parent => do
    let id ← onMachine (Act.enter ((← get).scope? parent))
    modify fun host => { host with scopes := host.scopes.insert name id }
    return .done
  | .bind name key value => do
    let id ← scope name
    let v ← register value
    onMachine (Act.bind id key v)
    return .done
  | .bindRoot name key value => do
    let id ← scope name
    let v ← register value
    onMachine (Act.bindRoot id key v)
    return .done
  | .contains name key => do
    let id ← scope name
    return .truth ((← get).machine.world.scopes.local? id key).isSome
  | .names name => do
    let id ← scope name
    return .names ((← get).machine.world.scopes.names id)
  | .parent name => do
    let id ← scope name
    namesOf ((← get).machine.world.scopes.parent? id)
  | .root name => do
    let id ← scope name
    namesOf (some ((← get).machine.world.scopes.root id))
  | .evalAll values name => do
    let id ← scopeOrGlobal name
    let results ← values.mapM fun value => do
      let v ← register value
      onMachine (Act.evaluate id v)
    let heap := (← get).machine.heap
    return .values (results.map heap.view)
  | .setLimit setting => do
    onMachine (Act.inWorld (Run.setLimit setting))
    return .done

/-- Carries out a command that gives a value, keeping it in a register unless the name is empty. -/
def makeInto (target : String) (maker : Maker) : HostM Value := do
  let v ← make maker
  unless target = "" do
    modify fun host => { host with registers := host.registers.insert target v }
  return (← get).machine.heap.view v

end HostM
end QLisp.Shared
