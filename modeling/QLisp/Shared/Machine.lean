import QLisp.Eval.World
import QLisp.Shared.ListOp

/-! The machine that evaluates handles: a world, the heap of their containers, and a depth. -/

namespace QLisp.Shared

/-- What evaluating handles reads and changes. -/
structure Machine where
  /-- The scopes, whose bindings are handles, the output and the files. -/
  world : World Handle
  /-- The containers of the lists. -/
  heap : Heap
  /-- The number of reductions in progress. -/
  depth : Nat

/-- A machine with only an empty global scope. -/
def Machine.initial (files : Files) : Machine := ⟨.initial files, .empty, 0⟩

/-- A computation on a machine. What it did before a fault stays done. -/
abbrev Act := EStateM Fault Machine

/-- The way in which a handle is evaluated in a scope. -/
abbrev Evaluator := ScopeId → Handle → Act Handle

namespace Act

/-- Runs a computation in the machine's world. -/
def inWorld {α : Type} (run : RunIn Handle α) : Act α := fun ⟨world, heap, depth⟩ =>
  let (a, world) := run world
  .ok a ⟨world, heap, depth⟩

/-- Carries out a list operation on the machine's heap. -/
def onLists {α : Type} (op : ListOp α) : Act α := fun ⟨world, heap, depth⟩ =>
  match op heap with
  | .ok a heap => .ok a ⟨world, heap, depth⟩
  | .error fault heap => .error fault ⟨world, heap, depth⟩

instance : MonadLift ListOp Act := ⟨onLists⟩

/-- Runs a computation as one more reduction in progress, also when it faults. -/
def nested {α : Type} (act : Act α) : Act α := fun ⟨world, heap, depth⟩ =>
  match act ⟨world, heap, depth + 1⟩ with
  | .ok a ⟨world, heap, depth⟩ => .ok a ⟨world, heap, depth - 1⟩
  | .error fault ⟨world, heap, depth⟩ => .error fault ⟨world, heap, depth - 1⟩

/-- Goes on with a result, or ends with the failure as the value. -/
def orFail {α : Type} (result : Except Failure α) (next : α → Act Handle) : Act Handle :=
  match result with
  | .ok a => next a
  | .error failure => return .error failure

/-- The values that handles stand for. -/
def views (handles : List Handle) : Act (List Value) :=
  handles.mapM fun v => ListOp.view v

/-- The values that handles stand for, with every list inside an element left empty. -/
def glances (handles : List Handle) : Act (List Value) := do
  let heap := (← get).heap
  return handles.map heap.glance

/-- The value of a name seen from a scope, copied out of its binding. -/
def lookup (scope : ScopeId) (name : String) : Act Handle := do
  match (← get).world.scopes.lookup? scope name with
  | some v => ListOp.copy v
  | none => return .error (.unbound name)

/-- Requires a scope to be there. -/
def expectScope (scope : ScopeId) : Act Unit := do
  if ((← get).world.scopes.get? scope).isNone then throw .noScope

/-- The outermost scope of a chain. -/
def root (scope : ScopeId) : Act ScopeId := do
  expectScope scope
  inWorld (Run.root scope)

/-- Binds a name in a scope to a copy of a value. -/
def bind (scope : ScopeId) (name : String) (v : Handle) : Act Unit := do
  expectScope scope
  let copied ← ListOp.copy v
  inWorld (Run.bindAll scope [(name, copied)])

/-- Binds a name in the outermost scope of a chain to a copy of a value. -/
def bindRoot (scope : ScopeId) (name : String) (v : Handle) : Act Unit := do
  bind (← root scope) name v

/-- Makes a scope with nothing bound. -/
def enter (parent : Option ScopeId) : Act ScopeId :=
  inWorld (Run.enter parent [])

/-- An empty list in round brackets, in a fresh container. -/
def unit : Act Handle :=
  ListOp.make .sexpr []

end Act
end QLisp.Shared
