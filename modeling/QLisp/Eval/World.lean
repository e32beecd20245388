import QLisp.File
import QLisp.Form.Parser
import QLisp.Scope
import QLisp.Value.OfForm

/-! The world that running programs read and change. -/

namespace QLisp

/-- Everything that a program can read or change, with bindings of some type. -/
structure World (α : Type) where
  /-- The scopes made so far. -/
  scopes : Scopes α
  /-- What programs have printed so far. -/
  output : Text.Bytes
  /-- How many reductions may be in progress at once. -/
  limit : Nat
  /-- The files that can be loaded. -/
  files : Files
  /-- The paths that have been asked for, latest first. -/
  asked : List Text.Bytes

namespace World

/-- The limit on reductions in progress that a fresh world starts with. -/
def defaultLimit : Nat := 100000

/-- A bound that stands for none: no machine holds as many reductions in progress. -/
def noLimit : Nat := 0x7FFFFFFFFFFFFFFF

/-- The limit that a setting stands for, one of zero or less asking for none. -/
def limitOf (setting : Int) : Nat :=
  if setting ≤ 0 then noLimit else min setting.toNat noLimit

/-- A world with only an empty global scope. -/
def initial {α : Type} (files : Files) : World α :=
  ⟨.initial, [], defaultLimit, files, []⟩

end World

/-- A computation that runs in a world and changes it. -/
abbrev RunIn (α : Type) := StateM (World α)

/-- A computation in a world whose bindings hold immutable values. -/
abbrev Run := RunIn Value

/-- The way in which an expression is evaluated in a scope. -/
abbrev Evaluator := ScopeId → Value → Run Value

namespace Run

/-- The value of a name seen from a scope. -/
def lookup (scope : ScopeId) (name : String) : Run Value :=
  return (← get).scopes.lookup scope name

variable {α : Type}

/-- The world that a run leaves. -/
def after {β : Type} (run : RunIn α β) (w : World α) : World α :=
  (run.run w).2

/-- Prints bytes. -/
def write (bytes : Text.Bytes) : RunIn α Unit :=
  modify fun w => { w with output := w.output ++ bytes }

/-- Makes a scope with names bound in it. -/
def enter (parent : Option ScopeId) (bindings : List (String × α)) : RunIn α ScopeId :=
  modifyGet fun w =>
    let id := w.scopes.next
    (id, { w with scopes := (w.scopes.extend parent).bindAll id bindings })

/-- Binds names in a scope. -/
def bindAll (scope : ScopeId) (bindings : List (String × α)) : RunIn α Unit :=
  modify fun w => { w with scopes := w.scopes.bindAll scope bindings }

/-- The outermost scope of a chain. -/
def root (scope : ScopeId) : RunIn α ScopeId :=
  return (← get).scopes.root scope

/-- Reads a file, taking note of the path. -/
def readFile (path : Text.Bytes) : RunIn α (Except FileFault Text.Bytes) :=
  modifyGet fun w => (w.files path, { w with asked := path :: w.asked })

/-- Sets the limit on nested reductions, a setting of zero or less asking for none. -/
def setLimit (setting : Int) : RunIn α Unit :=
  modify fun w => { w with limit := World.limitOf setting }

/-- Evaluates expressions in order, each in the world that the one before it left. -/
def each (ev : Evaluator) (scope : ScopeId) (expressions : List Value) : Run (List Value) :=
  expressions.mapM (ev scope)

end Run
end QLisp
