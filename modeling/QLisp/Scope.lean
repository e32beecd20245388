import QLisp.Value.Basic
import Std.Data.TreeMap

/-!
Scopes: the places where names are bound.

A scope belongs to at most one parent, made before it, and a name means what the nearest scope of
the chain says. What a binding holds is left open: an immutable value, or a value kept in storage.
-/

namespace QLisp

/-- One scope: its parent and the values of its own names. -/
structure Scope (α : Type) where
  /-- The scope to search when a name is not bound here. -/
  parent : Option ScopeId
  /-- The names bound here. -/
  bindings : Std.TreeMap String α := {}

/-- Every scope made so far. -/
structure Scopes (α : Type) where
  /-- The scopes in the order in which they were made. -/
  made : Array (Scope α)

namespace Scopes

variable {α : Type}

/-- The scope in which a program begins. -/
def global : ScopeId := ⟨0⟩

/-- Only the global scope, with nothing bound. -/
def initial : Scopes α := ⟨#[⟨none, {}⟩]⟩

/-- The scope with an identity. -/
def get? (scopes : Scopes α) (id : ScopeId) : Option (Scope α) :=
  scopes.made[id.index]?

/-- The parent of a scope. -/
def parent? (scopes : Scopes α) (id : ScopeId) : Option ScopeId :=
  (scopes.get? id).bind (·.parent)

/-- A scope followed by its ancestors, nearest first, as far as the count reaches. -/
def chainUpTo (scopes : Scopes α) : Nat → ScopeId → List ScopeId
  | 0, _ => []
  | count + 1, id =>
    id :: match scopes.parent? id with
      | some parent => scopes.chainUpTo count parent
      | none => []

/-- A scope followed by its ancestors, nearest first. -/
def chain (scopes : Scopes α) (id : ScopeId) : List ScopeId :=
  -- A parent was made before its children, so the scopes up to this one are enough.
  scopes.chainUpTo (id.index + 1) id

/-- The outermost scope of a chain. -/
def root (scopes : Scopes α) (id : ScopeId) : ScopeId :=
  (scopes.chain id).getLastD id

/-- The value that a scope itself gives a name. -/
def local? (scopes : Scopes α) (id : ScopeId) (name : String) : Option α :=
  (scopes.get? id).bind (·.bindings[name]?)

/-- The value of a name in the nearest scope of the chain that binds it. -/
def lookup? (scopes : Scopes α) (id : ScopeId) (name : String) : Option α :=
  (scopes.chain id).findSome? (scopes.local? · name)

/-- The value of a name, or the failure to find it. -/
def lookup (scopes : Scopes Value) (id : ScopeId) (name : String) : Value :=
  (scopes.lookup? id name).getD (.error (.unbound name))

/-- Binds a name in a scope, replacing what it was bound to there. -/
def bind (scopes : Scopes α) (id : ScopeId) (name : String) (v : α) : Scopes α :=
  ⟨scopes.made.modify id.index fun scope =>
    { scope with bindings := scope.bindings.insert name v }⟩

/-- Binds a name in the outermost scope of a chain. -/
def bindRoot (scopes : Scopes α) (id : ScopeId) (name : String) (v : α) : Scopes α :=
  scopes.bind (scopes.root id) name v

/-- Binds names in order, a repeated name keeping its last value. -/
def bindAll (scopes : Scopes α) (id : ScopeId) (bindings : List (String × α)) : Scopes α :=
  bindings.foldl (fun scopes (name, v) => scopes.bind id name v) scopes

/-- The identity that the next scope will have. -/
def next (scopes : Scopes α) : ScopeId := ⟨scopes.made.size⟩

/-- Makes a scope with nothing bound, whose identity is the next one. -/
def extend (scopes : Scopes α) (parent : Option ScopeId) : Scopes α :=
  ⟨scopes.made.push ⟨parent, {}⟩⟩

/-- The names that a scope itself binds, in order. -/
def names (scopes : Scopes α) (id : ScopeId) : List String :=
  match scopes.get? id with
  | some scope => scope.bindings.keys
  | none => []

end Scopes
end QLisp
