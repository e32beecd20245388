import QLisp.Value.Basic

/-!
Handles: values whose lists share storage.

The elements of a list are kept in a container. Handles that name one container see each other's
changes.
-/

namespace QLisp.Shared

/-- The identity of a container of list elements. -/
structure CellId where
  /-- The number of containers made before it. -/
  index : Nat
  deriving DecidableEq, Repr

/-- A value whose lists are kept in a heap. -/
inductive Handle where
  | number (x : Number)
  | symbol (name : String)
  /-- Any bytes, which need not be those of a text. -/
  | string (bytes : Text.Bytes)
  | bool (b : Bool)
  | builtin (operation : Builtin)
  /-- A function, whose formals and body may share storage with other handles. -/
  | lambda (formals body : Handle) (scope : Option ScopeId)
  /-- A list whose elements are in a container. -/
  | list (kind : ListKind) (storage : CellId)
  | error (failure : Failure)
  /-- A tag that an embedding program made without contents. -/
  | bare (tag : Bare)
  /-- A list that an embedding program made without a container. -/
  | bareList (kind : ListKind)
  deriving DecidableEq, Repr

namespace Handle

/-- The kind of value that a handle stands for. -/
def kind : Handle → Kind
  | .number _ => .number
  | .symbol _ => .symbol
  | .string _ => .string
  | .bool _ => .bool
  | .builtin _ => .builtin
  | .lambda .. => .lambda
  | .list kind _ => .list kind
  | .error _ => .error
  | .bare tag => tag.kind
  | .bareList kind => .list kind

/-- Whether a handle stands for an error. -/
def isError (v : Handle) : Bool := v.kind = .error

/-- Whether a handle stands for a list. -/
def isList : Handle → Bool
  | .list .. | .bareList _ => true
  | _ => false

/-- The number that a handle stands for, and zero for any other value. -/
def numeral : Handle → Number
  | .number x => x
  | _ => .zero

/-- The handle that holds nothing but the tag with a code. -/
def ofTag (code : Int) : Handle :=
  match code with
  | 1 => .bare .error
  -- A number, symbol, string or truth value without contents is no different from the empty one.
  | 2 => .number .zero
  | 3 => .symbol ""
  | 4 => .string []
  | 5 => .bool false
  | 6 => .bare .builtin
  | 7 => .bare .lambda
  | 8 => .bareList .sexpr
  | 9 => .bareList .qexpr
  | code => .bare (.invalid code)

/-- The handle that stands for no value. -/
def none : Handle := .bare (.invalid 0)

end Handle

end QLisp.Shared
