import QLisp.Number.Decimal
import QLisp.Primitive
import QLisp.Value.Failure

/-! Values: what programs compute with, as immutable trees. -/

namespace QLisp

/-- The identity of a scope. -/
structure ScopeId where
  /-- The number of scopes made before it. -/
  index : Nat
  deriving DecidableEq, Repr

/-- An operation that is not written in the language. -/
inductive Builtin where
  /-- One of the primitive operations. -/
  | primitive (p : Primitive)
  /-- An operation named by an embedding program but never given a meaning. -/
  | foreign (identity : Nat) (name : String)
  deriving DecidableEq, Repr

/-- The name of an operation. -/
def Builtin.name : Builtin → String
  | .primitive p => p.name
  | .foreign _ name => name

/-- The tags that an embedding program may put on a value that holds nothing. -/
inductive Bare where
  | error | builtin | lambda
  /-- No kind at all, told apart by a code. -/
  | invalid (code : Int)
  deriving DecidableEq, Repr

/-- The kind that a bare tag names. -/
def Bare.kind : Bare → Kind
  | .error => .error
  | .builtin => .builtin
  | .lambda => .lambda
  | .invalid _ => .invalid

/-- A value of the language. -/
inductive Value where
  | number (x : Number)
  | symbol (name : String)
  /-- Any bytes, which need not be those of a text. -/
  | string (bytes : Text.Bytes)
  | bool (b : Bool)
  | builtin (operation : Builtin)
  /-- A function with the scope it was made in, if it was made in one. -/
  | lambda (formals body : Value) (scope : Option ScopeId)
  | list (kind : ListKind) (items : List Value)
  | error (failure : Failure)
  /-- A tag that an embedding program made without contents. -/
  | bare (tag : Bare)
  deriving Repr

namespace Value

/-- A primitive operation as a value. -/
def primitive (p : Primitive) : Value := .builtin (.primitive p)

/-- A list to be evaluated. -/
def sexpr (items : List Value) : Value := .list .sexpr items

/-- A quoted list. -/
def qexpr (items : List Value) : Value := .list .qexpr items

/-- The empty list in round brackets, which stands for the absence of a result. -/
def unit : Value := .list .sexpr []

/-- The kind of a value. -/
def kind : Value → Kind
  | .number _ => .number
  | .symbol _ => .symbol
  | .string _ => .string
  | .bool _ => .bool
  | .builtin _ => .builtin
  | .lambda .. => .lambda
  | .list kind _ => .list kind
  | .error _ => .error
  | .bare tag => tag.kind

/-- Whether a value is an error. -/
def isError (v : Value) : Bool := v.kind = .error

/-- The elements of a list, and none for any other value. -/
def items : Value → List Value
  | .list _ items => items
  | _ => []

/-- A list of the same kind with other elements, and any other value as it is. -/
def withItems : Value → List Value → Value
  | .list kind _, items => .list kind items
  | v, _ => v

/-- The name of a symbol, and the empty name for any other value. -/
def symbolName : Value → String
  | .symbol name => name
  | _ => ""

/-- Whether a value selects the first branch of a conditional. -/
def isTruthy : Value → Bool
  | .bool b => b
  | .number x => x.isTruthy
  | _ => false

/-- The result of a computation that may fail, a failure being a value too. -/
def ofExcept : Except Failure Value → Value
  | .ok v => v
  | .error failure => .error failure

mutual

/-- Whether two values are the same: operations by identity, functions by formals and body. -/
def same : Value → Value → Bool
  | .number x, .number y => x.equal y
  | .symbol a, .symbol b => a == b
  | .string a, .string b => a == b
  | .bool a, .bool b => a == b
  | .builtin f, .builtin g => f == g
  | .lambda formals body _, .lambda formals' body' _ => formals.same formals' && body.same body'
  | .list kind items, .list kind' items' => kind == kind' && sameAll items items'
  | .error e, .error e' => e == e'
  | .bare tag, .bare tag' => tag == tag'
  | _, _ => false

/-- Whether two lists hold the same values in the same order. -/
def sameAll : List Value → List Value → Bool
  | [], [] => true
  | v :: rest, v' :: rest' => v.same v' && sameAll rest rest'
  | _, _ => false

end

end Value

/-- A builtin operation as it is shown. -/
def Builtin.shown (operation : Builtin) : String :=
  if operation.name = "" then "<builtin>" else operation.name

/-- A bare tag as it is shown. -/
def Bare.shown : Bare → String
  | .error => "Error"
  | .builtin => "<builtin>"
  | .lambda => "<lambda>"
  | .invalid _ => "<invalid>"

namespace Value

mutual

/-- The bytes of a value, followed by others. -/
def spell : Value → Text.Bytes → Text.Bytes
  | .number x, rest => Text.encode x.render ++ rest
  | .symbol name, rest => Text.encode name ++ rest
  | .string bytes, rest => Text.encode (Text.quotedBytes bytes) ++ rest
  | .bool b, rest => Text.encode (if b then "true" else "false") ++ rest
  | .builtin operation, rest => Text.encode operation.shown ++ rest
  | .lambda formals body _, rest => Text.encode "(\\ " ++
    formals.spell (Text.encode " " ++ body.spell (Text.encode ")" ++ rest))
  | .list kind items, rest => Text.encode kind.opener.toString ++
    spellAll items (Text.encode kind.closer.toString ++ rest)
  | .error failure, rest => Text.encode "Error: " ++ failure.message ++ rest
  | .bare tag, rest => Text.encode tag.shown ++ rest

/-- The bytes of values with a space between any two, followed by others. -/
def spellAll : List Value → Text.Bytes → Text.Bytes
  | [], rest => rest
  | [v], rest => v.spell rest
  | v :: values, rest => v.spell (Text.encode " " ++ spellAll values rest)

end

/-- A value as it is shown. -/
def render (v : Value) : Text.Bytes :=
  v.spell []

/-- A value as it is printed, a string standing for its contents. -/
def display : Value → Text.Bytes
  | .string bytes => bytes
  | v => v.render

end Value
end QLisp
