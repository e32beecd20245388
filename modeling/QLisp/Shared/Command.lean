import QLisp.Eval.World
import QLisp.Shared.Handle

/-! The commands that an embedding program gives, and the answers it gets. -/

namespace QLisp.Shared

/-- Where a command takes a value from. -/
inductive Operand where
  /-- The value of a register. -/
  | register (name : String)
  /-- The first form of a source text, read with a vocabulary. -/
  | source (text : Text.Bytes) (known : Vocabulary)

/-- The commands that give a value. -/
inductive Maker where
  /-- The value of a register or of a source text. -/
  | operand (operand : Operand)
  | symbol (name : String)
  | string (bytes : Text.Bytes)
  /-- An error with the kind of the given code. -/
  | error (code : Int) (message : Text.Bytes)
  /-- An operation without a meaning, different from every other. -/
  | foreign (name : String)
  /-- A tag without contents. -/
  | bare (code : Int)
  | lambda (formals body : String) (scope : String)
  | list (kind : ListKind) (elements : List String)
  | append (list element : String)
  | pushFront (list element : String)
  | popFront (list : String)
  | join (list other : String)
  | take (list : String) (index : Int)
  | split (list : String) (index : Int)
  | element (list : String) (index : Int)
  | retag (kind : ListKind) (list : String)
  | copy (value : String)
  | formals (lambda : String)
  | body (lambda : String)
  /-- The value of a name seen from a scope. -/
  | lookup (scope name : String)
  | eval (operand : Operand) (scope : String)
  | call (operator : String) (arguments : Operand) (scope : String)

/-- The commands that give an answer other than a value. -/
inductive Query where
  | same (left right : String)
  | truthy (value : String)
  | inspect (value : String)
  /-- Makes a scope; an unknown parent makes it an outermost one. -/
  | extend (scope parent : String)
  | bind (scope name value : String)
  | bindRoot (scope name value : String)
  | contains (scope name : String)
  | names (scope : String)
  /-- The names under which the parent of a scope is held. -/
  | parent (scope : String)
  /-- The names under which the outermost scope of a chain is held. -/
  | root (scope : String)
  | evalAll (values : List String) (scope : String)
  | setLimit (setting : Int)

/-- What every accessor says of a value, whatever its kind. -/
structure Inspection where
  /-- The kind of the value. -/
  kind : Kind
  /-- The number, or zero. -/
  number : Number
  /-- The name of the symbol, or the empty name. -/
  symbol : String
  /-- The bytes of the string, or none. -/
  string : Text.Bytes
  /-- The truth value, or false. -/
  bool : Bool
  /-- Whether there is an operation. -/
  hasBuiltin : Bool
  /-- Whether there is a function. -/
  hasLambda : Bool
  /-- Whether there is a failure. -/
  hasFailure : Bool
  /-- The number of elements. -/
  length : Nat
  /-- Whether the value is a list of either kind. -/
  isList : Bool

/-- Answers other than single values. -/
inductive Reply where
  | done
  | truth (b : Bool)
  | names (names : List String)
  | values (values : List Value)
  | inspection (seen : Inspection)

/-- What every accessor says of a value. -/
def Inspection.of (v : Value) : Inspection where
  kind := v.kind
  number := match v with
    | .number x => x
    | _ => .zero
  symbol := v.symbolName
  string := match v with
    | .string bytes => bytes
    | _ => []
  bool := match v with
    | .bool b => b
    | _ => false
  hasBuiltin := match v with
    | .builtin _ => true
    | _ => false
  hasLambda := match v with
    | .lambda .. => true
    | _ => false
  hasFailure := match v with
    | .error _ => true
    | _ => false
  length := v.items.length
  isList := match v with
    | .list .. => true
    | _ => false

end QLisp.Shared
