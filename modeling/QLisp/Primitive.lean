/-! The primitive operations and the reserved names that denote them in source text. -/

namespace QLisp

/-- The operations built into the language. -/
inductive Primitive where
  | add | sub | mul | div | rem
  | list | head | tail | join | cons | eval
  | define | assign | lambda
  | equal | unequal | greater | less | greaterEq | lessEq
  | cond | not | and | or
  | error | print | load
  | sequence | block | select
  deriving DecidableEq, Repr

namespace Primitive

/-- The reserved name of an operation. -/
def name : Primitive → String
  | .add => "+"
  | .sub => "-"
  | .mul => "*"
  | .div => "/"
  | .rem => "%"
  | .list => "list"
  | .head => "head"
  | .tail => "tail"
  | .join => "join"
  | .cons => "cons"
  | .eval => "eval"
  | .define => "def"
  | .assign => "="
  | .lambda => "\\"
  | .equal => "=="
  | .unequal => "!="
  | .greater => ">"
  | .less => "<"
  | .greaterEq => ">="
  | .lessEq => "<="
  | .cond => "if"
  | .not => "not"
  | .and => "and"
  | .or => "or"
  | .error => "error"
  | .print => "print"
  | .load => "load"
  | .sequence => "do"
  | .block => "let"
  | .select => "select"

/-- Every operation, once. -/
def all : List Primitive :=
  [.add, .sub, .mul, .div, .rem, .list, .head, .tail, .join, .cons, .eval, .define, .assign,
    .lambda, .equal, .unequal, .greater, .less, .greaterEq, .lessEq, .cond, .not, .and, .or,
    .error, .print, .load, .sequence, .block, .select]

/-- The operation that a name is reserved for. -/
def ofName? (name : String) : Option Primitive :=
  all.find? (·.name == name)

/-- Whether a name is reserved for an operation. -/
def isReserved (name : String) : Bool :=
  (ofName? name).isSome

end Primitive
end QLisp
