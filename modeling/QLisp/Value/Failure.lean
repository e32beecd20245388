import QLisp.Form.Basic
import QLisp.Text.Utf8

/-! Failures: the error values of the language, with their kinds and their wording. -/

namespace QLisp

/-- The kinds of value, as messages name them. -/
inductive Kind where
  | error | number | symbol | string | bool | builtin | lambda
  | list (kind : ListKind)
  | invalid
  deriving DecidableEq, Repr

/-- The name of a kind of value. -/
def Kind.label : Kind → String
  | .error => "Error"
  | .number => "Number"
  | .symbol => "Symbol"
  | .string => "String"
  | .bool => "Bool"
  | .builtin => "Builtin"
  | .lambda => "Lambda"
  | .list .sexpr => "S-Expression"
  | .list .qexpr => "Q-Expression"
  | .invalid => "Invalid"

/-- The kinds of failure. -/
inductive FailureKind where
  | symbolNotBound | divisionByZero | wrongType | wrongArgumentCount | emptyList | notAFunction
  | incompatibleBindingCounts | cantCompare | userRaised | malformedSource | recursionDepth
  /-- A kind that only an embedding program gives, known by its code. -/
  | other (code : Int)
  deriving DecidableEq, Repr

namespace FailureKind

/-- The kinds that evaluation can give, in the order of their codes from one up. -/
def numbered : List FailureKind :=
  [.symbolNotBound, .divisionByZero, .wrongType, .wrongArgumentCount, .emptyList, .notAFunction,
    .incompatibleBindingCounts, .cantCompare, .userRaised, .malformedSource, .recursionDepth]

/-- The kind with a code. -/
def ofCode (code : Int) : FailureKind :=
  if code < 1 then .other code else numbered.getD (code.toNat - 1) (.other code)

/-- The name of a kind of failure. -/
def label : FailureKind → String
  | .symbolNotBound => "SymbolNotBound"
  | .divisionByZero => "DivisionByZero"
  | .wrongType => "WrongType"
  | .wrongArgumentCount => "WrongArgumentCount"
  | .emptyList => "EmptyList"
  | .notAFunction => "NotAFunction"
  | .incompatibleBindingCounts => "IncompatibleBindingCounts"
  | .cantCompare => "CantCompare"
  | .userRaised => "UserRaised"
  | .malformedSource => "Syntax"
  | .recursionDepth => "RecursionDepth"
  | .other _ => "Unknown"

end FailureKind

/-- What went wrong in an evaluation. -/
structure Failure where
  /-- The kind of failure. -/
  kind : FailureKind
  /-- The wording shown to the user, which may quote any bytes of the program. -/
  message : Text.Bytes
  deriving DecidableEq, Repr

namespace Failure

/-- A failure with a text for its wording. -/
def worded (kind : FailureKind) (wording : String) : Failure :=
  ⟨kind, Text.encode wording⟩

/-- A name that no scope of the chain binds. -/
def unbound (name : String) : Failure :=
  worded .symbolNotBound ("unbound symbol '" ++ name ++ "'")

/-- A divisor that is zero. -/
def divisionByZero : Failure :=
  worded .divisionByZero "division by zero"

/-- An operand of another kind than the caller needs. -/
def wrongType (caller : String) (expected got : Kind) : Failure :=
  worded .wrongType
    (caller ++ ": wrong type, expected " ++ expected.label ++ ", got " ++ got.label)

/-- More or fewer arguments than the caller takes. -/
def wrongCount (caller : String) (expected got : Nat) : Failure :=
  worded .wrongArgumentCount (caller ++ ": wrong number of arguments, expected " ++
    toString expected ++ ", got " ++ toString got)

/-- An empty list where the caller needs an element. -/
def emptyList (caller : String) : Failure :=
  worded .emptyList (caller ++ ": empty list")

/-- A value in the place of an operator that cannot be called. -/
def notAFunction (got : Kind) : Failure :=
  worded .notAFunction ("not a function: " ++ got.label)

/-- A list of names and a list of values of different lengths. -/
def bindingCounts (caller : String) (names values : Nat) : Failure :=
  worded .incompatibleBindingCounts (caller ++ ": cannot bind " ++ toString names ++
    " symbols to " ++ toString values ++ " values")

/-- Two values between which no order is defined. -/
def cantCompare (caller : String) (left right : Kind) : Failure :=
  worded .cantCompare (caller ++ ": cannot compare " ++ left.label ++ " with " ++ right.label)

/-- A failure raised by the program itself. -/
def raised (message : Text.Bytes) : Failure :=
  ⟨.userRaised, message⟩

/-- A diagnostic about source text. -/
def malformedSource (message : Text.Bytes) : Failure :=
  ⟨.malformedSource, message⟩

/-- More reductions in progress than the limit allows. -/
def tooDeep (limit : Nat) : Failure :=
  worded .recursionDepth ("maximum recursion depth " ++ toString limit ++ " exceeded")

/-- A variadic marker that is not followed by exactly one name. -/
def malformedVariadic : Failure :=
  worded .wrongType "lambda: '&' must be followed by exactly one symbol"

end Failure
end QLisp
