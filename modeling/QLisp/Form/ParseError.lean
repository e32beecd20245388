import QLisp.Form.Basic

/-! Why a source text is not a sequence of forms. -/

namespace QLisp

/-- What stops a text from being read. -/
inductive ParseFault where
  /-- A closing bracket with no list open. -/
  | unexpectedCloser (found : Char)
  /-- A closing bracket of the other kind than the open list's. -/
  | mismatchedCloser (expected found : Char)
  /-- The text ends inside a list. -/
  | unterminatedList (kind : ListKind)
  /-- The text ends inside a string. -/
  | unterminatedString
  /-- The text ends between a backslash and the character it escapes. -/
  | unterminatedEscape
  /-- A byte that belongs to no character. -/
  | invalidByte (offset : Nat)
  deriving DecidableEq, Repr

namespace ParseFault

/-- Whether the fault is that the text ends too early. -/
def isIncomplete : ParseFault → Bool
  | .unterminatedList _ | .unterminatedString | .unterminatedEscape => true
  | _ => false

/-- The wording of a fault. -/
def message : ParseFault → String
  | .unexpectedCloser found => "unexpected '" ++ found.toString ++ "'"
  | .mismatchedCloser expected found =>
    "expected '" ++ expected.toString ++ "' but found '" ++ found.toString ++ "'"
  | .unterminatedList kind =>
    "unterminated " ++ kind.label ++ ", missing '" ++ kind.closer.toString ++ "'"
  | .unterminatedString => "unterminated string"
  | .unterminatedEscape => "unterminated escape sequence"
  | .invalidByte offset => "invalid UTF-8 encoding at byte " ++ toString offset

end ParseFault

/-- A fault with the place it is reported at. -/
structure ParseError where
  /-- The offending character, or the beginning of the construct left open. -/
  position : Position
  /-- What is wrong there. -/
  fault : ParseFault
  deriving DecidableEq, Repr

namespace ParseError

/-- Whether more input could complete the text. -/
def isIncomplete (e : ParseError) : Bool :=
  e.fault.isIncomplete

/-- An error as it is reported, its place in front. -/
def message (e : ParseError) : String :=
  e.position.render ++ ": " ++ e.fault.message

end ParseError
end QLisp
