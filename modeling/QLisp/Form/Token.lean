import QLisp.Form.Basic
import QLisp.Number.Numeral
import QLisp.Primitive
import QLisp.Text.DecimalDigit
import QLisp.Text.Letter
import QLisp.Text.Space

/-! Tokens: where an unquoted token ends and what it means. -/

namespace QLisp.Token

/-- Whether a character ends an unquoted token. -/
def isDelimiter (c : Char) : Bool :=
  c = '(' || c = ')' || c = '\x7b' || c = '\x7d' || c = '"' || c = ';' || Text.isSpace c

/-- The punctuation that a symbol may contain. -/
def symbolPunctuation : List Char :=
  ['_', '+', '-', '*', '/', '\\', '=', '<', '>', '!', '&', '%', '?', '^', '.', ':', '\'', '|', '$']

/-- Whether a character may stand in a symbol. -/
def isSymbolChar (c : Char) : Bool :=
  symbolPunctuation.contains c || Text.isLetter c || Text.isDecimalDigit c

/-- Whether a token has to be a number: it begins with a digit, after a sign and a point if any. -/
def looksNumeric (token : List Char) : Bool :=
  let unsigned := (Number.splitSign token).2
  let digits := match unsigned with
    | '.' :: rest => rest
    | rest => rest
  digits.head?.any (Number.isDigitOf 10)

/-- The atom for a token that means nothing, its diagnostic giving the place. -/
def malformed (position : Position) (complaint : String) : Atom :=
  .malformed (position.render ++ ": " ++ complaint)

/-- What an unquoted token means, as the first of these: a truth value, a number, a reserved name, a symbol. -/
def classify (position : Position) (token : List Char) : Atom :=
  let text := String.ofList token
  if text = "true" then .bool true
  else if text = "false" then .bool false
  else if looksNumeric token then
    match Number.ofText? token with
    | some value => .number text value
    | none => malformed position ("invalid number " ++ Text.quoted text)
  else if Primitive.isReserved text then .reserved text
  else if !token.isEmpty && token.all isSymbolChar then .symbol text
  else malformed position ("invalid symbol " ++ Text.quoted text)

/-- The character that an escape in a string stands for. -/
def unescape? : Char → Option Char
  | 'n' => some '\n'
  | 't' => some '\t'
  | 'r' => some '\r'
  | '0' => some '\x00'
  | '\\' => some '\\'
  | '"' => some '"'
  | _ => none

/-- What a string literal means, given the first of its escapes that stand for nothing. -/
def literal (position : Position) (contents : List Char) (unknownEscape : Option Char) : Atom :=
  match unknownEscape with
  | none => .string (String.ofList contents)
  | some c => malformed position ("unknown escape sequence \\" ++ c.toString ++ " in string")

end QLisp.Token
