import QLisp.Form.ParseError
import QLisp.Form.Token
import QLisp.Text.Utf8

/-!
Reading forms from source text.

The reader takes one character at a time and keeps the lists that are open, so reading a text is a
fold over its characters and a text may be read piece by piece.
-/

namespace QLisp

/-- What the next character continues. -/
inductive ScanMode where
  /-- Nothing: it may begin a form. -/
  | gap
  /-- A comment, which the next newline ends. -/
  | comment
  /-- An unquoted token, with its place and its characters so far, last first. -/
  | token (start : Position) (chars : List Char)
  /-- A string, with its place, its characters so far, last first, and its first unknown escape. -/
  | string (start : Position) (chars : List Char) (unknownEscape : Option Char)
  /-- A string right after a backslash. -/
  | escape (start : Position) (chars : List Char) (unknownEscape : Option Char)
  deriving Repr

/-- A list whose closing bracket has not been read yet. -/
structure OpenList where
  /-- The place of its opening bracket. -/
  position : Position
  /-- Which bracket opened it. -/
  kind : ListKind
  /-- The forms read before it at its own level, last first. -/
  before : List Form
  deriving Repr

/-- How far a text has been read. -/
structure Scan where
  /-- The place of the next character. -/
  position : Position
  /-- The open lists, innermost first. -/
  opened : List OpenList
  /-- The forms read at the innermost level, last first. -/
  forms : List Form
  /-- What the next character continues. -/
  mode : ScanMode
  deriving Repr

namespace Scan

/-- Nothing read yet. -/
def start : Scan := ⟨.start, [], [], .gap⟩

/-- Adds an atom at the innermost level. -/
def push (s : Scan) (start : Position) (atom : Atom) : Scan :=
  { s with forms := .atom start atom :: s.forms, mode := .gap }

/-- Ends a token that is being read. -/
def endToken (s : Scan) : Scan :=
  match s.mode with
  | .token start chars => s.push start (Token.classify start chars.reverse)
  | _ => s

/-- Opens a list at the current place. -/
def openList (s : Scan) (kind : ListKind) : Scan :=
  { s with opened := ⟨s.position, kind, s.forms⟩ :: s.opened, forms := [] }

/-- Closes the innermost list with a bracket of the given kind. -/
def closeList (s : Scan) (kind : ListKind) : Except ParseError Scan :=
  match s.opened with
  | [] => .error ⟨s.position, .unexpectedCloser kind.closer⟩
  | list :: outer =>
    if list.kind = kind then
      .ok { s with
        opened := outer
        forms := .list list.position list.kind s.forms.reverse :: list.before }
    else .error ⟨s.position, .mismatchedCloser list.kind.closer kind.closer⟩

/-- Reads a character that continues nothing. -/
def beginAt (s : Scan) (c : Char) : Except ParseError Scan :=
  if c = '(' then .ok (s.openList .sexpr)
  else if c = '\x7b' then .ok (s.openList .qexpr)
  else if c = ')' then s.closeList .sexpr
  else if c = '\x7d' then s.closeList .qexpr
  else if c = '"' then .ok { s with mode := .string s.position [] none }
  else if c = ';' then .ok { s with mode := .comment }
  else if Text.isSpace c then .ok s
  else .ok { s with mode := .token s.position [c] }

/-- Reads a character without moving past it. -/
def read (s : Scan) (c : Char) : Except ParseError Scan :=
  match s.mode with
  | .gap => s.beginAt c
  | .comment => .ok (if c = '\n' then { s with mode := .gap } else s)
  | .token start chars =>
    -- A delimiter ends the token and is then read for itself.
    if Token.isDelimiter c then s.endToken.beginAt c
    else .ok { s with mode := .token start (c :: chars) }
  | .string start chars unknown =>
    -- What was read is in reverse, since each character is put in front.
    if c = '"' then .ok (s.push start (Token.literal start chars.reverse unknown))
    else if c = '\\' then .ok { s with mode := .escape start chars unknown }
    else .ok { s with mode := .string start (c :: chars) unknown }
  | .escape start chars unknown =>
    match Token.unescape? c with
    | some meant => .ok { s with mode := .string start (meant :: chars) unknown }
    | none => .ok { s with mode := .string start chars (unknown.or (some c)) }

/-- Reads a character and moves past it. -/
def step (s : Scan) (c : Char) : Except ParseError Scan :=
  (s.read c).map fun next => { next with position := s.position.after c }

/-- Reads characters in order, up to the first fault. -/
def run (s : Scan) (chars : List Char) : Except ParseError Scan :=
  chars.foldlM step s

/-- Ends the reading where the text ends. -/
def finish (s : Scan) : Except ParseError (List Form) :=
  match s.mode with
  | .string start _ _ => .error ⟨start, .unterminatedString⟩
  | .escape start _ _ => .error ⟨start, .unterminatedEscape⟩
  | _ =>
    match s.opened with
    | list :: _ => .error ⟨list.position, .unterminatedList list.kind⟩
    | [] => .ok s.endToken.forms.reverse

/-- Ends the reading at a byte that belongs to no character. -/
def stopAtByte (s : Scan) : ParseError :=
  ⟨s.position, .invalidByte s.position.offset⟩

end Scan

/-- The forms that a decoded text spells. -/
def Form.parseDecoded (text : Text.Decoded) : Except ParseError (List Form) := do
  let s ← Scan.start.run text.chars
  if text.complete then s.finish else .error s.stopAtByte

/-- The forms that a byte sequence spells. -/
def Form.parse (bytes : Text.Bytes) : Except ParseError (List Form) :=
  Form.parseDecoded (Text.decode bytes)

/-- A line of input as one implicit list in round brackets, at the beginning of the text. -/
def Form.parseLine (bytes : Text.Bytes) : Except ParseError Form :=
  (Form.parse bytes).map (.list .start .sexpr)

end QLisp
