import QLisp.Form.ParseError
import QLisp.Form.Token
import QLisp.Text.Utf8

/-!
Reading forms by recursive descent.

A cursor is a place in the bytes of a text. Every rule of the grammar has a function that reads from a
cursor on, one character at a time, and takes up an earlier cursor to go back. No function comes with a
measure that would make it end: `none` is what one comes to that goes on forever.
-/

namespace QLisp

/-- The character that bytes begin with, if they begin with one. -/
def Text.leading? (bytes : Bytes) : Option Char :=
  -- No character takes more than four bytes.
  (decode (bytes.take 4)).chars.head?

/-- A place in the bytes of a text. -/
structure Cursor where
  /-- The whole text. -/
  source : Text.Bytes
  /-- The place in it. -/
  place : Position
  deriving DecidableEq, Repr

namespace Cursor

/-- Why reading goes no further. -/
inductive Stop where
  /-- The text has no more bytes. -/
  | endOfText
  /-- The text is no sequence of forms. -/
  | fault (error : ParseError)
  deriving DecidableEq, Repr

/-- The beginning of a text. -/
def start (source : Text.Bytes) : Cursor :=
  ⟨source, .start⟩

/-- Whether no bytes are left. -/
def atEnd (here : Cursor) : Bool :=
  here.source.length ≤ here.place.offset

/-- Reads one character, whatever it is. -/
def readChar (here : Cursor) : Except Stop (Char × Cursor) :=
  if here.atEnd then .error .endOfText
  else match Text.leading? (here.source.drop here.place.offset) with
    | some c => .ok (c, { here with place := here.place.after c })
    | none => .error (.fault ⟨here.place, .invalidByte here.place.offset⟩)

/-! ### Layout, tokens and strings -/

/-- Reads up to the end of a line. -/
def skipLine (here : Cursor) : Option Cursor :=
  match here.readChar with
  -- What is wrong here is left to whoever reads on.
  | .error _ => some here
  | .ok (c, next) => if c = '\n' then some next else next |>.skipLine
partial_fixpoint

/-- Reads white space and comments, up to what may begin a form. -/
def skipLayout (here : Cursor) : Option (Except Stop Cursor) :=
  match here.readChar with
  | .error .endOfText => some (.ok here)
  | .error stop => some (.error stop)
  | .ok (c, next) =>
    if Text.isSpace c then next |>.skipLayout
    else if c = ';' then do (← next.skipLine) |>.skipLayout
    else some (.ok here)
partial_fixpoint

/-- Reads the rest of a token, given its characters so far, last first. -/
def readToken (here : Cursor) (seen : List Char) : Option (List Char × Cursor) :=
  match here.readChar with
  -- The end of the text ends a token, and so does a byte that belongs to no character.
  | .error _ => some (seen.reverse, here)
  | .ok (c, next) =>
    if Token.isDelimiter c then some (seen.reverse, here) else next |>.readToken (c :: seen)
partial_fixpoint

/-- Reads a token as the atom that it means. -/
def readAtom (here : Cursor) : Option (Form × Cursor) := do
  let (token, next) ← here.readToken []
  return (.atom here.place (Token.classify here.place token), next)

/--
Reads the rest of a string, given its place, its characters so far, last first, and its first unknown
escape.
-/
def readString (here : Cursor) (start : Position) (seen : List Char) (unknown : Option Char) :
    Option (Except Stop (Form × Cursor)) :=
  match here.readChar with
  -- A text that ends inside a string is incomplete, and so is one that ends after a backslash.
  | .error .endOfText => some (.error (.fault ⟨start, .unterminatedString⟩))
  | .error stop => some (.error stop)
  | .ok (c, next) =>
    if c = '"' then
      some (.ok (.atom start (Token.literal start seen.reverse unknown), next))
    else if c = '\\' then
      -- The escape is read to its end before the string goes on, so that it may be a quotation mark.
      match next.readChar with
      | .error .endOfText => some (.error (.fault ⟨start, .unterminatedEscape⟩))
      | .error stop => some (.error stop)
      | .ok (escaped, later) =>
        match Token.unescape? escaped with
        | some meant => later |>.readString start (meant :: seen) unknown
        | none => later |>.readString start seen (unknown.or (some escaped))
    else next |>.readString start (c :: seen) unknown
partial_fixpoint

/-! ### Forms -/

/-- A call made while a text is read, with the place that it reads from. -/
inductive Call where
  /-- To read a form. -/
  | form (place : Position)
  /-- To read an atom. -/
  | atom (place : Position)
  deriving DecidableEq, Repr

/-- Reading that keeps a record of its calls, last first. -/
abbrev Descent :=
  ExceptT Stop (StateT (List Call) Option)

namespace Descent

/-- Records a call. -/
def record (call : Call) : Descent Unit :=
  modify (call :: ·)

/-- Reads without calls. -/
def loop {α : Type} (result : Option (Except Stop α)) : Descent α :=
  ExceptT.mk (StateT.lift result)

end Descent

mutual

/-- Reads a form, which begins right here. -/
def readForm (here : Cursor) : Descent (Form × Cursor) :=
  match here.readChar with
  | .error stop => throw stop
  | .ok (c, next) =>
    if c = '(' then next |>.readList .sexpr here.place []
    else if c = '\x7b' then next |>.readList .qexpr here.place []
    else if c = ')' || c = '\x7d' then throw (.fault ⟨here.place, .unexpectedCloser c⟩)
    else if c = '"' then .loop (next.readString here.place [] none)
    else do
      Descent.record (.atom here.place)
      -- The character is the first of the atom.
      Descent.loop (here.readAtom.map .ok)
partial_fixpoint

/-- Reads the rest of a list, given its kind, its place and the forms in it so far, last first. -/
def readList (here : Cursor) (kind : ListKind) (start : Position) (before : List Form) :
    Descent (Form × Cursor) := do
  let here ← Descent.loop here.skipLayout
  match here.readChar with
  | .error .endOfText => throw (.fault ⟨start, .unterminatedList kind⟩)
  | .error stop => throw stop
  | .ok (c, next) =>
    if c = kind.closer then return (.list start kind before.reverse, next)
    else if c = ')' || c = '\x7d' then
      throw (.fault ⟨here.place, .mismatchedCloser kind.closer c⟩)
    else
      -- The character is the first of the next form.
      Descent.record (.form here.place)
      let (child, next) ← here |>.readForm
      next |>.readList kind start (child :: before)
partial_fixpoint

end

/-- Reads the rest of a text, given the forms in it so far, last first. -/
def readForms (here : Cursor) (before : List Form) : Descent (List Form) := do
  let here ← Descent.loop here.skipLayout
  if here.atEnd then return before.reverse
  else
    Descent.record (.form here.place)
    let (form, next) ← here.readForm
    next |>.readForms (form :: before)
partial_fixpoint

/-- Reads a text from its beginning to its end, and gives the calls that this takes, last first. -/
def parse (source : Text.Bytes) : Option (Except Stop (List Form) × List Call) :=
  ((start source).readForms []).run.run []

end Cursor
end QLisp
