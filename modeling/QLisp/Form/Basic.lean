import QLisp.Form.Position
import QLisp.Number.Basic
import QLisp.Text.Quoted

/-! Forms: the trees that source text spells, before any name is given a meaning. -/

namespace QLisp

/-- The two kinds of list: one that is evaluated as a call, and one that is quoted. -/
inductive ListKind where
  /-- A list in round brackets, which evaluation reduces. -/
  | sexpr
  /-- A list in curly brackets, which evaluation leaves alone. -/
  | qexpr
  deriving DecidableEq, Repr

namespace ListKind

/-- The bracket that opens a list. -/
def opener : ListKind → Char
  | .sexpr => '('
  | .qexpr => '\x7b'

/-- The bracket that closes a list. -/
def closer : ListKind → Char
  | .sexpr => ')'
  | .qexpr => '\x7d'

/-- The word that diagnostics use for a list. -/
def label : ListKind → String
  | .sexpr => "sexpr"
  | .qexpr => "qexpr"

end ListKind

/-- An indivisible form. -/
inductive Atom where
  /-- A number, with the numeral that spells it. -/
  | number (numeral : String) (value : Number)
  /-- A string, with its escapes replaced. -/
  | string (contents : String)
  /-- A name for the program to bind. -/
  | symbol (name : String)
  /-- One of the two truth values. -/
  | bool (value : Bool)
  /-- A name reserved for a primitive operation. -/
  | reserved (name : String)
  /-- A token that means nothing, with the diagnostic that says why. -/
  | malformed (message : String)
  /-- A form of no known kind, which no source text spells, with the place it claims to be at. -/
  | unknown (text : String) (line column : Int)
  deriving DecidableEq, Repr

namespace Atom

/-- The word that diagnostics use for an atom. -/
def label : Atom → String
  | .number .. => "number"
  | .string _ => "string"
  | .symbol _ => "symbol"
  | .bool _ => "bool"
  | .reserved _ => "prelude"
  | .malformed _ => "syntax-error"
  | .unknown .. => "unknown"

/-- The text that an atom carries. -/
def text : Atom → String
  | .number numeral _ => numeral
  | .string contents => contents
  | .symbol name => name
  | .bool value => if value then "true" else "false"
  | .reserved name => name
  | .malformed message => message
  | .unknown text .. => text

/-- The characters of an atom in source form. -/
def chars : Atom → List Char
  | .string contents => Text.quotedChars contents.toList
  | .malformed message =>
    "#<syntax-error ".toList ++ Text.quotedChars message.toList ++ ['>']
  | atom => atom.text.toList

end Atom

/-- A form with the place where it begins. -/
inductive Form where
  /-- An indivisible form. -/
  | atom (position : Position) (leaf : Atom)
  /-- A bracketed list of forms. -/
  | list (position : Position) (kind : ListKind) (children : List Form)
  deriving Repr

namespace Form

/-- The place where a form begins. -/
def position : Form → Position
  | .atom position _ => position
  | .list position _ _ => position

/-- The word that diagnostics use for a form. -/
def label : Form → String
  | .atom _ leaf => leaf.label
  | .list _ kind _ => kind.label

mutual

/-- The characters of a form in source form, followed by others. -/
def spell : Form → List Char → List Char
  | .atom _ leaf, rest => leaf.chars ++ rest
  | .list _ kind children, rest => kind.opener :: spellAll children (kind.closer :: rest)

/-- The characters of forms with a space between any two, followed by others. -/
def spellAll : List Form → List Char → List Char
  | [], rest => rest
  | [form], rest => form.spell rest
  | form :: forms, rest => form.spell (' ' :: spellAll forms rest)

end

/-- The text of a form in source form. -/
def render (form : Form) : String :=
  String.ofList (form.spell [])

end Form
end QLisp
