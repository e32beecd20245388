import QLisp.Form.ParseError
import QLisp.Form.Token

/-!
The grammar of source text.

A text is a sequence of forms with layout around them: white space and comments. A form is a token,
a string, or forms between brackets of one kind. What a text spells is said here without a reader:
which characters make up each form, where it begins, and what a token or a string means.
-/

namespace QLisp

/-- The place after some characters. -/
def Position.past (p : Position) (chars : List Char) : Position :=
  chars.foldl Position.after p

namespace Grammar

/-- The characters that may follow a token: none, or a delimiter first. -/
def EndsToken (rest : List Char) : Prop :=
  -- A token goes on as long as it can.
  ∀ c ∈ rest.head?, Token.isDelimiter c

/-- A token that has to be a number: a digit, after a sign and a point if there are any. -/
def Numeric (token : List Char) : Prop :=
  ∃ sign ∈ [[], ['+'], ['-']], ∃ point ∈ [[], ['.']], ∃ digit rest,
    '0' ≤ digit ∧ digit ≤ '9' ∧ token = sign ++ point ++ digit :: rest

/-- A token that may be a symbol: letters, digits and some punctuation. -/
def Symbolic (token : List Char) : Prop :=
  ∀ c ∈ token, Text.isLetter c ∨ Text.isDecimalDigit c ∨ c ∈ Token.symbolPunctuation

/-- What a token means at a place. No token has two of these meanings. -/
inductive Means (place : Position) : List Char → Atom → Prop where
  /-- The truth value that holds. -/
  | yes : Means place "true".toList (.bool true)
  /-- The truth value that does not hold. -/
  | no : Means place "false".toList (.bool false)
  /-- A number. -/
  | number {token : List Char} {value : Number} (numeric : Numeric token)
      (spelled : Number.ofText? token = some value) :
      Means place token (.number (String.ofList token) value)
  /-- A token that has to be a number and spells none. -/
  | noNumber {token : List Char} (numeric : Numeric token) (missing : Number.ofText? token = none) :
      Means place token
        (Token.malformed place ("invalid number " ++ Text.quoted (String.ofList token)))
  /-- The name of a primitive operation. -/
  | reserved (p : Primitive) : Means place p.name.toList (.reserved p.name)
  /-- A name for the program to bind. -/
  | symbol {token : List Char} (symbolic : Symbolic token) (textual : ¬ Numeric token)
      (notTrue : token ≠ "true".toList) (notFalse : token ≠ "false".toList)
      (free : ∀ p : Primitive, token ≠ p.name.toList) :
      Means place token (.symbol (String.ofList token))
  /-- A token that means nothing. -/
  | noSymbol {token : List Char} (textual : ¬ Numeric token) (foreign : ¬ Symbolic token) :
      Means place token
        (Token.malformed place ("invalid symbol " ++ Text.quoted (String.ofList token)))

/-- The escapes of a string, each with the character that it stands for. -/
def escapes : List (Char × Char) :=
  [('n', '\n'), ('t', '\t'), ('r', '\r'), ('0', '\x00'), ('\\', '\\'), ('"', '"')]

/-- What stands between quotation marks: the characters meant, and the escapes that mean nothing. -/
inductive Quotes : List Char → List Char → List Char → Prop where
  /-- Nothing. -/
  | nil : Quotes [] [] []
  /-- A character that stands for itself. -/
  | plain {c : Char} {body meant unknown : List Char} (unquoted : c ≠ '"') (literal : c ≠ '\\')
      (rest : Quotes body meant unknown) : Quotes (c :: body) (c :: meant) unknown
  /-- An escape. -/
  | escape {c d : Char} {body meant unknown : List Char} (known : (c, d) ∈ escapes)
      (rest : Quotes body meant unknown) : Quotes ('\\' :: c :: body) (d :: meant) unknown
  /-- An escape that means nothing. -/
  | unknown {c : Char} {body meant unknown : List Char} (foreign : ∀ d, (c, d) ∉ escapes)
      (rest : Quotes body meant unknown) : Quotes ('\\' :: c :: body) meant (c :: unknown)

/-- What a string means at a place: the characters in it, or a complaint about its first bad escape. -/
inductive Literal (place : Position) (body : List Char) : Atom → Prop where
  /-- All escapes mean something. -/
  | string {meant : List Char} (quotes : Quotes body meant []) :
      Literal place body (.string (String.ofList meant))
  /-- Some escape means nothing. -/
  | malformed {meant unknown : List Char} {c : Char} (quotes : Quotes body meant (c :: unknown)) :
      Literal place body
        (Token.malformed place ("unknown escape sequence \\" ++ c.toString ++ " in string"))

/-- Forms with layout around them, spelled by characters from a place on. -/
inductive Spells : Position → List Char → List Form → Prop where
  /-- No forms. -/
  | nil (p : Position) : Spells p [] []
  /-- White space. -/
  | space {p : Position} {c : Char} {rest : List Char} {forms : List Form}
      (blank : Text.isSpace c) (later : Spells (p.past [c]) rest forms) :
      Spells p ([c] ++ rest) forms
  /-- A comment up to a newline. -/
  | comment {p : Position} {remark rest : List Char} {forms : List Form}
      (line : '\n' ∉ remark) (later : Spells (p.past (';' :: remark ++ ['\n'])) rest forms) :
      Spells p (';' :: remark ++ ['\n'] ++ rest) forms
  /-- A token, as long as it can be. -/
  | token {p : Position} {token rest : List Char} {atom : Atom} {forms : List Form}
      (nonempty : token ≠ []) (inside : ∀ c ∈ token, ¬ Token.isDelimiter c) (ends : EndsToken rest)
      (means : Means p token atom) (later : Spells (p.past token) rest forms) :
      Spells p (token ++ rest) (.atom p atom :: forms)
  /-- A string. -/
  | string {p : Position} {body rest : List Char} {atom : Atom} {forms : List Form}
      (literal : Literal p body atom) (later : Spells (p.past ('"' :: body ++ ['"'])) rest forms) :
      Spells p ('"' :: body ++ ['"'] ++ rest) (.atom p atom :: forms)
  /-- A list. -/
  | list {p : Position} {kind : ListKind} {inner rest : List Char} {children forms : List Form}
      (nested : Spells (p.past [kind.opener]) inner children)
      (later : Spells (p.past (kind.opener :: inner ++ [kind.closer])) rest forms) :
      Spells p (kind.opener :: inner ++ [kind.closer] ++ rest) (.list p kind children :: forms)

/-- A comment that the end of the text ends, or nothing. -/
def LastRemark (chars : List Char) : Prop :=
  chars = [] ∨ ∃ remark, '\n' ∉ remark ∧ chars = ';' :: remark

/-- The forms that a whole text spells. -/
def SpellsText (chars : List Char) (forms : List Form) : Prop :=
  ∃ body last, chars = body ++ last ∧ Spells .start body forms ∧ LastRemark last

end Grammar
end QLisp
