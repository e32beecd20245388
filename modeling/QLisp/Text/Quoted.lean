import QLisp.Text.Printable
import QLisp.Text.Utf8

/-! Quoted text: the form in which a string is shown, with every unprintable character escaped. -/

namespace QLisp.Text

/-- A number in lower-case hexadecimal with at least `width` digits. -/
def hexDigits (width n : Nat) : List Char :=
  let digits := Nat.toDigits 16 n
  List.replicate (width - digits.length) '0' ++ digits

/-- The letter of a character that has an escape of its own. -/
def shortEscape? (c : Char) : Option Char :=
  match c.toNat with
  | 0x07 => some 'a'
  | 0x08 => some 'b'
  | 0x09 => some 't'
  | 0x0A => some 'n'
  | 0x0B => some 'v'
  | 0x0C => some 'f'
  | 0x0D => some 'r'
  | _ => none

/-- A character as it stands inside quotation marks. -/
def escapeChar (c : Char) : List Char :=
  if c = '"' || c = '\\' then ['\\', c]
  else if isPrintable c then [c]
  else match shortEscape? c with
    | some letter => ['\\', letter]
    | none =>
      -- The width of the hexadecimal form follows the size of the code point.
      if c.toNat < 0x20 || c.toNat = 0x7F then '\\' :: 'x' :: hexDigits 2 c.toNat
      else if c.toNat < 0x10000 then '\\' :: 'u' :: hexDigits 4 c.toNat
      else '\\' :: 'U' :: hexDigits 8 c.toNat

/-- The characters of a quoted text, quotation marks included. -/
def quotedChars (chars : List Char) : List Char :=
  '"' :: chars.flatMap escapeChar ++ ['"']

/-- A text between quotation marks, with unprintable characters escaped. -/
def quoted (text : String) : String :=
  String.ofList (quotedChars text.toList)

/-- A rune as it stands inside quotation marks, a stray byte by its value. -/
def Rune.escape : Rune → List Char
  | .char c => escapeChar c
  | .stray b => '\\' :: 'x' :: hexDigits 2 b.toNat

/-- A byte string between quotation marks, with unprintable characters and stray bytes escaped. -/
def quotedBytes (bytes : Bytes) : String :=
  String.ofList ('"' :: (runes bytes).flatMap Rune.escape ++ ['"'])

end QLisp.Text
