/-!
UTF-8 text.

The characters of a source text are those spelled by its bytes, up to the first byte that spells none.
A string of a program may hold any bytes, and is read rune by rune.
-/

namespace QLisp.Text

/-- The bytes of a text, in order. -/
abbrev Bytes := List UInt8

/-- The characters of a byte sequence up to its first malformed byte. -/
structure Decoded where
  /-- The characters of the longest well-formed start. -/
  chars : List Char
  /-- Whether the whole sequence was well formed. -/
  complete : Bool
  deriving Repr, DecidableEq

/-- Whether a byte continues a multi-byte character. -/
def isContinuation (b : UInt8) : Bool :=
  0x80 ≤ b && b < 0xC0

/-- The low six bits that a continuation byte contributes. -/
def payload (b : UInt8) : Nat :=
  b.toNat % 0x40

/-- The code point of a lead byte's low bits followed by continuation bytes. -/
def codePoint (lead : Nat) (following : List UInt8) : Nat :=
  following.foldl (fun point b => point * 0x40 + payload b) lead

/-- The code point of a two-byte character, refusing the overlong spellings of ASCII. -/
def twoBytes? (a b : UInt8) : Option Nat :=
  -- A lead byte below C2 could only spell a code point that fits in one byte.
  if 0xC2 ≤ a && a < 0xE0 && isContinuation b then
    some (codePoint (a.toNat - 0xC0) [b])
  else none

/-- The code point of a three-byte character, refusing overlong spellings and surrogates. -/
def threeBytes? (a b c : UInt8) : Option Nat :=
  -- After E0 a byte below A0 is overlong; after ED a byte from A0 up spells a surrogate.
  let low : UInt8 := if a = 0xE0 then 0xA0 else 0x80
  let high : UInt8 := if a = 0xED then 0xA0 else 0xC0
  if 0xE0 ≤ a && a < 0xF0 && low ≤ b && b < high && isContinuation c then
    some (codePoint (a.toNat - 0xE0) [b, c])
  else none

/-- The code point of a four-byte character, refusing overlong spellings and points above 10FFFF. -/
def fourBytes? (a b c d : UInt8) : Option Nat :=
  -- After F0 a byte below 90 is overlong; after F4 a byte from 90 up exceeds the last code point.
  let low : UInt8 := if a = 0xF0 then 0x90 else 0x80
  let high : UInt8 := if a = 0xF4 then 0x90 else 0xC0
  if 0xF0 ≤ a && a < 0xF5 && low ≤ b && b < high && isContinuation c && isContinuation d then
    some (codePoint (a.toNat - 0xF0) [b, c, d])
  else none

/-- Decodes a byte sequence up to its first malformed byte, after the characters already found. -/
def decodeAfter (found : List Char) : Bytes → Decoded
  | [] => ⟨found.reverse, true⟩
  | a :: rest =>
    if a < 0x80 then decodeAfter (Char.ofNat a.toNat :: found) rest
    else match rest with
      | [] => ⟨found.reverse, false⟩
      | b :: rest =>
        match twoBytes? a b with
        | some point => decodeAfter (Char.ofNat point :: found) rest
        | none => match rest with
          | [] => ⟨found.reverse, false⟩
          | c :: rest =>
            match threeBytes? a b c with
            | some point => decodeAfter (Char.ofNat point :: found) rest
            | none => match rest with
              | [] => ⟨found.reverse, false⟩
              | d :: rest =>
                match fourBytes? a b c d with
                | some point => decodeAfter (Char.ofNat point :: found) rest
                | none => ⟨found.reverse, false⟩

/-- Decodes a byte sequence up to its first malformed byte. -/
def decode (bytes : Bytes) : Decoded :=
  decodeAfter [] bytes

/-- The bytes that spell a text. -/
def encode (text : String) : Bytes :=
  text.toList.flatMap String.utf8EncodeChar

/-- A rune of a byte sequence: a character, or a byte that belongs to none. -/
inductive Rune where
  | char (c : Char)
  | stray (b : UInt8)
  deriving DecidableEq, Repr

/-- The character that a rune counts as, a stray byte counting as the replacement character. -/
def Rune.value : Rune → Char
  | .char c => c
  | .stray _ => '\uFFFD'

/-- The runes of a byte sequence. Where no character is spelled, one byte is passed. -/
def runes : Bytes → List Rune
  | [] => []
  | a :: rest =>
    if a < 0x80 then .char (Char.ofNat a.toNat) :: runes rest
    else match rest with
      | [] => [.stray a]
      | b :: rest₂ =>
        match twoBytes? a b with
        | some point => .char (Char.ofNat point) :: runes rest₂
        | none => match rest₂ with
          | [] => .stray a :: runes [b]
          | c :: rest₃ =>
            match threeBytes? a b c with
            | some point => .char (Char.ofNat point) :: runes rest₃
            | none => match rest₃ with
              | [] => .stray a :: runes [b, c]
              | d :: rest₄ =>
                match fourBytes? a b c d with
                | some point => .char (Char.ofNat point) :: runes rest₄
                | none => .stray a :: runes (b :: c :: d :: rest₄)

/-- A byte sequence as a text, with the replacement character in the place of each stray byte. -/
def repaired (bytes : Bytes) : String :=
  String.ofList ((runes bytes).map Rune.value)

end QLisp.Text
