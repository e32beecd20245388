import QLisp.Proofs.Form.Grammar
import QLisp.Proofs.Text.Utf8

/-!
What quoted text reads back as.

A quoted text escapes more characters than a string literal knows escapes for. The characters that
come back are those that are printable or have an escape known to both. A byte that belongs to no
character has an escape that no literal knows.
-/

namespace QLisp

variable {c : Char} {chars : List Char}

/-- A character that a string literal can hold as it is quoted. -/
def Text.Legible (c : Char) : Prop :=
  Text.isPrintable c ∨ c = '\n' ∨ c = '\r' ∨ c = '\t'

/-- A rune that a string literal can hold as it is quoted. -/
def Text.Rune.Legible : Text.Rune → Prop
  | .char c => Text.Legible c
  | .stray _ => False

/-- A byte string that is a text which a string literal can hold as it is quoted. -/
def Text.Quotable (bytes : Text.Bytes) : Prop :=
  ∃ text : String, bytes = Text.encode text ∧ ∀ c ∈ text.toList, Text.Legible c

namespace Grammar

/-- A digit in hexadecimal is neither a quotation mark nor a backslash. -/
theorem plain_toDigits (n : Nat) : ∀ d ∈ Nat.toDigits 16 n, d ≠ '"' ∧ d ≠ '\\' := by
  have digit : ∀ k < 16, Nat.digitChar k ≠ '"' ∧ Nat.digitChar k ≠ '\\' := by decide
  have one : ∀ k < 16, ∀ d ∈ [Nat.digitChar k], d ≠ '"' ∧ d ≠ '\\' := fun k small d member =>
    List.mem_singleton.mp member ▸ digit k small
  -- By induction on the number; its last digit is written last.
  induction n using Nat.strongRecOn with
  | ind n ih =>
    rw [Nat.toDigits_eq_if (by decide)]
    split
    -- A number below the base is one digit.
    · exact one n (by assumption)
    · intro d member
      rcases List.mem_append.mp member with before | last
      · exact ih (n / 16) (by omega) d before
      · exact one (n % 16) (Nat.mod_lt n (by decide)) d last

/-- A number in hexadecimal has neither quotation marks nor backslashes. -/
theorem plain_hexDigits (width n : Nat) : ∀ d ∈ Text.hexDigits width n, d ≠ '"' ∧ d ≠ '\\' := by
  intro d member
  rcases List.mem_append.mp member with zero | digit
  · rw [List.eq_of_mem_replicate zero]
    decide
  · exact plain_toDigits n d digit

/-- How a character stands in a quoted text, and whether a string literal knows what it means. -/
inductive Escaped (c : Char) : List Char → Prop where
  /-- The character itself. -/
  | plain (legible : Text.Legible c) (unquoted : c ≠ '"') (literal : c ≠ '\\') : Escaped c [c]
  /-- An escape that stands for it. -/
  | known {letter : Char} (legible : Text.Legible c) (known : (letter, c) ∈ escapes) :
      Escaped c ['\\', letter]
  /-- An escape that means nothing, and perhaps digits. -/
  | unknown {letter : Char} {digits : List Char} (illegible : ¬ Text.Legible c)
      (foreign : ∀ d, (letter, d) ∉ escapes) (inert : ∀ d ∈ digits, d ≠ '"' ∧ d ≠ '\\') :
      Escaped c ('\\' :: letter :: digits)

/-- The letters of escapes that no string literal knows. -/
def foreignLetters : List Char :=
  ['a', 'b', 'v', 'f', 'x', 'u', 'U']

/-- No string literal knows an escape with such a letter. -/
theorem foreign_of_mem {letter : Char} (member : letter ∈ foreignLetters) (d : Char) :
    (letter, d) ∉ escapes := by
  intro known
  simp only [escapes, List.mem_cons, Prod.mk.injEq, List.not_mem_nil, or_false] at known
  simp only [foreignLetters, List.mem_cons, List.not_mem_nil, or_false] at member
  rcases member with rfl | rfl | rfl | rfl | rfl | rfl | rfl <;> simp at known

/-- A character has an escape of its own that is known, or one that is not and another code point. -/
theorem shortEscape?_some {letter : Char} (short : Text.shortEscape? c = some letter) :
    (letter, c) ∈ escapes ∧ Text.Legible c ∨
      letter ∈ foreignLetters ∧ c.toNat ∉ [0x0A, 0x0D, 0x09] := by
  -- A character is known by its code point.
  have at_point : ∀ {d : Char}, c.toNat = d.toNat → c = d := fun same => Char.toNat_inj.mp same
  -- Three of the escapes are read back, and the letters of the others mean something else.
  unfold Text.shortEscape? at short
  split at short <;> cases short
  case h_3 point =>
    obtain rfl : c = '\t' := at_point point
    exact .inl ⟨by decide, .inr (.inr (.inr rfl))⟩
  case h_4 point =>
    obtain rfl : c = '\n' := at_point point
    exact .inl ⟨by decide, .inr (.inl rfl)⟩
  case h_7 point =>
    obtain rfl : c = '\r' := at_point point
    exact .inl ⟨by decide, .inr (.inr (.inl rfl))⟩
  all_goals
    rename_i point
    exact .inr ⟨by decide, by rw [point]; decide⟩

/-- A character without an escape of its own is none of those that have one. -/
theorem shortEscape?_none (none : Text.shortEscape? c = none) : c.toNat ∉ [0x0A, 0x0D, 0x09] := by
  intro member
  simp only [List.mem_cons, List.not_mem_nil, or_false] at member
  rcases member with point | point | point <;>
  · rw [Text.shortEscape?, point] at none
    cases none

/-- A character that is not printable is legible only at some code points. -/
theorem illegible_of_hidden (hidden : ¬ Text.isPrintable c) (other : c.toNat ∉ [0x0A, 0x0D, 0x09]) :
    ¬ Text.Legible c := by
  rintro (printable | rfl | rfl | rfl)
  · exact hidden printable
  all_goals exact other (by decide)

/-- Every character is escaped in one of these ways. -/
theorem escaped (c : Char) : Escaped c (Text.escapeChar c) := by
  unfold Text.escapeChar
  -- Either the character is special, or it is printable, or it has a short escape or a numeric one.
  split
  · -- Quotation marks and backslashes are printable, and have escapes all the same.
    rename_i special
    simp only [Bool.or_eq_true, decide_eq_true_eq] at special
    rcases special with rfl | rfl
    · exact .known (.inl (by decide +kernel)) (by decide)
    · exact .known (.inl (by decide +kernel)) (by decide)
  rename_i special
  simp only [Bool.or_eq_true, decide_eq_true_eq, not_or] at special
  split
  · exact .plain (.inl (by assumption)) special.1 special.2
  rename_i hidden
  split
  -- A short escape is read back or begins with a letter that is unknown.
  · rename_i letter short
    rcases shortEscape?_some short with ⟨known, legible⟩ | ⟨foreign, other⟩
    · exact .known legible known
    · exact .unknown (illegible_of_hidden hidden other) (foreign_of_mem foreign) (by simp)
  · rename_i none
    have hidden := illegible_of_hidden hidden (shortEscape?_none none)
    -- The number of digits depends on the size of the code point.
    split
    · exact .unknown hidden (foreign_of_mem (by decide)) (plain_hexDigits 2 _)
    · split
      · exact .unknown hidden (foreign_of_mem (by decide)) (plain_hexDigits 4 _)
      · exact .unknown hidden (foreign_of_mem (by decide)) (plain_hexDigits 8 _)

/-- Characters without marks and backslashes stand for themselves before others. -/
theorem Quotes.prepend {inert body meant unknown : List Char}
    (plain : ∀ d ∈ inert, d ≠ '"' ∧ d ≠ '\\') (rest : Quotes body meant unknown) :
    Quotes (inert ++ body) (inert ++ meant) unknown := by
  induction inert with
  | nil => exact rest
  | cons d more ih =>
    obtain ⟨unquoted, literal⟩ := plain d (by simp)
    exact .plain unquoted literal (ih fun e member => plain e (by simp [member]))

/-- Legible runes read back as they are, and any other one leaves an escape that means nothing. -/
theorem quotes_escaped (runes : List Text.Rune) : ∃ meant unknown,
    Quotes (runes.flatMap Text.Rune.escape) meant unknown ∧
      (unknown = [] → runes = meant.map .char) ∧ (unknown = [] ↔ ∀ r ∈ runes, r.Legible) := by
  -- By induction on the runes, by the way in which the first one is escaped.
  induction runes with
  | nil => exact ⟨[], [], .nil, fun _ => rfl, by simp⟩
  | cons r rest ih =>
    obtain ⟨meant, unknown, quotes, same, legible⟩ := ih
    rw [List.flatMap_cons]
    cases r with
    | stray b =>
      -- The escape of a stray byte is the letter for one byte and its digits.
      exact ⟨_, _, .unknown (foreign_of_mem (by decide)) (quotes.prepend (plain_hexDigits 2 _)),
        (nomatch ·), by simp [Text.Rune.Legible]⟩
    | char c =>
      generalize escape : Text.Rune.escape (.char c) = spelled
      have escaped : Escaped c (Text.Rune.escape (.char c)) := escaped c
      rw [escape] at escaped
      cases escaped with
      | plain fine unquoted literal =>
        exact ⟨c :: meant, unknown, .plain unquoted literal quotes,
          fun none => by rw [same none]; rfl, by simpa [Text.Rune.Legible, fine] using legible⟩
      | known fine known =>
        exact ⟨c :: meant, unknown, .escape known quotes,
          fun none => by rw [same none]; rfl, by simpa [Text.Rune.Legible, fine] using legible⟩
      | unknown illegible foreign inert =>
        exact ⟨_, _, .unknown foreign (quotes.prepend inert), (nomatch ·),
          by simp [Text.Rune.Legible, illegible]⟩

/-- Runes between quotation marks are a literal for a text if all are legible, and else nothing. -/
theorem literal_escaped (place : Position) (runes : List Text.Rune) :
    ∃ atom, Literal place (runes.flatMap Text.Rune.escape) atom ∧
      ((∀ r ∈ runes, r.Legible) →
        ∃ meant, runes = meant.map .char ∧ atom = .string (String.ofList meant)) ∧
      ((∃ r ∈ runes, ¬ r.Legible) → ∃ letter, atom = Token.malformed place
        ("unknown escape sequence \\" ++ letter ++ " in string")) := by
  obtain ⟨meant, unknown, quotes, same, legible⟩ := quotes_escaped runes
  cases unknown with
  | nil =>
    refine ⟨_, .string quotes, fun _ => ⟨meant, same rfl, rfl⟩, fun ⟨r, member, illegible⟩ => ?_⟩
    exact absurd (legible.mp rfl r member) illegible
  | cons letter more =>
    exact ⟨_, .malformed quotes, fun fine => (nomatch legible.mpr fine), fun _ => ⟨_, rfl⟩⟩

/-- A quoted text is a literal for its characters if all are legible, and else means nothing. -/
theorem literal_quoted (place : Position) (chars : List Char) :
    ∃ atom, Literal place (chars.flatMap Text.escapeChar) atom ∧
      ((∀ c ∈ chars, Text.Legible c) → atom = .string (String.ofList chars)) ∧
      ((∃ c ∈ chars, ¬ Text.Legible c) → ∃ letter, atom = Token.malformed place
        ("unknown escape sequence \\" ++ letter ++ " in string")) := by
  obtain ⟨atom, literal, legible, illegible⟩ := literal_escaped place (chars.map .char)
  rw [List.flatMap_map] at literal
  refine ⟨atom, literal, fun fine => ?_, fun ⟨c, member, foreign⟩ => ?_⟩
  · obtain ⟨meant, same, rfl⟩ := legible (List.forall_mem_map.mpr fine)
    rw [List.map_inj_right (fun _ _ => Text.Rune.char.inj) |>.mp same]
  · exact illegible ⟨_, List.mem_map_of_mem member, foreign⟩

/-- A quoted byte string is a literal for it if it can be quoted, and else means nothing. -/
theorem literal_quotedBytes (place : Position) (bytes : Text.Bytes) :
    ∃ atom, Literal place ((Text.runes bytes).flatMap Text.Rune.escape) atom ∧
      (Text.Quotable bytes → ∃ text, atom = .string text ∧ bytes = Text.encode text) ∧
      (¬ Text.Quotable bytes → ∃ letter, atom = Token.malformed place
        ("unknown escape sequence \\" ++ letter ++ " in string")) := by
  obtain ⟨atom, literal, legible, illegible⟩ := literal_escaped place (Text.runes bytes)
  refine ⟨atom, literal, ?_, fun foreign => ?_⟩
  · rintro ⟨text, rfl, fine⟩
    rw [Text.runes_encode] at legible
    -- Every rune of a text is one of its characters.
    obtain ⟨meant, same, rfl⟩ := legible (List.forall_mem_map.mpr fine)
    exact ⟨_, rfl, Text.runes_eq_map_char.mp ((Text.runes_encode text).trans same)⟩
  · by_cases fine : ∀ r ∈ Text.runes bytes, r.Legible
    · -- Legible runes are the characters of a text, which could be quoted.
      obtain ⟨meant, same, -⟩ := legible fine
      rw [same] at fine
      refine absurd ⟨_, Text.runes_eq_map_char.mp same, ?_⟩ foreign
      rw [String.toList_ofList]
      exact fun c member => fine _ (List.mem_map_of_mem member)
    · obtain ⟨r, bad⟩ := Classical.not_forall.mp fine
      exact illegible ⟨r, Classical.not_imp.mp bad⟩

end Grammar
end QLisp
