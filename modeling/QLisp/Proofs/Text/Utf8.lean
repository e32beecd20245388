import QLisp.Text.Utf8

/-!
Decoding undoes encoding.

Every character is decoded from exactly the bytes that spell it, so a byte sequence is well formed
when it is the encoding of a text, and what is decoded of other bytes does not depend on what
stands before them. The runes of a byte sequence are the characters of a text when the sequence is
well formed, and only then.
-/

namespace QLisp.Text

/-- A byte continues a character when its two high bits are 1 and 0. -/
theorem isContinuation_iff {b : UInt8} : isContinuation b ↔ 128 ≤ b.toNat ∧ b.toNat < 192 := by
  simp [isContinuation, UInt8.le_iff_toNat_le, UInt8.lt_iff_toNat_lt]

/-- A byte from 80 up spells no character alone. -/
theorem not_small {a : UInt8} (large : 128 ≤ a.toNat) : ¬ a < 128 := by
  simpa only [UInt8.lt_iff_toNat_lt, UInt8.reduceToNat, Nat.not_lt] using large

/-- Two bytes spell a code point from 80 to 7FF. -/
theorem twoBytes?_eq_some {a b : UInt8} {point : Nat} : twoBytes? a b = some point ↔
    194 ≤ a.toNat ∧ a.toNat < 224 ∧ 128 ≤ b.toNat ∧ b.toNat < 192 ∧
      (a.toNat - 192) * 64 + b.toNat % 64 = point := by
  -- The conditions on the bytes are inequalities between numbers.
  simp only [twoBytes?, Bool.and_eq_true, decide_eq_true_eq, isContinuation_iff, codePoint, payload,
    UInt8.le_iff_toNat_le, UInt8.lt_iff_toNat_lt, List.foldl_cons, List.foldl_nil,
    UInt8.reduceToNat]
  split
  · simp only [Option.some.injEq]
    omega
  · simp only [reduceCtorEq, false_iff]
    omega

/-- Two bytes spell no code point when the first begins a longer character. -/
theorem twoBytes?_eq_none {a b : UInt8} (large : 224 ≤ a.toNat) : twoBytes? a b = none := by
  rw [Option.eq_none_iff_forall_ne_some]
  intro point found
  have := twoBytes?_eq_some.mp found
  omega

/-- Three bytes spell a code point from 800 to FFFF that is no surrogate. -/
theorem threeBytes?_eq_some {a b c : UInt8} {point : Nat} : threeBytes? a b c = some point ↔
    224 ≤ a.toNat ∧ a.toNat < 240 ∧ 128 ≤ b.toNat ∧ b.toNat < 192 ∧
      (a.toNat = 224 → 160 ≤ b.toNat) ∧ (a.toNat = 237 → b.toNat < 160) ∧
      128 ≤ c.toNat ∧ c.toNat < 192 ∧
      ((a.toNat - 224) * 64 + b.toNat % 64) * 64 + c.toNat % 64 = point := by
  -- The second byte has tighter bounds after two of the first bytes.
  have first : (a = 224) ↔ a.toNat = 224 := UInt8.toNat_inj.symm
  have last : (a = 237) ↔ a.toNat = 237 := UInt8.toNat_inj.symm
  simp only [threeBytes?, Bool.and_eq_true, decide_eq_true_eq, isContinuation_iff, codePoint, payload,
    UInt8.le_iff_toNat_le, UInt8.lt_iff_toNat_lt, List.foldl_cons, List.foldl_nil, first, last]
  split <;> split <;> split <;> simp_all <;> omega

/-- Three bytes spell no code point when the first begins a longer character. -/
theorem threeBytes?_eq_none {a b c : UInt8} (large : 240 ≤ a.toNat) : threeBytes? a b c = none := by
  rw [Option.eq_none_iff_forall_ne_some]
  intro point found
  have := threeBytes?_eq_some.mp found
  omega

/-- Four bytes spell a code point from 10000 to 10FFFF. -/
theorem fourBytes?_eq_some {a b c d : UInt8} {point : Nat} : fourBytes? a b c d = some point ↔
    240 ≤ a.toNat ∧ a.toNat < 245 ∧ 128 ≤ b.toNat ∧ b.toNat < 192 ∧
      (a.toNat = 240 → 144 ≤ b.toNat) ∧ (a.toNat = 244 → b.toNat < 144) ∧
      128 ≤ c.toNat ∧ c.toNat < 192 ∧ 128 ≤ d.toNat ∧ d.toNat < 192 ∧
      (((a.toNat - 240) * 64 + b.toNat % 64) * 64 + c.toNat % 64) * 64 + d.toNat % 64 = point := by
  have first : (a = 240) ↔ a.toNat = 240 := UInt8.toNat_inj.symm
  have last : (a = 244) ↔ a.toNat = 244 := UInt8.toNat_inj.symm
  simp only [fourBytes?, Bool.and_eq_true, decide_eq_true_eq, isContinuation_iff, codePoint, payload,
    UInt8.le_iff_toNat_le, UInt8.lt_iff_toNat_lt, List.foldl_cons, List.foldl_nil, first, last]
  split <;> split <;> split <;> simp_all <;> omega

/-- A code point that is no surrogate and not too large is the one of its character. -/
theorem toNat_ofNat {point : Nat} (valid : point < 55296 ∨ 57343 < point ∧ point < 1114112) :
    (Char.ofNat point).val.toNat = point := by
  rw [Char.ofNat, dif_pos (show point.isValidChar from valid)]
  rfl

/-- A byte below 80 spells its character. -/
theorem encodeChar_one {a : UInt8} (small : a < 128) :
    String.utf8EncodeChar (Char.ofNat a.toNat) = [a] := by
  have bound : a.toNat < 128 := UInt8.lt_iff_toNat_lt.mp small
  have value : (Char.ofNat a.toNat).val.toNat = a.toNat := toNat_ofNat (.inl (by omega))
  simp [String.utf8EncodeChar, value, show a.toNat ≤ 127 by omega]

/-- Two bytes spell the character of their code point. -/
theorem encodeChar_two {a b : UInt8} {point : Nat} (found : twoBytes? a b = some point) :
    String.utf8EncodeChar (Char.ofNat point) = [a, b] := by
  have bounds := twoBytes?_eq_some.mp found
  have value : (Char.ofNat point).val.toNat = point := toNat_ofNat (.inl (by omega))
  rw [String.utf8EncodeChar, value, if_neg (by omega), if_pos (by omega)]
  simp only [List.cons.injEq, and_true, ← UInt8.toNat_inj, UInt8.toNat_ofNat']
  omega

/-- Three bytes spell the character of their code point. -/
theorem encodeChar_three {a b c : UInt8} {point : Nat} (found : threeBytes? a b c = some point) :
    String.utf8EncodeChar (Char.ofNat point) = [a, b, c] := by
  have bounds := threeBytes?_eq_some.mp found
  have value : (Char.ofNat point).val.toNat = point := toNat_ofNat (by omega)
  rw [String.utf8EncodeChar, value, if_neg (by omega), if_neg (by omega), if_pos (by omega)]
  simp only [List.cons.injEq, and_true, ← UInt8.toNat_inj, UInt8.toNat_ofNat']
  omega

/-- Four bytes spell the character of their code point. -/
theorem encodeChar_four {a b c d : UInt8} {point : Nat} (found : fourBytes? a b c d = some point) :
    String.utf8EncodeChar (Char.ofNat point) = [a, b, c, d] := by
  have bounds := fourBytes?_eq_some.mp found
  have value : (Char.ofNat point).val.toNat = point := toNat_ofNat (by omega)
  rw [String.utf8EncodeChar, value, if_neg (by omega), if_neg (by omega), if_neg (by omega)]
  simp only [List.cons.injEq, and_true, ← UInt8.toNat_inj, UInt8.toNat_ofNat']
  omega

variable {bytes rest : Bytes} {point : Nat}

/-- The bytes that lead with a character, by its code point, and the bytes after it. -/
inductive Leads : Bytes → Nat → Bytes → Prop
  /-- One byte. -/
  | one {a : UInt8} {rest : Bytes} (small : a < 128) : Leads (a :: rest) a.toNat rest
  /-- Two bytes. -/
  | two {a b : UInt8} {rest : Bytes} {point : Nat} (found : twoBytes? a b = some point) :
    Leads (a :: b :: rest) point rest
  /-- Three bytes. -/
  | three {a b c : UInt8} {rest : Bytes} {point : Nat} (found : threeBytes? a b c = some point) :
    Leads (a :: b :: c :: rest) point rest
  /-- Four bytes. -/
  | four {a b c d : UInt8} {rest : Bytes} {point : Nat} (found : fourBytes? a b c d = some point) :
    Leads (a :: b :: c :: d :: rest) point rest

/-- The leading bytes are those that spell the character. -/
theorem Leads.spelled (leads : Leads bytes point rest) :
    bytes = String.utf8EncodeChar (Char.ofNat point) ++ rest := by
  cases leads with
  | one small => rw [encodeChar_one small]; rfl
  | two found => rw [encodeChar_two found]; rfl
  | three found => rw [encodeChar_three found]; rfl
  | four found => rw [encodeChar_four found]; rfl

/-- The first of two bytes that spell a code point spells none alone. -/
theorem not_small_of_two {a b : UInt8} (found : twoBytes? a b = some point) : ¬ a < 128 := by
  have bounds := twoBytes?_eq_some.mp found
  exact not_small (by omega)

/-- No fewer of three bytes that spell a code point spell one. -/
theorem not_shorter_of_three {a b c : UInt8} (found : threeBytes? a b c = some point) :
    ¬ a < 128 ∧ twoBytes? a b = none := by
  have bounds := threeBytes?_eq_some.mp found
  exact ⟨not_small (by omega), twoBytes?_eq_none (by omega)⟩

/-- No fewer of four bytes that spell a code point spell one. -/
theorem not_shorter_of_four {a b c d : UInt8} (found : fourBytes? a b c d = some point) :
    ¬ a < 128 ∧ twoBytes? a b = none ∧ threeBytes? a b c = none := by
  have bounds := fourBytes?_eq_some.mp found
  exact ⟨not_small (by omega), twoBytes?_eq_none (by omega), threeBytes?_eq_none (by omega)⟩

/-- The leading bytes are decoded together. -/
theorem Leads.decoded (leads : Leads bytes point rest) (chars : List Char) :
    decodeAfter chars bytes = decodeAfter (Char.ofNat point :: chars) rest := by
  -- The shapes are tried in the order of their lengths, and the bytes have no shorter one.
  rw [decodeAfter.eq_def]
  cases leads with
  | one small => simp only [small, if_true]
  | two found => simp only [not_small_of_two found, if_false, found]
  | three found =>
    obtain ⟨large, two⟩ := not_shorter_of_three found
    simp only [large, if_false, two, found]
  | four found =>
    obtain ⟨large, two, three⟩ := not_shorter_of_four found
    simp only [large, if_false, two, three, found]

/-- The leading bytes are one rune. -/
theorem Leads.runes (leads : Leads bytes point rest) :
    Text.runes bytes = .char (Char.ofNat point) :: Text.runes rest := by
  -- The shapes are tried in the same order as when characters are decoded.
  rw [Text.runes.eq_def]
  cases leads with
  | one small => simp only [small, if_true]
  | two found => simp only [not_small_of_two found, if_false, found]
  | three found =>
    obtain ⟨large, two⟩ := not_shorter_of_three found
    simp only [large, if_false, two, found]
  | four found =>
    obtain ⟨large, two, three⟩ := not_shorter_of_four found
    simp only [large, if_false, two, three, found]

/-- The bytes of a character lead with it. -/
theorem leads_encodeChar (c : Char) (rest : Bytes) :
    Leads (String.utf8EncodeChar c ++ rest) c.val.toNat rest := by
  -- The number of bytes depends on the size of the code point, which is never that of a surrogate.
  have valid : c.val.toNat < 55296 ∨ 57343 < c.val.toNat ∧ c.val.toNat < 1114112 := c.valid
  rw [String.utf8EncodeChar]
  generalize c.val.toNat = point at valid
  -- One byte is the code point itself.
  by_cases one : point ≤ 127
  · have byte : (UInt8.ofNat point).toNat = point := by
      rw [UInt8.toNat_ofNat']
      omega
    have small : UInt8.ofNat point < 128 := by
      rw [UInt8.lt_iff_toNat_lt, byte]
      exact Nat.lt_succ_of_le one
    have leads : Leads (UInt8.ofNat point :: rest) (UInt8.ofNat point).toNat rest := .one small
    rw [byte] at leads
    rw [if_pos one]
    exact leads
  rw [if_neg one]
  -- Two bytes have five and six bits of it, three have four more, and four have the rest.
  by_cases two : point ≤ 2047
  · rw [if_pos two]
    apply Leads.two (twoBytes?_eq_some.mpr _)
    simp only [UInt8.toNat_ofNat']
    omega
  rw [if_neg two]
  by_cases three : point ≤ 65535
  · rw [if_pos three]
    apply Leads.three (threeBytes?_eq_some.mpr _)
    simp only [UInt8.toNat_ofNat']
    omega
  · rw [if_neg three]
    apply Leads.four (fourBytes?_eq_some.mpr _)
    simp only [UInt8.toNat_ofNat']
    omega

/-- The bytes of a character are decoded as that character. -/
theorem decodeAfter_encodeChar (c : Char) (found : List Char) (rest : Bytes) :
    decodeAfter found (String.utf8EncodeChar c ++ rest) = decodeAfter (c :: found) rest := by
  have same : Char.ofNat c.val.toNat = c := Char.ofNat_toNat c
  rw [(leads_encodeChar c rest).decoded, same]

/-- A byte sequence is empty, or it begins with the bytes of a character, or nothing of it is decoded. -/
theorem decodeAfter_cases (bytes : Bytes) :
    bytes = [] ∨ (∃ c rest, bytes = String.utf8EncodeChar c ++ rest) ∨
      ∀ found, decodeAfter found bytes = ⟨found.reverse, false⟩ := by
  -- The shapes are tried in the order of their lengths, as decoding does.
  rcases bytes with _ | ⟨a, rest⟩
  · exact .inl rfl
  right
  by_cases small : a < 128
  · exact .inl ⟨_, rest, (Leads.one small).spelled⟩
  rcases rest with _ | ⟨b, rest⟩
  · right
    intro found
    simp only [decodeAfter, small, if_false]
  cases two : twoBytes? a b with
  -- A shape that fits begins a character.
  | some point => exact .inl ⟨_, rest, (Leads.two two).spelled⟩
  | none =>
    rcases rest with _ | ⟨c, rest⟩
    · right
      intro found
      simp only [decodeAfter, small, if_false, two]
    cases three : threeBytes? a b c with
    | some point => exact .inl ⟨_, rest, (Leads.three three).spelled⟩
    | none =>
      rcases rest with _ | ⟨d, rest⟩
      · right
        intro found
        simp only [decodeAfter, small, if_false, two, three]
      cases four : fourBytes? a b c d with
      | some point => exact .inl ⟨_, rest, (Leads.four four).spelled⟩
      | none =>
        right
        intro found
        simp only [decodeAfter, small, if_false, two, three, four]

/-- What holds of no bytes, of bytes that cannot be decoded, and after one more character, holds of all. -/
theorem bytes_induction {motive : Bytes → Prop} (nil : motive [])
    (char : ∀ c rest, motive rest → motive (String.utf8EncodeChar c ++ rest))
    (stuck : ∀ bytes, (∀ found, decodeAfter found bytes = ⟨found.reverse, false⟩) → motive bytes)
    (bytes : Bytes) : motive bytes := by
  -- A character has at least one byte, so the bytes after it are fewer.
  induction size : bytes.length using Nat.strongRecOn generalizing bytes with
  | ind count ih =>
    rcases decodeAfter_cases bytes with rfl | ⟨c, rest, rfl⟩ | stop
    · exact nil
    · apply char c rest (ih rest.length _ rest rfl)
      rw [← size, List.length_append, String.length_utf8EncodeChar]
      have := c.utf8Size_pos
      omega
    · exact stuck bytes stop

/-- Characters already found stand in front of what is decoded. -/
theorem decodeAfter_eq (found : List Char) (bytes : Bytes) :
    decodeAfter found bytes = ⟨found.reverse ++ (decode bytes).chars, (decode bytes).complete⟩ := by
  -- One character is decoded at a time, and it joins the found ones whatever they are.
  induction bytes using bytes_induction generalizing found with
  | nil => exact congrArg (Decoded.mk · true) (List.append_nil _).symm
  | char c rest ih =>
    rw [decode, decodeAfter_encodeChar, decodeAfter_encodeChar, ih (c :: found), ih [c]]
    simp
  | stuck bytes stop => simp [decode, stop]

/-- The bytes of a character are decoded as that character, and the others as if they stood alone. -/
theorem decode_encodeChar (c : Char) (rest : Bytes) :
    decode (String.utf8EncodeChar c ++ rest) =
      ⟨c :: (decode rest).chars, (decode rest).complete⟩ := by
  rw [decode, decodeAfter_encodeChar, decodeAfter_eq]
  rfl

/-- The bytes of a text are decoded as the text, and what stands after them as if it stood alone. -/
theorem decode_encode_append (text : String) (rest : Bytes) :
    decode (encode text ++ rest) =
      ⟨text.toList ++ (decode rest).chars, (decode rest).complete⟩ := by
  rw [encode]
  induction text.toList with
  | nil => rfl
  | cons c chars ih =>
    rw [List.flatMap_cons, List.append_assoc, decode_encodeChar, ih]
    rfl

/-- The bytes of a text are decoded as the text. -/
theorem decode_encode (text : String) : decode (encode text) = ⟨text.toList, true⟩ := by
  have whole := decode_encode_append text []
  rw [List.append_nil] at whole
  exact whole.trans (congrArg (Decoded.mk · true) (List.append_nil _))

/-- The bytes of a text that follows another follow its bytes. -/
theorem encode_append (first second : String) :
    encode (first ++ second) = encode first ++ encode second := by
  simp [encode]

/-- Texts with the same bytes are the same. -/
theorem encode_inj {first second : String} : encode first = encode second ↔ first = second := by
  refine ⟨fun same => ?_, congrArg encode⟩
  have chars : first.toList = second.toList := by
    have decoded := congrArg (fun bytes => (decode bytes).chars) same
    rwa [decode_encode, decode_encode] at decoded
  exact String.toList_inj.mp chars

/-- The bytes of a character are one rune. -/
theorem runes_encodeChar (c : Char) (rest : Bytes) :
    runes (String.utf8EncodeChar c ++ rest) = .char c :: runes rest := by
  have same : Char.ofNat c.val.toNat = c := Char.ofNat_toNat c
  rw [(leads_encodeChar c rest).runes, same]

/-- The bytes of a text are its characters as runes. -/
theorem runes_encode (text : String) : runes (encode text) = text.toList.map .char := by
  rw [encode]
  induction text.toList with
  | nil => rfl
  | cons c chars ih => rw [List.flatMap_cons, runes_encodeChar, ih, List.map_cons]

/-- Bytes that begin with no character begin with a stray byte. -/
theorem runes_stuck (stop : ∀ found, decodeAfter found bytes = ⟨found.reverse, false⟩) :
    ∃ b later, runes bytes = .stray b :: later := by
  -- Each shape that would be a character would be decoded as one.
  have unspelled : ∀ {point rest}, ¬ Leads bytes point rest := by
    intro point rest leads
    have one := leads.decoded []
    rw [stop, decodeAfter_eq [_] rest] at one
    exact absurd (congrArg Decoded.chars one) (by simp)
  rw [runes.eq_def]
  split
  · cases stop []
  rename_i a rest
  refine ⟨a, ?_⟩
  split
  · rename_i small
    exact absurd (.one small) unspelled
  repeat' split
  all_goals first
    | exact ⟨_, rfl⟩
    | exact absurd (.two (by assumption)) unspelled
    | exact absurd (.three (by assumption)) unspelled
    | exact absurd (.four (by assumption)) unspelled

/-- The runes of a byte sequence are characters just when it spells these. -/
theorem runes_eq_map_char {chars : List Char} :
    runes bytes = chars.map .char ↔ bytes = encode (String.ofList chars) := by
  constructor
  · intro same
    -- One character is read at a time, and a stray byte is none.
    induction bytes using bytes_induction generalizing chars with
    | nil =>
      obtain rfl : chars = [] := List.map_eq_nil_iff.mp same.symm
      rfl
    | char c rest ih =>
      -- The first character is read, and the others after it.
      rw [runes_encodeChar] at same
      obtain ⟨c', chars', rfl, first, later⟩ := List.map_eq_cons_iff.mp same.symm
      obtain rfl := Rune.char.inj first
      rw [ih later.symm]
      simp [encode]
    | stuck bytes stop =>
      obtain ⟨b, later, begins⟩ := runes_stuck stop
      obtain ⟨_, _, _, stray, _⟩ := List.map_eq_cons_iff.mp (same.symm.trans begins)
      cases stray
  -- Conversely a text is read as its characters.
  · rintro rfl
    rw [runes_encode, String.toList_ofList]

/-- What is decoded is spelled by the bytes in front, and by all of them unless some are malformed. -/
theorem exists_of_decode (bytes : Bytes) :
    ∃ rest, bytes = encode (String.ofList (decode bytes).chars) ++ rest ∧
      ((decode bytes).complete → rest = []) := by
  -- By induction on the decoding: the next character is spelled by its bytes, and the rest by those
  -- behind them.
  induction bytes using bytes_induction with
  | nil => exact ⟨[], rfl, fun _ => rfl⟩
  | char c more ih =>
    obtain ⟨rest, same, ends⟩ := ih
    rw [decode_encodeChar]
    refine ⟨rest, ?_, ends⟩
    calc String.utf8EncodeChar c ++ more
        = String.utf8EncodeChar c ++ (encode (String.ofList (decode more).chars) ++ rest) := by
          rw [← same]
      _ = encode (String.ofList (c :: (decode more).chars)) ++ rest := by simp [encode]
  | stuck bytes stop =>
    rw [decode, stop]
    exact ⟨bytes, by simp [encode], nofun⟩

/-- A byte sequence is well formed when it is the encoding of a text. -/
theorem complete_iff {bytes : Bytes} {chars : List Char} :
    decode bytes = ⟨chars, true⟩ ↔ bytes = encode (String.ofList chars) := by
  constructor
  · intro whole
    obtain ⟨rest, same, ends⟩ := exists_of_decode bytes
    rw [whole] at same ends
    rw [same, ends rfl, List.append_nil]
  · rintro rfl
    rw [decode_encode, String.toList_ofList]

end QLisp.Text
