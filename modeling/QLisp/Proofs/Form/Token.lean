import QLisp.Proofs.Form.Grammar

/-!
What tokens mean.

A token is classified by the first rule of several that applies. The grammar gives each meaning with
its own condition instead. The two agree: the conditions exclude each other, and every token has a
meaning.
-/

namespace QLisp

/-- What comes after the place in a diagnostic. -/
theorem Position.drop_render (place : Position) (text : String) :
    String.ofList ((place.render ++ text).toList.drop place.render.toList.length) = text := by
  rw [String.toList_append, List.drop_left, String.ofList_toList]

namespace Text

/-- The code points in some ranges, one by one. -/
def Ranges.points (ranges : Ranges) : List Nat :=
  ranges.flatMap fun (first, last) => List.range' first (last + 1 - first)

/-- A code point that lies in some ranges is one of their points. -/
theorem Ranges.mem_points {ranges : Ranges} {point : Nat} (inside : ranges.contains point) :
    point ∈ ranges.points := by
  -- By induction on the ranges, which are in ascending order.
  induction ranges with
  | nil => cases inside
  | cons range later ih =>
    obtain ⟨first, last⟩ := range
    rw [contains] at inside
    split at inside
    · cases inside
    -- The point is in the first range or in a later one.
    · split at inside
      · refine List.mem_append_left _ (List.mem_range'_1.mpr ?_)
        omega
      · exact List.mem_append_right _ (ih inside)

end Text

namespace Grammar

variable {place : Position} {token : List Char} {atom : Atom}

/-- A decimal digit is one of ten characters. -/
theorem isDigitOf_ten {c : Char} : Number.isDigitOf 10 c ↔ '0' ≤ c ∧ c ≤ '9' := by
  -- The letters of larger bases have values that are not below ten.
  simp only [Number.isDigitOf, Number.digitValue?]
  by_cases digit : '0' ≤ c ∧ c ≤ '9'
  · have bound : c.toNat ≤ 57 := digit.2
    simp [digit, Option.filter, show c.toNat - 48 < 10 by omega]
  -- A letter stands for ten or more.
  · have large : ∀ n, ¬ n + 10 < 10 := by omega
    simp only [Bool.and_eq_true, decide_eq_true_eq, digit, iff_false]
    split
    · contradiction
    · split
      · simp [Option.filter, large]
      · split <;> simp [Option.filter, large]

/-- A text begins with a digit when its first character is one. -/
theorem any_head_iff {digits : List Char} : digits.head?.any (Number.isDigitOf 10) ↔
    ∃ digit rest, '0' ≤ digit ∧ digit ≤ '9' ∧ digits = digit :: rest := by
  cases digits with
  | nil => simp
  | cons c rest =>
    rw [List.head?_cons, Option.any_some, isDigitOf_ten]
    simp

/-- Looking numeric is having a digit after a sign and a point, if there are any. -/
theorem looksNumeric_iff : Token.looksNumeric token ↔ Numeric token := by
  rw [Token.looksNumeric, any_head_iff]
  -- A digit comes after an optional sign and an optional point.
  constructor
  · rintro ⟨digit, rest, low, high, digits⟩
    -- What is left without its sign is the whole token or all but the first character.
    obtain ⟨sign, known, whole⟩ : ∃ sign ∈ [[], ['+'], ['-']],
        token = sign ++ (Number.splitSign token).2 := by
      unfold Number.splitSign
      split <;> simp
    rw [whole]
    split at digits
    · rename_i point
      exact ⟨sign, known, ['.'], by simp, digit, rest, low, high, by simp [point, digits]⟩
    · exact ⟨sign, known, [], by simp, digit, rest, low, high, by simp [digits]⟩
  · rintro ⟨sign, known, point, marked, digit, rest, low, high, rfl⟩
    -- A digit is neither a sign nor a point, so those are told from it.
    have other : digit ≠ '+' ∧ digit ≠ '-' ∧ digit ≠ '.' := by
      refine ⟨?_, ?_, ?_⟩ <;>
      · rintro rfl
        revert low
        decide
    refine ⟨digit, rest, low, high, ?_⟩
    -- Each sign and each point is tried.
    simp only [List.mem_cons, List.not_mem_nil, or_false] at known marked
    rcases known with rfl | rfl | rfl <;> rcases marked with rfl | rfl <;>
      simp [Number.splitSign, other]

/-- No white space is a letter, a digit or punctuation. -/
theorem isSymbolChar_space {c : Char} (blank : Text.isSpace c) : Token.isSymbolChar c = false := by
  have spaces : ∀ point ∈ Text.spaceRanges.points, Token.isSymbolChar (Char.ofNat point) = false := by
    decide +kernel
  rw [← Char.ofNat_toNat c]
  exact spaces _ (Text.Ranges.mem_points blank)

/-- The characters of symbols do not end a token. -/
theorem not_isDelimiter {c : Char} (inside : Token.isSymbolChar c) : ¬ Token.isDelimiter c := by
  intro delimits
  simp only [Token.isDelimiter, Bool.or_eq_true, decide_eq_true_eq] at delimits
  rcases delimits with (((((rfl | rfl) | rfl) | rfl) | rfl) | rfl) | blank
  iterate 6 exact absurd inside (by decide +kernel)
  rw [isSymbolChar_space blank] at inside
  cases inside

/-- Being symbolic is made of the characters that symbols are made of. -/
theorem all_isSymbolChar_iff : token.all Token.isSymbolChar ↔ Symbolic token := by
  simp only [Token.isSymbolChar, Symbolic, List.all_eq_true, Bool.or_eq_true, List.contains_iff_mem]
  grind

end Grammar

namespace Primitive

/-- Every operation is listed. -/
theorem mem_all (p : Primitive) : p ∈ all := by
  cases p <;> decide

/-- The name of an operation is reserved for it. -/
theorem ofName?_name (p : Primitive) : ofName? p.name = some p := by
  cases p <;> rfl

/-- No two operations have one name. -/
theorem name_injective {p q : Primitive} (same : p.name = q.name) : p = q := by
  have found := p.ofName?_name
  rw [same, q.ofName?_name] at found
  cases found
  rfl

/-- A name is reserved when it is the name of an operation. -/
theorem isReserved_iff {name : String} : isReserved name ↔ ∃ p : Primitive, p.name = name := by
  -- Reserved names are found in the list of all operations, which has each under its own name.
  constructor
  · intro reserved
    rw [isReserved, ofName?, List.find?_isSome] at reserved
    obtain ⟨p, _, same⟩ := reserved
    exact ⟨p, by simpa using same⟩
  · rintro ⟨p, rfl⟩
    rw [isReserved, p.ofName?_name]
    rfl

/-- The name of an operation is a token that could be a symbol, and neither a number nor a truth value. -/
theorem name_symbolic (p : Primitive) : Token.looksNumeric p.name.toList = false ∧
    p.name.toList.all Token.isSymbolChar ∧ p.name.toList ≠ "true".toList ∧
      p.name.toList ≠ "false".toList := by
  cases p <;> decide

end Primitive

namespace Grammar

variable {place : Position} {token : List Char} {atom : Atom}

/-- The text of a token is a given one when its characters are. -/
theorem ofList_eq {text : String} : String.ofList token = text ↔ token = text.toList := by
  constructor <;> rintro rfl <;> simp

/-- The text of a token is not a given one when its characters are not. -/
theorem ofList_ne {text : String} (other : token ≠ text.toList) : String.ofList token ≠ text :=
  mt ofList_eq.mp other

/-- A token that has to be a number is no truth value. -/
theorem Numeric.untrue (numeric : Numeric token) :
    token ≠ "true".toList ∧ token ≠ "false".toList := by
  have looks := looksNumeric_iff.mpr numeric
  constructor <;>
  · rintro rfl
    revert looks
    decide

/-- A token that cannot be a symbol is no truth value and no name of an operation. -/
theorem unknown_of_foreign (foreign : ¬ Symbolic token) :
    token ≠ "true".toList ∧ token ≠ "false".toList ∧ ∀ p : Primitive, token ≠ p.name.toList := by
  -- All of these consist of characters that symbols are made of.
  rw [← all_isSymbolChar_iff] at foreign
  refine ⟨?_, ?_, ?_⟩
  · rintro rfl
    exact foreign (by decide)
  · rintro rfl
    exact foreign (by decide)
  · rintro p rfl
    exact foreign p.name_symbolic.2.1

/-- A token is reserved when it is the name of an operation. -/
theorem isReserved_ofList_iff : Primitive.isReserved (String.ofList token) ↔
    ∃ p : Primitive, token = p.name.toList := by
  rw [Primitive.isReserved_iff]
  constructor <;> rintro ⟨p, same⟩
  · exact ⟨p, ofList_eq.mp same.symm⟩
  · exact ⟨p, (ofList_eq.mpr same).symm⟩

/-- A token that is the name of no operation is not reserved. -/
theorem not_isReserved (free : ∀ p : Primitive, token ≠ p.name.toList) :
    ¬ Primitive.isReserved (String.ofList token) := by
  intro known
  obtain ⟨p, same⟩ := isReserved_ofList_iff.mp known
  exact free p same

/-- A token is classified by the first of these rules that applies. -/
theorem classify_eq : Token.classify place token =
    if String.ofList token = "true" then .bool true
    else if String.ofList token = "false" then .bool false
    else if Token.looksNumeric token then
      match Number.ofText? token with
      | some value => .number (String.ofList token) value
      | none => Token.malformed place ("invalid number " ++ Text.quoted (String.ofList token))
    else if Primitive.isReserved (String.ofList token) then .reserved (String.ofList token)
    else if !token.isEmpty && token.all Token.isSymbolChar then .symbol (String.ofList token)
    else Token.malformed place ("invalid symbol " ++ Text.quoted (String.ofList token)) :=
  rfl

/-- What a token means is what it is classified as. -/
theorem Means.classify (means : Means place token atom) (nonempty : token ≠ []) :
    Token.classify place token = atom := by
  -- Each meaning excludes the rules that come before its own.
  rw [classify_eq]
  cases means with
  | yes => rfl
  | no => rfl
  -- A number neither spells a truth value nor can be anything else.
  | number numeric spelled =>
    obtain ⟨notTrue, notFalse⟩ := numeric.untrue
    rw [if_neg (ofList_ne notTrue), if_neg (ofList_ne notFalse),
      if_pos (looksNumeric_iff.mpr numeric), spelled]
  | noNumber numeric missing =>
    obtain ⟨notTrue, notFalse⟩ := numeric.untrue
    rw [if_neg (ofList_ne notTrue), if_neg (ofList_ne notFalse),
      if_pos (looksNumeric_iff.mpr numeric), missing]
  -- The name of an operation does not look like a number.
  | reserved p =>
    obtain ⟨textual, _, notTrue, notFalse⟩ := p.name_symbolic
    have known : Primitive.isReserved (String.ofList p.name.toList) :=
      isReserved_ofList_iff.mpr ⟨p, rfl⟩
    rw [if_neg (ofList_ne notTrue), if_neg (ofList_ne notFalse), if_neg (by simp [textual]),
      if_pos known, String.ofList_toList]
  -- A symbol is none of these, and its characters are all allowed.
  | symbol symbolic textual notTrue notFalse free =>
    rw [if_neg (ofList_ne notTrue), if_neg (ofList_ne notFalse),
      if_neg (mt looksNumeric_iff.mp textual), if_neg (not_isReserved free),
      if_pos (by simp [nonempty, all_isSymbolChar_iff.mpr symbolic])]
  | noSymbol textual foreign =>
    obtain ⟨notTrue, notFalse, free⟩ := unknown_of_foreign foreign
    rw [if_neg (ofList_ne notTrue), if_neg (ofList_ne notFalse),
      if_neg (mt looksNumeric_iff.mp textual), if_neg (not_isReserved free),
      if_neg (by simp [mt all_isSymbolChar_iff.mp foreign])]

/-- A token means what it is classified as. -/
theorem means_classify (place : Position) (nonempty : token ≠ []) :
    Means place token (Token.classify place token) := by
  -- The first rule that applies gives the meaning, and the ones before it do not apply.
  rw [classify_eq]
  -- The two truth values come first.
  split
  · rename_i same
    exact ofList_eq.mp same ▸ .yes
  rename_i notTrue
  split
  · rename_i same
    exact ofList_eq.mp same ▸ .no
  rename_i notFalse
  split
  -- What looks like a number may still be none that can be represented.
  · rename_i looks
    have numeric := looksNumeric_iff.mp looks
    split
    · rename_i value spelled
      exact .number numeric spelled
    · rename_i missing
      exact .noNumber numeric missing
  rename_i looks
  have textual : ¬ Numeric token := mt looksNumeric_iff.mpr looks
  -- The names of operations come before the other symbols.
  split
  · rename_i known
    obtain ⟨p, rfl⟩ := isReserved_ofList_iff.mp known
    rw [String.ofList_toList]
    exact .reserved p
  rename_i unknown
  -- Symbols and complaints are told apart by the characters.
  split
  · rename_i good
    simp only [Bool.and_eq_true] at good
    have free : ∀ p : Primitive, token ≠ p.name.toList := fun p same =>
      unknown (isReserved_ofList_iff.mpr ⟨p, same⟩)
    exact .symbol (all_isSymbolChar_iff.mp good.2) textual (mt ofList_eq.mpr notTrue)
      (mt ofList_eq.mpr notFalse) free
  · rename_i bad
    refine .noSymbol textual fun symbolic => bad ?_
    simp [nonempty, all_isSymbolChar_iff.mpr symbolic]

end Grammar
end QLisp
