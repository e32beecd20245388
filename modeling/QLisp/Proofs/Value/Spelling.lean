import QLisp.Proofs.Form.Reading
import QLisp.Proofs.Number.Numeral
import QLisp.Proofs.Text.Quoted
import QLisp.Value.OfForm

/-!
Printed values read back.

A value that is built from atoms and lists is printed as a form that is read as the same value, apart
from strings in which the printer escapes more than the reader understands, among them all that are no
text.
-/

namespace QLisp

open Grammar

variable {v v' : Value} {place : Position} {name : String} {chars : List Char}

namespace Value

/-- A name that is read as a symbol. -/
def Nameable (name : String) : Prop :=
  Token.classify .start name.toList = .symbol name

/-- A value built from finite numbers, symbols, strings, truth values, operations and lists. -/
inductive Plain : Value → Prop where
  | number {x : Number} (finite : x.isFinite) : Plain (.number x)
  | symbol {name : String} (nameable : Nameable name) : Plain (.symbol name)
  | string (bytes : Text.Bytes) : Plain (.string bytes)
  | bool (b : Bool) : Plain (.bool b)
  | operation (p : Primitive) : Plain (.primitive p)
  | list (kind : ListKind) {items : List Value} (inner : ∀ v ∈ items, Plain v) :
    Plain (.list kind items)

mutual

/-- The strings in a value, functions apart. -/
def strings : Value → List Text.Bytes
  | .string bytes => [bytes]
  | .list _ items => stringsAll items
  | _ => []

/-- The strings in some values. -/
def stringsAll : List Value → List Text.Bytes
  | [] => []
  | v :: rest => v.strings ++ stringsAll rest

end

/-- All strings in a value are texts of characters that string literals hold as they are printed. -/
def Legible (v : Value) : Prop :=
  ∀ bytes ∈ v.strings, Text.Quotable bytes

mutual

/-- A value in which strings that are not legible have become errors is another one. -/
def Rereads : Value → Value → Prop
  | .string bytes, v' =>
    Text.Quotable bytes ∧ v' = .string bytes ∨
      ¬ Text.Quotable bytes ∧ ∃ place letter, v' = .error (.malformedSource (Text.encode
        (Position.render place ++ ": " ++ ("unknown escape sequence \\" ++ letter ++ " in string"))))
  | .list kind items, v' => ∃ items', v' = .list kind items' ∧ RereadsAll items items'
  | v, v' => v' = v

/-- Values in which strings that are not legible have become errors are others, in order. -/
def RereadsAll : List Value → List Value → Prop
  | [], others => others = []
  | v :: rest, others => ∃ v' rest', others = v' :: rest' ∧ v.Rereads v' ∧ RereadsAll rest rest'

end

/-- Some values are legible when the first is and the others are. -/
theorem legible_cons {rest : List Value} {kind : ListKind} :
    (Value.list kind (v :: rest)).Legible ↔ v.Legible ∧ (Value.list kind rest).Legible := by
  simp only [Legible, strings, stringsAll, List.mem_append]
  exact ⟨fun all => ⟨fun bytes here => all bytes (.inl here), fun bytes here => all bytes (.inr here)⟩,
    fun both bytes => (·.elim (both.1 bytes) (both.2 bytes))⟩

mutual

/-- What is read back is the same just when all strings are legible. -/
theorem Rereads.eq_iff : ∀ {v v' : Value}, v.Rereads v' → (v' = v ↔ v.Legible)
  | .string bytes, v', rereads => by
    have whole : (Value.string bytes).Legible ↔ Text.Quotable bytes := by
      simp [Legible, strings]
    rw [Rereads] at rereads
    rw [whole]
    rcases rereads with ⟨legible, rfl⟩ | ⟨illegible, _, _, rfl⟩
    -- A legible text is read back as it is, and an illegible one as a failure.
    · exact iff_of_true rfl legible
    · exact iff_of_false (nomatch ·) illegible
  | .list kind items, v', rereads => by
    rw [Rereads] at rereads
    obtain ⟨items', rfl, inner⟩ := rereads
    -- A list is read back as itself when its elements are.
    rw [← RereadsAll.eq_iff kind inner, Value.list.injEq, and_iff_right rfl]
  | .number _, _, rereads | .symbol _, _, rereads | .bool _, _, rereads | .builtin _, _, rereads
  | .lambda .., _, rereads | .error _, _, rereads | .bare _, _, rereads => by
    rw [Rereads] at rereads
    · exact iff_of_true rereads (by simp [Legible, strings])
    all_goals simp

/-- What is read back for some values is the same just when all strings in them are legible. -/
theorem RereadsAll.eq_iff (kind : ListKind) : ∀ {items items' : List Value},
    RereadsAll items items' → (items' = items ↔ (Value.list kind items).Legible)
  | [], items', rereads => by
    rw [RereadsAll] at rereads
    exact iff_of_true rereads (by simp [Legible, strings, stringsAll])
  | v :: rest, items', rereads => by
    rw [RereadsAll] at rereads
    obtain ⟨v', rest', rfl, first, others⟩ := rereads
    rw [List.cons.injEq, legible_cons, first.eq_iff, RereadsAll.eq_iff kind others]

end

/-- Values are printed with a space after the first of several. -/
theorem spellAll_cons (v w : Value) (others : List Value) (rest : Text.Bytes) :
    spellAll (v :: w :: others) rest = v.spell (Text.encode " " ++ spellAll (w :: others) rest) := rfl

/-- A value is printed as some characters, which are read as it wherever a token may end after them. -/
structure Spelled (v : Value) (chars : List Char) : Prop where
  /-- The bytes of the characters come before what follows them. -/
  shown (rest : Text.Bytes) : v.spell rest = Text.encode (String.ofList chars) ++ rest
  /-- The characters spell a form that is read as the value. -/
  read (place : Position) (rest : List Char) (forms : List Form) : EndsToken rest →
    Spells (place.past chars) rest forms →
    ∃ form, v.Rereads (form.toValue Primitive.all) ∧ Spells place (chars ++ rest) (form :: forms)

/-- A value that is printed as one token is read as it when the token means it. -/
theorem Spelled.token (shown : ∀ rest, v.spell rest = Text.encode (String.ofList chars) ++ rest)
    (nonempty : chars ≠ []) (inside : ∀ c ∈ chars, ¬ Token.isDelimiter c)
    (means : ∀ place, ∃ atom, Means place chars atom ∧ v.Rereads (atom.toValue Primitive.all)) :
    v.Spelled chars where
  shown := shown
  read place rest forms ends later := by
    obtain ⟨atom, means, rereads⟩ := means place
    exact ⟨.atom place atom, rereads, .token nonempty inside ends means later⟩

/-- A finite number is printed as its digits. -/
theorem spelled_number {x : Number} (finite : x.isFinite) : (Value.number x).Spelled x.toChars := by
  -- The digits of a number, its sign and its point are no delimiters.
  have numeric := Number.numeric_toChars finite
  have plain : Number.numeralChars.all (!Token.isDelimiter ·) := by decide +kernel
  refine .token (fun _ => rfl) ?_ ?_ fun place => ?_
  · obtain ⟨sign, _, point, _, digit, rest, _, _, same⟩ := numeric
    simp [same]
  · intro c member
    simpa using List.all_eq_true.mp plain c (Number.toChars_chars finite c member)
  · exact ⟨_, .number numeric (Number.ofText?_toChars finite), by simp [Rereads, Atom.toValue]⟩

/-- A name that is read as a symbol is a token of the characters of symbols, at any place. -/
theorem Nameable.means (nameable : Nameable name) : name.toList ≠ [] ∧ Symbolic name.toList ∧
    ∀ place, Means place name.toList (.symbol name) := by
  have nonempty : name.toList ≠ [] := by
    intro empty
    rw [Nameable, empty] at nameable
    cases nameable
  have means := means_classify .start nonempty
  rw [nameable] at means
  -- The token means a symbol, so it is textual, and no truth value.
  generalize written : name.toList = token at means
  generalize same : Atom.symbol name = atom at means
  cases means with
  | symbol symbolic textual notTrue notFalse free =>
    exact ⟨written ▸ nonempty, symbolic, fun place => .symbol symbolic textual notTrue notFalse free⟩
  | _ => cases same

/-- A symbol is printed as its name. -/
theorem spelled_symbol (nameable : Nameable name) : (Value.symbol name).Spelled name.toList := by
  obtain ⟨nonempty, symbolic, means⟩ := nameable.means
  refine .token (fun rest => by rw [spell, String.ofList_toList]) nonempty ?_ fun place => ?_
  · exact fun c member => not_isDelimiter (List.all_eq_true.mp (all_isSymbolChar_iff.mpr symbolic) c member)
  · exact ⟨_, means place, by simp [Rereads, Atom.toValue]⟩

/-- An operation is printed as its name. -/
theorem spelled_operation (p : Primitive) : (Value.primitive p).Spelled p.name.toList := by
  have shown : (Builtin.primitive p).shown = p.name := by
    cases p <;> rfl
  have known : Vocabulary.meaning? Primitive.all p.name = some p := p.ofName?_name
  have inside := List.all_eq_true.mp p.name_symbolic.2.1
  refine .token (fun rest => ?_) ?_ ?_ fun place => ?_
  · rw [primitive, spell, shown, String.ofList_toList]
  · cases p <;> decide
  · exact fun c member => not_isDelimiter (inside c member)
  · exact ⟨_, .reserved p, by simp [Value.primitive, Rereads, Atom.toValue, known]⟩

/-- A truth value is printed as a word. -/
theorem spelled_bool (b : Bool) : (Value.bool b).Spelled (if b then "true" else "false").toList := by
  have plain : (if b then "true" else "false").toList.all (!Token.isDelimiter ·) := by
    cases b <;> decide +kernel
  refine .token (fun rest => by rw [spell, String.ofList_toList]) (by cases b <;> decide)
    (fun c member => by simpa using List.all_eq_true.mp plain c member) fun place => ?_
  cases b with
  | true => exact ⟨_, .yes, by simp [Rereads, Atom.toValue]⟩
  | false => exact ⟨_, .no, by simp [Rereads, Atom.toValue]⟩

/-- A string is printed between quotation marks, and read as an error if it is not legible. -/
theorem spelled_string (bytes : Text.Bytes) : (Value.string bytes).Spelled
    ('"' :: (Text.runes bytes).flatMap Text.Rune.escape ++ ['"']) where
  shown _ := rfl
  read place rest forms _ later := by
    obtain ⟨atom, literal, legible, illegible⟩ := literal_quotedBytes place bytes
    refine ⟨.atom place atom, ?_, .string literal later⟩
    rw [Rereads]
    -- A byte string that cannot be quoted reads back as an error in its place.
    by_cases fine : Text.Quotable bytes
    · obtain ⟨text, rfl, same⟩ := legible fine
      exact .inl ⟨fine, congrArg Value.string same.symm⟩
    · obtain ⟨letter, rfl⟩ := illegible fine
      exact .inr ⟨fine, place, letter, rfl⟩

/-- Values that are spelled by characters are so with spaces between them. -/
theorem spelled_items {items : List Value} (spelled : ∀ v ∈ items, ∃ chars, v.Spelled chars) :
    ∃ chars, (∀ rest, spellAll items rest = Text.encode (String.ofList chars) ++ rest) ∧
      ∀ place, ∃ forms, RereadsAll items (Form.toValues Primitive.all forms) ∧
        Spells place chars forms := by
  -- By induction on the values; a token may end before the space and at the end.
  induction items with
  | nil => exact ⟨[], fun _ => rfl, fun place => ⟨[], rfl, .nil place⟩⟩
  | cons v others ih =>
    obtain ⟨first, fine⟩ := spelled v (by simp)
    cases others with
    | nil =>
      refine ⟨first, fine.shown, fun place => ?_⟩
      obtain ⟨form, rereads, spells⟩ := fine.read place [] [] (by simp [EndsToken]) (.nil _)
      -- The last value is followed by nothing.
      rw [List.append_nil] at spells
      exact ⟨[form], ⟨_, [], rfl, rereads, rfl⟩, spells⟩
    | cons w more =>
      -- The others are spelled behind a space.
      obtain ⟨later, shown, read⟩ := ih fun u member => spelled u (by simp [member])
      refine ⟨first ++ ' ' :: later, fun rest => ?_, fun place => ?_⟩
      · have blank : Text.encode " " = Text.encode (String.ofList [' ']) := rfl
        rw [spellAll_cons, fine.shown, shown, blank, ← List.append_assoc, ← List.append_assoc,
          ← Text.encode_append, ← Text.encode_append, ← String.ofList_append, ← String.ofList_append,
          List.append_assoc, List.singleton_append]
      · have blank : Text.isSpace ' ' := by decide
        obtain ⟨forms, rest, inner⟩ := read ((place.past first).past [' '])
        obtain ⟨form, rereads, spells⟩ := fine.read place _ _
          (by simp [EndsToken, Token.isDelimiter, blank]) (.space blank inner)
        exact ⟨form :: forms, ⟨_, _, rfl, rereads, rest⟩, spells⟩

/-- A plain value is printed as characters that are read as it. -/
theorem Plain.spelled (plain : v.Plain) : ∃ chars, v.Spelled chars := by
  induction plain with
  | number finite => exact ⟨_, spelled_number finite⟩
  | symbol nameable => exact ⟨_, spelled_symbol nameable⟩
  | string bytes => exact ⟨_, spelled_string bytes⟩
  | bool b => exact ⟨_, spelled_bool b⟩
  | operation p => exact ⟨_, spelled_operation p⟩
  | @list kind items _ ih =>
    obtain ⟨inner, shown, read⟩ := spelled_items ih
    refine ⟨kind.opener :: inner ++ [kind.closer], fun rest => ?_, fun place rest forms _ later => ?_⟩
    -- The brackets are part of the spelling.
    · have bracketed : kind.opener.toString ++ String.ofList inner ++ kind.closer.toString =
          String.ofList (kind.opener :: inner ++ [kind.closer]) := by
        apply String.toList_inj.mp
        simp
      rw [spell, shown, ← List.append_assoc, ← List.append_assoc, ← Text.encode_append,
        ← Text.encode_append, bracketed]
    · -- The elements are read behind the opening bracket, each after the one before it.
      obtain ⟨children, rereads, nested⟩ := read (place.past [kind.opener])
      exact ⟨.list place kind children, ⟨_, rfl, rereads⟩, .list nested later⟩

/-- A plain value is printed as one form, which is read as the value apart from illegible strings. -/
theorem Plain.reads_back (plain : v.Plain) : ∃ v',
    (Form.parse v.render).map (Form.toValues Primitive.all) = .ok [v'] ∧
      v.Rereads v' ∧ (v' = v ↔ v.Legible) := by
  obtain ⟨chars, spelled⟩ := plain.spelled
  obtain ⟨form, rereads, spells⟩ := spelled.read .start [] [] (by simp [EndsToken]) (.nil _)
  have text : v.render = Text.encode (String.ofList chars) := by
    rw [render, spelled.shown, List.append_nil]
  have read : Form.parse v.render = .ok [form] := by
    rw [text]
    refine Form.parse_encode_iff.mpr ⟨chars, [], ?_, ?_, .inl rfl⟩
    · rw [String.toList_ofList, List.append_nil]
    · rw [List.append_nil] at spells
      exact spells
  exact ⟨form.toValue Primitive.all, by rw [read]; rfl, rereads, rereads.eq_iff⟩

/-- A plain value is the same as itself. -/
theorem Plain.same_self (plain : v.Plain) : v.same v := by
  induction plain with
  | number finite =>
    rename_i x
    -- A finite number has a magnitude below that of infinity, so it is no NaN.
    have number : x.isNaN = false := by
      have finite : x.magnitude < Number.infiniteMagnitude := of_decide_eq_true finite
      simp [Number.isNaN, finite.le]
    simp [same, Number.equal, number]
  | symbol | string | bool | operation => simp [same, Value.primitive]
  | @list kind items _ ih =>
    -- By induction on the elements, each of which is the same as itself.
    have inner : sameAll items items := by
      clear * - ih
      induction items with
      -- Nothing in an empty list differs from itself.
      | nil => rfl
      | cons v rest inner =>
        rw [sameAll, ih v (by simp), inner fun w member => ih w (by simp [member])]
        rfl
    rw [same, inner, beq_self_eq_true, Bool.and_true]

end Value
end QLisp
