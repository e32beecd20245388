import QLisp.Proofs.Form.Enclosure
import QLisp.Proofs.Value.Alike

/-!
Diagnostics of a text between brackets.

A text that is put between brackets is read as the same expressions, apart from its diagnostics: these
give other places. A diagnostic can be told from any other by its place and its complaint, so nothing
else changes as long as no failure from elsewhere has the same message.
-/

namespace QLisp

/-- A complaint about a place in a text. -/
def Failure.diagnostic (place : Position) (complaint : String) : Failure :=
  .malformedSource (Text.encode (place.render ++ ": " ++ complaint))

/-- The failures inside the expressions of a text: its diagnostics. -/
def Text.diagnostics (bytes : Bytes) : List Failure :=
  match Form.parse bytes with
  | .ok forms => Value.failuresAll (Form.toValues Primitive.all forms)
  | .error _ => []

/-- Failures are the same but for the places of a text's own diagnostics, moved between brackets. -/
inductive Failure.Enclosed (bytes : Text.Bytes) : FailureRel where
  /-- The same failure. -/
  | same (e : Failure) : Enclosed bytes e e
  /-- The same complaint about the same token of the text. -/
  | moved (place : Position) (complaint : String)
      (own : diagnostic place complaint ∈ Text.diagnostics bytes) :
    Enclosed bytes (diagnostic place complaint) (diagnostic place.enclosed complaint)

/-! ### Places in messages -/

namespace Position

/-- The characters of a place: its line, a colon and its column. -/
theorem toList_render (p : Position) :
    p.render.toList = Nat.toDigits 10 p.line ++ ':' :: Nat.toDigits 10 p.column := by
  simp [render, Nat.toString_eq_repr, Nat.toList_repr]

/-- Before the first colon two texts are the same when the whole texts are. -/
theorem split_colon {first first' rest rest' : List Char} (plain : ':' ∉ first)
    (plain' : ':' ∉ first') (same : first ++ ':' :: rest = first' ++ ':' :: rest') :
    first = first' ∧ rest = rest' := by
  -- By induction on the first text, in which no character is a colon.
  induction first generalizing first' with
  | nil =>
    cases first' with
    | nil => exact ⟨rfl, (List.cons.inj same).2⟩
    -- A text that ends before the other one would have a colon in its place.
    | cons c others =>
      have colon : ':' = c := (List.cons.inj same).1
      exact absurd (colon ▸ List.mem_cons_self) plain'
  | cons c others ih =>
    cases first' with
    | nil =>
      have colon : c = ':' := (List.cons.inj same).1
      exact absurd (colon ▸ List.mem_cons_self) plain
    | cons c' others' =>
      obtain ⟨rfl, later⟩ := List.cons.inj same
      simp only [List.mem_cons, not_or] at plain plain'
      obtain ⟨rfl, rfl⟩ := ih plain.2 plain'.2 later
      exact ⟨rfl, rfl⟩

/-- No numeral has a colon. -/
theorem colon_notMem_toDigits (n : Nat) : ':' ∉ Nat.toDigits 10 n := by
  intro member
  have digit := Nat.isDigit_of_mem_toDigits (by decide) (by decide) member
  exact absurd digit (by decide)

/-- A number can be read off its numeral. -/
theorem toDigits_injective {n n' : Nat} (same : Nat.toDigits 10 n = Nat.toDigits 10 n') : n = n' := by
  rw [← Nat.ofDigitChars_ten_toDigits (n := n), same, Nat.ofDigitChars_ten_toDigits]

end Position

namespace Failure

/-- A diagnostic can be told from any other by its line, its column and its complaint. -/
theorem diagnostic_inj {p p' : Position} {complaint complaint' : String} :
    diagnostic p complaint = diagnostic p' complaint' ↔
      p.line = p'.line ∧ p.column = p'.column ∧ complaint = complaint' := by
  constructor
  · intro same
    have message : (p.render ++ ": " ++ complaint).toList = (p'.render ++ ": " ++ complaint').toList :=
      congrArg String.toList (Text.encode_inj.mp (congrArg Failure.message same))
    have colon : ": ".toList = [':', ' '] := rfl
    simp only [String.toList_append, Position.toList_render, colon, List.append_assoc,
      List.cons_append] at message
    -- The first colon ends the line and the second one the column.
    obtain ⟨line, message⟩ := Position.split_colon (Position.colon_notMem_toDigits _)
      (Position.colon_notMem_toDigits _) message
    obtain ⟨column, message⟩ := Position.split_colon (Position.colon_notMem_toDigits _)
      (Position.colon_notMem_toDigits _) message
    refine ⟨Position.toDigits_injective line, Position.toDigits_injective column, ?_⟩
    exact String.toList_inj.mp (List.cons.inj message).2
  · rintro ⟨line, column, rfl⟩
    -- The place is rendered from its line and its column only.
    rw [diagnostic, diagnostic, Position.render, Position.render, line, column]

/-- Between brackets diagnostics can be told apart as before. -/
theorem diagnostic_enclosed_inj {p p' : Position} {complaint complaint' : String} :
    diagnostic p.enclosed complaint = diagnostic p'.enclosed complaint' ↔
      diagnostic p complaint = diagnostic p' complaint' := by
  -- On each line the columns stay different.
  have places : p.enclosed.line = p'.enclosed.line ∧ p.enclosed.column = p'.enclosed.column ↔
      p.line = p'.line ∧ p.column = p'.column := by
    simp only [Position.enclosed]
    constructor
    · rintro ⟨line, column⟩
      refine ⟨line, ?_⟩
      rw [line] at column
      split at column <;> omega
    · rintro ⟨line, column⟩
      rw [line, column]
      exact ⟨rfl, rfl⟩
  rw [diagnostic_inj, diagnostic_inj, ← and_assoc, places, and_assoc]

/-- No diagnostic says that a file cannot be loaded. -/
theorem loading_ne_diagnostic (path : Text.Bytes) (message : String) (place : Position)
    (complaint : String) :
    malformedSource (Text.encode "load " ++ path ++ Text.encode (": " ++ message)) ≠
      diagnostic place complaint := by
  -- Both messages would have to begin with the same character.
  intro same
  have text := congrArg (fun e => (Text.decode e.message).chars) same
  have load : "load ".toList = ['l', 'o', 'a', 'd', ' '] := rfl
  simp only [malformedSource, diagnostic, List.append_assoc, Text.decode_encode_append,
    Text.decode_encode, String.toList_append, Position.toList_render, load, List.cons_append] at text
  -- A diagnostic begins with a digit.
  cases digits : Nat.toDigits 10 place.line with
  | nil => exact Nat.toDigits_ne_nil digits
  | cons c rest =>
    rw [digits, List.cons_append] at text
    have first : 'l' = c := (List.cons.inj text).1
    have member : c ∈ Nat.toDigits 10 place.line := digits ▸ List.mem_cons_self
    have digit := Nat.isDigit_of_mem_toDigits (by decide) (by decide) member
    rw [← first] at digit
    exact absurd digit (by decide)

/-! ### Failures that are told from the diagnostics of a text -/

/-- A failure is among some diagnostics, and the other one is the same with its place moved. -/
def Moved (told told' : List Failure) (e e' : Failure) : Prop :=
  e ∈ told ∧ e' ∈ told' ∧
    ∃ place complaint, e = diagnostic place complaint ∧ e' = diagnostic place.enclosed complaint

/-- Diagnostics of a text are related to those between brackets, and other failures to themselves. -/
def Told (told told' : List Failure) : FailureRel := fun e e' =>
  Moved told told' e e' ∨ e = e' ∧ (∀ f, ¬ Moved told told' e f) ∧ ∀ f, ¬ Moved told told' f e

variable {told told' : List Failure}

/-- Evaluation cannot tell the diagnostics of a text from those between brackets. -/
theorem faithful_told : (Told told told').Faithful where
  exact {e e' f f'} first second := by
    rcases first with moved | ⟨rfl, apart, apart'⟩
    · rcases second with moved' | ⟨rfl, apart, apart'⟩
      · obtain ⟨_, _, p, complaint, rfl, rfl⟩ := moved
        obtain ⟨_, _, p', complaint', rfl, rfl⟩ := moved'
        exact diagnostic_enclosed_inj.symm
      · -- A failure that is moved is not one that stays the same, on either side.
        constructor
        · rintro rfl
          exact absurd moved (apart _)
        · rintro rfl
          exact absurd moved (apart' _)
    · rcases second with moved | ⟨rfl, _, _⟩
      · constructor
        · rintro rfl
          exact absurd moved (apart _)
        · rintro rfl
          exact absurd moved (apart' _)
      · exact Iff.rfl
  evaluation {e} other := by
    -- What evaluation or loading reports is no diagnostic, so it stays the same.
    refine .inr ⟨rfl, ?_, ?_⟩
    · rintro f ⟨_, _, p, complaint, rfl, _⟩
      exact other rfl
    · rintro f ⟨_, _, p, complaint, _, rfl⟩
      exact other rfl
  loading path message := by
    refine .inr ⟨rfl, ?_, ?_⟩
    · rintro f ⟨_, _, p, complaint, same, _⟩
      exact loading_ne_diagnostic path message p complaint same
    · rintro f ⟨_, _, p, complaint, _, same⟩
      exact loading_ne_diagnostic path message _ complaint same

/-- A failure that is no diagnostic of the text, on its own or between brackets, stays the same. -/
theorem told_self {e : Failure} (apart : e ∉ told) (apart' : e ∉ told') : Told told told' e e :=
  .inr ⟨rfl, fun _ moved => apart moved.1, fun _ moved => apart' moved.2.1⟩

/-- Failures that are told apart are the same but for the place of a diagnostic. -/
theorem Told.enclosed {bytes : Text.Bytes} {e e' : Failure}
    (related : Told (Text.diagnostics bytes) told' e e') : Enclosed bytes e e' := by
  rcases related with ⟨own, _, place, complaint, rfl, rfl⟩ | ⟨rfl, _⟩
  · exact .moved place complaint own
  · exact .same e

end Failure

/-! ### Expressions -/

namespace Grammar

open Failure (Told)
open Value (Alike AlikeAll failuresAll)

variable {told told' : List Failure} {place : Position} {chars : List Char} {atom : Atom}
  {forms : List Form}

/-- A diagnostic is like the one that is moved. -/
theorem alike_malformed {complaint : String}
    (before : ∀ e ∈ ((Token.malformed place complaint).toValue Primitive.all).failures, e ∈ told)
    (after : ∀ e ∈ (((Token.malformed place complaint).enclosed place).toValue
      Primitive.all).failures, e ∈ told') :
    Alike (Told told told') ((Token.malformed place complaint).toValue Primitive.all)
      (((Token.malformed place complaint).enclosed place).toValue Primitive.all) := by
  rw [Atom.enclosed_malformed] at after ⊢
  have here : Failure.diagnostic place complaint ∈ told := before _ List.mem_cons_self
  have there : Failure.diagnostic place.enclosed complaint ∈ told' := after _ List.mem_cons_self
  exact .error (.inl ⟨here, there, place, complaint, rfl, rfl⟩)

/-- What a token means is like what it means between brackets. -/
theorem Means.alike (means : Means place chars atom)
    (before : ∀ e ∈ (atom.toValue Primitive.all).failures, e ∈ told)
    (after : ∀ e ∈ ((atom.enclosed place).toValue Primitive.all).failures, e ∈ told') :
    Alike (Told told told') (atom.toValue Primitive.all)
      ((atom.enclosed place).toValue Primitive.all) := by
  -- What is no number or no symbol is a diagnostic of its token, and everything else is the same.
  cases means with
  | yes => exact .bool true
  | no => exact .bool false
  | number numeric spelled => exact .number _
  | noNumber numeric missing => exact alike_malformed before after
  | reserved p =>
    have known : Vocabulary.meaning? Primitive.all p.name = some p := p.ofName?_name
    simp only [Atom.enclosed, Atom.toValue, known]
    exact .builtin _
  | symbol symbolic textual notTrue notFalse free => exact .symbol _
  | noSymbol textual foreign => exact alike_malformed before after

/-- What a string means is like what it means between brackets. -/
theorem Literal.alike (literal : Literal place chars atom)
    (before : ∀ e ∈ (atom.toValue Primitive.all).failures, e ∈ told)
    (after : ∀ e ∈ ((atom.enclosed place).toValue Primitive.all).failures, e ∈ told') :
    Alike (Told told told') (atom.toValue Primitive.all)
      ((atom.enclosed place).toValue Primitive.all) := by
  cases literal with
  | string quotes => exact .string _
  | malformed quotes => exact alike_malformed before after

/-- The expressions that characters spell are like those that they spell between brackets. -/
theorem Spells.alike (spells : Spells place chars forms)
    (before : ∀ e ∈ failuresAll (Form.toValues Primitive.all forms), e ∈ told)
    (after : ∀ e ∈ failuresAll (Form.toValues Primitive.all (forms.map Form.enclosed)), e ∈ told') :
    AlikeAll (Told told told') (Form.toValues Primitive.all forms)
      (Form.toValues Primitive.all (forms.map Form.enclosed)) := by
  -- By induction on the grammar.
  induction spells with
  | nil => exact .nil
  | space blank later ih => exact ih before after
  | comment line later ih => exact ih before after
  | token nonempty inside ends means later ih =>
    simp only [List.map_cons, Form.enclosed, Form.toValues, Form.toValue, failuresAll,
      List.forall_mem_append] at before after ⊢
    exact .cons (means.alike before.1 after.1) (ih before.2 after.2)
  | string literal later ih =>
    simp only [List.map_cons, Form.enclosed, Form.toValues, Form.toValue, failuresAll,
      List.forall_mem_append] at before after ⊢
    exact .cons (literal.alike before.1 after.1) (ih before.2 after.2)
  | @list p kind inner rest children forms nested later ihNested ih =>
    simp only [List.map_cons, Form.enclosed, Form.toValues, Form.toValue, failuresAll,
      Value.failures, List.forall_mem_append] at before after ⊢
    exact .cons (.list kind (ihNested before.1 after.1)) (ih before.2 after.2)

end Grammar

/-- The expressions of a text are like those of the text between brackets. -/
theorem Form.alike_enclosed {bytes : Text.Bytes} {forms : List Form}
    (read : Form.parse bytes = .ok forms) :
    Value.AlikeAll (Failure.Told (Text.diagnostics bytes) (Text.diagnostics (Text.enclosed bytes)))
      (Form.toValues Primitive.all forms) (Form.toValues Primitive.all (forms.map Form.enclosed)) := by
  have there := Form.parse_enclosed read
  obtain ⟨text, rfl⟩ := Form.exists_text_of_parse read
  obtain ⟨body, last, _, spells, _⟩ := Form.parse_encode_iff.mp read
  refine spells.alike ?_ ?_
  · simp [Text.diagnostics, read]
  · simp [Text.diagnostics, there, Form.toValues, Form.toValue, Value.failuresAll, Value.failures]

end QLisp
