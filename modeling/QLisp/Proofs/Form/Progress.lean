import QLisp.Proofs.Form.Descent

/-!
Reading always makes progress.

The functions that read by descent go back to earlier cursors, pass over errors and have no measure. Still
they end on all bytes. Where a form is begun something stands that begins one, so the form takes at
least a byte; where an atom is begun something stands that belongs to it. A byte that belongs to no
character is never passed, and is what the reading ends with unless a bracket before it is wrong.
-/

namespace QLisp

/-- What is wrong with characters is a bracket before their end. -/
theorem Scan.run_error_bracket {chars : List Char} {e : ParseError}
    (stuck : Scan.start.run chars = .error e) :
    e.position.offset < (Position.start.past chars).offset ∧
      ((∃ found, e.fault = .unexpectedCloser found) ∨
        ∃ expected found, e.fault = .mismatchedCloser expected found) := by
  have blames : Scan.Blames ([] ++ chars) e := Scan.run_blames stuck rfl
  have going : e.isIncomplete = false := Scan.run_error stuck
  obtain ⟨before, after, rfl, place, culprit⟩ := blames.place
  obtain ⟨position, fault⟩ := e
  -- The end of the text and bytes are no fault of the characters.
  have bracket : (∃ found, fault = .unexpectedCloser found) ∨
      ∃ expected found, fault = .mismatchedCloser expected found := by
    cases fault with
    | unexpectedCloser found => exact .inl ⟨found, rfl⟩
    | mismatchedCloser expected found => exact .inr ⟨expected, found, rfl⟩
    | invalidByte offset => exact absurd rfl (blames.notByte offset)
    | unterminatedList | unterminatedString | unterminatedEscape => cases going
  -- A character is left for the bracket, so the place is before the end of the text.
  refine ⟨?_, bracket⟩
  have some : after ≠ [] := by
    rintro rfl
    rcases bracket with ⟨found, rfl⟩ | ⟨expected, found, rfl⟩ <;> cases culprit
  rw [Position.past_append, ← place]
  exact Position.offset_lt_past _ some

namespace Cursor

variable {here there : Cursor} {c : Char} {first rest : List Char} {bytes : Text.Bytes}

/-- How reading leads from one cursor to others, one character at a time. -/
inductive Reaches (here : Cursor) : Cursor → Prop where
  /-- To where it is. -/
  | here : Reaches here here
  /-- Past one more character. -/
  | char {there next : Cursor} {c : Char} (reaches : Reaches here there)
      (read : there.readChar = .ok (c, next)) : Reaches here next

/-- The place of the first byte that belongs to no character, or else the end of the text. -/
def firstStray (bytes : Text.Bytes) : Position :=
  Position.start.past (Text.decode bytes).chars

/-- What holds where a form is begun. -/
structure BeginsForm (here : Cursor) : Prop where
  /-- Characters lead there from the beginning of the text. -/
  reached : (start here.source).Reaches here
  /-- A character stands there that is neither white space nor the beginning of a comment. -/
  character : ∃ c next, here.readChar = .ok (c, next) ∧ Text.isSpace c = false ∧ c ≠ ';'
  /-- Reading the form ends, and unless it fails it takes a byte at least and no more than there are. -/
  advances : ∀ earlier, ∃ result calls, here.readForm.run.run earlier = some (result, calls) ∧
    ∀ form next, result = .ok (form, next) → next.source = here.source ∧
      here.place.offset < next.place.offset ∧ next.place.offset ≤ here.source.length

/-- What holds where an atom is begun. -/
structure BeginsAtom (here : Cursor) : Prop where
  /-- Characters lead there from the beginning of the text. -/
  reached : (start here.source).Reaches here
  /-- A character stands there that does not delimit tokens. -/
  character : ∃ c next, here.readChar = .ok (c, next) ∧ Token.isDelimiter c = false
  /-- The token that is read has characters. -/
  token : ∃ token next, here.readToken [] = some (token, next) ∧ token ≠ []

/-- What holds of reading bytes some of which belong to no character. -/
structure StopsAtByte (bytes : Text.Bytes) (outcome : Except Stop (List Form)) : Prop where
  /-- The first of them is not read. -/
  unread : (⟨bytes, firstStray bytes⟩ : Cursor).readChar =
    .error (.fault ⟨firstStray bytes, .invalidByte (firstStray bytes).offset⟩)
  /-- No characters lead past it. -/
  unpassed : ∀ there, (start bytes).Reaches there → there.place.offset ≤ (firstStray bytes).offset
  /-- The outcome is the error for it, or that for a wrong bracket before it. -/
  outcome : ∃ e, outcome = .error (.fault e) ∧
    (e = ⟨firstStray bytes, .invalidByte (firstStray bytes).offset⟩ ∨
      e.position.offset < (firstStray bytes).offset ∧
        ((∃ found, e.fault = .unexpectedCloser found) ∨
          ∃ expected found, e.fault = .mismatchedCloser expected found))

/-! ### Where reading leads -/

/-- The characters after a cursor lead on from it. -/
theorem Reaches.past (reaches : here.Reaches there) (before : there.Before (first ++ rest)) :
    here.Reaches (there.past first) := by
  -- By induction on the characters.
  induction first generalizing there with
  | nil => exact reaches
  | cons c more ih =>
    rw [List.cons_append] at before
    exact ih (reaches.char before.readChar_cons) before.next

/-- Characters lead to every cursor that stands between two of them. -/
theorem Before.reached (before : here.Before rest) : (start here.source).Reaches here := by
  obtain ⟨source, place⟩ := here
  obtain ⟨passed, chars, same⟩ := before
  have begins : (start source).Before (passed ++ rest) := ⟨[], chars, rfl⟩
  cases (same : place = Position.start.past passed)
  exact Reaches.here.past begins

/-- Whatever is reached in a text stands before some of its characters. -/
theorem Reaches.before (reaches : (start bytes).Reaches there) :
    there.source = bytes ∧ ∃ rest, there.Before rest := by
  -- By induction on the characters that lead there.
  induction reaches with
  | here => exact ⟨rfl, _, before_start bytes⟩
  | @char there next c reaches read ih =>
    obtain ⟨source, rest, before⟩ := ih
    -- A character has been read, so there was one to read.
    cases rest with
    | nil =>
      obtain ⟨stop, stuck⟩ := before.readChar_nil
      rw [stuck] at read
      cases read
    | cons d more =>
      rw [before.readChar_cons] at read
      cases read
      exact ⟨source, more, before.next⟩

/-- A cursor does not stand behind the characters of its text. -/
theorem Before.offset_le (before : here.Before rest) :
    here.place.offset ≤ (firstStray here.source).offset := by
  obtain ⟨passed, chars, place⟩ := before
  rw [firstStray, chars, Position.past_append, ← place]
  exact Position.offset_le_past _ _

/-! ### Where forms and atoms are begun -/

/-- A form is begun where a character stands that may begin one. -/
theorem Before.beginsForm (before : here.Before (c :: rest)) (solid : Text.isSpace c = false)
    (code : c ≠ ';') : here.BeginsForm := by
  refine ⟨before.reached, ⟨c, here.past [c], before.readChar_cons, solid, code⟩, fun earlier => ?_⟩
  -- A closing bracket begins no form, and is an error that is found at once.
  by_cases closes : ∃ kind : ListKind, c = kind.closer
  · -- The bracket is an error.
    obtain ⟨kind, rfl⟩ := closes
    rw [readForm_closer before]
    exact ⟨_, _, rfl, nofun⟩
  -- Any other form is read past at least one character.
  · have ends := form_ends before solid code fun kind same => closes ⟨kind, same⟩
    obtain ⟨result, calls, ran, _, yields⟩ := ends earlier
    refine ⟨result, calls ++ earlier, ran, ?_⟩
    rintro form next rfl
    obtain ⟨⟨first, left, same, some, rfl, _⟩, _⟩ := yields
    rw [same] at before
    exact ⟨rfl, here.place.offset_lt_past some, before.past.decode.1⟩

/-- An atom is begun where a character stands that does not delimit tokens. -/
theorem Before.beginsAtom (before : here.Before (c :: rest)) (inner : Token.isDelimiter c = false) :
    here.BeginsAtom := by
  obtain ⟨word, left, _, some, token, _⟩ := readToken_word before inner
  exact ⟨before.reached, ⟨c, here.past [c], before.readChar_cons, inner⟩,
    word, here.past word, token, some⟩

/-! ### Bytes that belong to no character -/

/-- Bytes some of which belong to no character are read up to the first of those at most. -/
theorem stopsAtByte (malformed : (Text.decode bytes).complete = false) :
    StopsAtByte bytes ((Form.parse bytes).mapError .fault) := by
  -- The characters before the byte have been read when the reader comes to it.
  have before : (⟨bytes, firstStray bytes⟩ : Cursor).Before [] := ⟨_, (List.append_nil _).symm, rfl⟩
  refine ⟨before.readChar_byte malformed, ?_, ?_⟩
  · intro there reaches
    obtain ⟨rfl, rest, before⟩ := reaches.before
    exact before.offset_le
  · rw [Form.parse_eq_conclude, Scan.conclude]
    -- Before the byte something else may have been wrong, or it is what the reader stops at.
    cases ran : Scan.start.run (Text.decode bytes).chars with
    | error e => exact ⟨e, rfl, .inr (Scan.run_error_bracket ran)⟩
    | ok s =>
      have place : s.position = firstStray bytes := Scan.run_position ran
      simp only [Except.bind, malformed, Bool.false_eq_true, if_false]
      refine ⟨_, rfl, .inl ?_⟩
      rw [Scan.stopAtByte, place]

/--
Reading by descent ends on all bytes, with the outcome of reading character by character. It begins the
forms of the outcome and no others. Wherever it begins a form or an atom something stands that takes it
forward, and a byte that belongs to no character is an error that no reading gets past.
-/
theorem parse_progresses (bytes : Text.Bytes) : ∃ outcome calls,
    parse bytes = some (outcome, calls) ∧ outcome = (Form.parse bytes).mapError .fault ∧
    (∀ forms, outcome = .ok forms →
      (Form.nodesAll forms).map Form.position = formPlaces calls) ∧
    (∀ place, .form place ∈ calls → BeginsForm ⟨bytes, place⟩) ∧
    (∀ place, .atom place ∈ calls → BeginsAtom ⟨bytes, place⟩) ∧
    ((Text.decode bytes).complete = false → StopsAtByte bytes outcome) := by
  obtain ⟨calls, fit, parsed, begun⟩ := parse_eq bytes
  -- The calls fit the text, so the characters that they need stand where they were made.
  refine ⟨_, calls, parsed, rfl, begun, ?_, ?_, stopsAtByte⟩
  · intro place member
    obtain ⟨c, rest, before, solid, code⟩ := fit _ member
    exact before.beginsForm solid code
  · intro place member
    obtain ⟨c, rest, before, inner⟩ := fit _ member
    exact before.beginsAtom inner

end Cursor
end QLisp
