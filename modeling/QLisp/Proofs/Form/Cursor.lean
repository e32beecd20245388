import QLisp.Form.Cursor
import QLisp.Proofs.Form.Place

/-!
What cursors read between and inside forms.

A cursor that reading leads to stands between two characters of its text, so the next character is
known, and each loop can be followed by induction on the characters that are left. A loop ends with a
cursor after some of them, and the reader that goes character by character concludes the text in the same
way before them as it does after them.
-/

namespace QLisp

namespace Text

/-- Bytes begin with the character that is decoded first. -/
theorem leading?_eq (bytes : Bytes) : leading? bytes = (decode bytes).chars.head? := by
  rcases decodeAfter_cases bytes with rfl | ⟨c, rest, rfl⟩ | stop
  · rfl
  -- The bytes begin with a character, which the first four are enough to tell.
  · -- All bytes of a character are among the first four.
    have size : c.utf8Size ≤ 4 := c.utf8Size_le_four
    have first : (String.utf8EncodeChar c ++ rest).take 4 =
        String.utf8EncodeChar c ++ rest.take (4 - c.utf8Size) := by
      rw [List.take_append, String.length_utf8EncodeChar, List.take_of_length_le]
      rw [String.length_utf8EncodeChar]
      exact size
    rw [leading?, first, decode_encodeChar, decode_encodeChar]
    rfl
  · -- A character among the first four bytes would be decoded from all of them too.
    -- A byte that begins no character stops the reading; that is known from the bytes that follow it.
    rw [decode, stop, leading?]
    rcases decodeAfter_cases (bytes.take 4) with none | ⟨c, rest, some⟩ | nothing
    · rw [none]
      rfl
    · have whole : decode bytes = decode (String.utf8EncodeChar c ++ (rest ++ bytes.drop 4)) := by
        rw [← List.append_assoc, ← some, List.take_append_drop]
      rw [decode_encodeChar, decode, stop] at whole
      cases whole
    · rw [decode, nothing]

end Text

namespace Scan

open Grammar

variable {s next : Scan} {e : ParseError} {c : Char} {chars rest : List Char} {whole : Bool}
  {p : Position} {opened : List OpenList} {forms : List Form}

/-- A text is concluded after its first character. -/
theorem conclude_cons (took : s.step c = .ok next) :
    s.conclude ⟨c :: rest, whole⟩ = next.conclude ⟨rest, whole⟩ := by
  rw [conclude, run_cons took]
  rfl

/-- A text is not concluded when its first character cannot be read. -/
theorem conclude_cons_error (stuck : s.step c = .error e) :
    s.conclude ⟨c :: rest, whole⟩ = .error e := by
  rw [conclude, run_cons_error stuck]
  rfl

/-- A text is concluded after some of its characters. -/
theorem conclude_append (took : s.run chars = .ok next) :
    s.conclude ⟨chars ++ rest, whole⟩ = next.conclude ⟨rest, whole⟩ := by
  rw [conclude, run_append, took]
  rfl

/-- A text is concluded as if a token had ended before the delimiter after it. -/
theorem conclude_endToken (ends : EndsToken chars) :
    s.endToken.conclude ⟨chars, whole⟩ = s.conclude ⟨chars, whole⟩ := by
  cases chars with
  | nil =>
    -- The end of the text ends the token, and a byte is at the same place after it.
    have same : s.endToken.stopAtByte = s.stopAtByte := by
      obtain ⟨position, opened, forms, mode⟩ := s
      cases mode <;> rfl
    cases whole with
    | true => exact finish_endToken
    | false => exact congrArg Except.error same
  | cons c rest =>
    have same := step_endToken (s := s) (endsToken_cons.mp ends)
    -- Otherwise the character that follows is a delimiter, which ends the token in either case.
    cases took : s.step c with
    | error e => rw [conclude_cons_error took, conclude_cons_error (same.trans took)]
    | ok next => rw [conclude_cons took, conclude_cons (same.trans took)]

/-- The bracket of one kind does not close a list of the other. -/
theorem step_mismatch (list : OpenList) {kind : ListKind} (unlike : list.kind ≠ kind) :
    (⟨p, list :: opened, forms, .gap⟩ : Scan).step kind.closer =
      .error ⟨p, .mismatchedCloser list.kind.closer kind.closer⟩ := by
  cases kind <;> simp [step, read, beginAt, closeList, ListKind.closer, Except.map, unlike]

/-- Where no list is open no bracket closes one. -/
theorem step_unexpected (kind : ListKind) : (⟨p, [], forms, .gap⟩ : Scan).step kind.closer =
    .error ⟨p, .unexpectedCloser kind.closer⟩ := by
  cases kind <;> rfl

/-- The end of a text ends a comment. -/
theorem conclude_comment : (⟨p, opened, forms, .comment⟩ : Scan).conclude ⟨[], whole⟩ =
    (⟨p, opened, forms, .gap⟩ : Scan).conclude ⟨[], whole⟩ := by
  cases whole <;> cases opened <;> rfl

/-- A byte that belongs to no character concludes no text. -/
theorem conclude_byte : s.conclude ⟨[], false⟩ = .error s.stopAtByte :=
  rfl

end Scan

namespace Cursor

variable {here : Cursor} {c : Char} {chars first rest : List Char}

/-- The cursor after some characters. -/
def past (here : Cursor) (chars : List Char) : Cursor :=
  { here with place := here.place.past chars }

/-- The characters of a text that are left from a cursor on. -/
def Before (here : Cursor) (rest : List Char) : Prop :=
  ∃ passed, (Text.decode here.source).chars = passed ++ rest ∧
    here.place = Position.start.past passed

/-- Whether all bytes of a text belong to characters. -/
def whole (here : Cursor) : Bool :=
  (Text.decode here.source).complete

/-- What is wrong where a byte comes that belongs to no character. -/
def byteError (here : Cursor) : ParseError :=
  ⟨here.place, .invalidByte here.place.offset⟩

/-- Passing some characters and then others. -/
theorem past_append : here.past (first ++ rest) = (here.past first).past rest := by
  rw [past, past, past, Position.past_append]

/-- A text begins with all of its characters. -/
theorem before_start (source : Text.Bytes) : (start source).Before (Text.decode source).chars :=
  ⟨[], rfl, rfl⟩

/-- Passing characters leaves those after them. -/
theorem Before.past (before : here.Before (first ++ rest)) : (here.past first).Before rest := by
  obtain ⟨passed, chars, place⟩ := before
  refine ⟨passed ++ first, ?_, ?_⟩
  · rw [List.append_assoc]
    exact chars
  · rw [Position.past_append, ← place]
    rfl

/-- Passing the next character leaves those after it. -/
theorem Before.next (before : here.Before (c :: rest)) : (here.past [c]).Before rest := by
  have split : here.Before ([c] ++ rest) := before
  exact split.past

/-- Characters that are left are spelled by the bytes that are left. -/
theorem Before.decode (before : here.Before rest) : here.place.offset ≤ here.source.length ∧
    Text.decode (here.source.drop here.place.offset) = ⟨rest, here.whole⟩ := by
  obtain ⟨passed, chars, place⟩ := before
  obtain ⟨counts, later⟩ := Position.counts_past chars
  rw [← place] at counts later
  exact ⟨counts.within, later⟩

/-- Bytes are left when something is to be made of them. -/
theorem Before.atEnd (before : here.Before rest) (left : rest ≠ [] ∨ here.whole = false) :
    here.atEnd = false := by
  rw [Cursor.atEnd, decide_eq_false_iff_not]
  intro ended
  -- No bytes spell no characters, and none of them is malformed.
  have decoded := before.decode.2
  rw [List.drop_of_length_le ended] at decoded
  have nothing : Text.decode [] = ⟨[], true⟩ := rfl
  rw [nothing, Text.Decoded.mk.injEq] at decoded
  rcases left with some | malformed
  · exact some decoded.1.symm
  · rw [malformed] at decoded
    cases decoded.2

/-- The next character is read. -/
theorem Before.readChar_cons (before : here.Before (c :: rest)) :
    here.readChar = .ok (c, here.past [c]) := by
  have more : here.atEnd = false := before.atEnd (.inl (by simp))
  rw [readChar, more, Text.leading?_eq, before.decode.2]
  rfl

/-- At the end of a whole text no bytes are left. -/
theorem Before.ended (before : here.Before []) (whole : here.whole) : here.atEnd := by
  have decoded := before.decode.2
  rw [whole, Text.complete_iff] at decoded
  -- The bytes that are left spell no characters, so there are none.
  have nothing : here.source.drop here.place.offset = [] := decoded
  simpa [Cursor.atEnd] using nothing

/-- At the end of a whole text nothing is read. -/
theorem Before.readChar_end (before : here.Before []) (whole : here.whole) :
    here.readChar = .error .endOfText := by
  rw [readChar, before.ended whole]
  rfl

/-- A byte that belongs to no character is not read. -/
theorem Before.readChar_byte (before : here.Before []) (malformed : here.whole = false) :
    here.readChar = .error (.fault here.byteError) := by
  rw [readChar, before.atEnd (.inr malformed), Text.leading?_eq, before.decode.2]
  rfl

/-- Where no characters are left none is read. -/
theorem Before.readChar_nil (before : here.Before []) : ∃ stop, here.readChar = .error stop := by
  cases whole : here.whole with
  | true => exact ⟨_, before.readChar_end whole⟩
  | false => exact ⟨_, before.readChar_byte whole⟩

/-! ### Layout -/

/-- A text is concluded between forms as it is after some characters that are left of it. -/
def Clears (here : Cursor) (first rest : List Char) : Prop :=
  ∀ opened forms, (⟨here.place, opened, forms, .gap⟩ : Scan).conclude ⟨first ++ rest, here.whole⟩ =
    (⟨(here.past first).place, opened, forms, .gap⟩ : Scan).conclude ⟨rest, here.whole⟩

/-- Some characters are cleared and then others. -/
theorem Clears.append {second : List Char} (clears : here.Clears first (second ++ rest))
    (later : (here.past first).Clears second rest) : here.Clears (first ++ second) rest := by
  intro opened forms
  rw [List.append_assoc, clears, past_append]
  exact later opened forms

/-- A comment is read up to its end, and the text is concluded as if it were not there. -/
theorem skipLine_ends (before : here.Before chars) : ∃ line rest, chars = line ++ rest ∧
    here.skipLine = some (here.past line) ∧
    ∀ opened forms, (⟨here.place, opened, forms, .comment⟩ : Scan).conclude ⟨chars, here.whole⟩ =
      (⟨(here.past line).place, opened, forms, .gap⟩ : Scan).conclude ⟨rest, here.whole⟩ := by
  -- By induction on the characters that are left.
  induction chars generalizing here with
  | nil =>
    obtain ⟨stop, stuck⟩ := before.readChar_nil
    refine ⟨[], [], rfl, ?_, fun opened forms => Scan.conclude_comment⟩
    rw [skipLine, stuck]
    rfl
  | cons c rest ih =>
    rw [skipLine, before.readChar_cons]
    by_cases newline : c = '\n'
    -- At the newline the comment has ended; any other character is a part of it.
    · subst newline
      exact ⟨['\n'], rest, rfl, rfl, fun opened forms => Scan.conclude_cons rfl⟩
    · obtain ⟨line, left, rfl, skipped, same⟩ := ih before.next
      refine ⟨c :: line, left, rfl, ?_, ?_⟩
      · simp only [newline, if_false, skipped]
        rfl
      · intro opened forms
        -- The character leaves the reader inside the comment.
        rw [Scan.conclude_cons (Scan.step_comment newline)]
        exact same opened forms

/-- How reading layout ends before the characters that it leaves. -/
structure LayoutEnds (here : Cursor) (layout rest : List Char) : Prop where
  /-- The text is concluded as if the layout were not there. -/
  clears : here.Clears layout rest
  /-- What is left begins neither with white space nor with a comment. -/
  begins : ∀ c ∈ rest.head?, Text.isSpace c = false ∧ c ≠ ';'
  /-- Only a byte that belongs to no character is an error. -/
  outcome : rest = [] ∧ here.whole = false ∧
      here.skipLayout = some (.error (.fault (here.past layout).byteError)) ∨
    (rest = [] → here.whole) ∧ here.skipLayout = some (.ok (here.past layout))

/-- Layout may begin before other layout. -/
theorem LayoutEnds.prepend {passed layout : List Char}
    (ends : (here.past passed).LayoutEnds layout rest) (clears : here.Clears passed (layout ++ rest))
    (skipped : here.skipLayout = (here.past passed).skipLayout) :
    here.LayoutEnds (passed ++ layout) rest := by
  refine ⟨clears.append ends.clears, ends.begins, ?_⟩
  rw [skipped, past_append]
  exact ends.outcome

/-- Layout is read to its end. -/
theorem skipLayout_ends (before : here.Before chars) :
    ∃ layout rest, chars = layout ++ rest ∧ here.LayoutEnds layout rest := by
  -- By induction on how many characters are left, since a comment is read at once.
  induction size : chars.length using Nat.strongRecOn generalizing here chars with
  | ind count ih =>
    subst size
    cases chars with
    | nil =>
      -- No character is left: either the text has ended here, or a byte is no part of a character.
      refine ⟨[], [], rfl, fun _ _ => rfl, nofun, ?_⟩
      cases whole : here.whole with
      | true =>
        right
        rw [skipLayout, before.readChar_end whole]
        exact ⟨fun _ => rfl, rfl⟩
      | false =>
        left
        rw [skipLayout, before.readChar_byte whole]
        exact ⟨rfl, rfl, rfl⟩
    | cons c more =>
      -- The next character is white space, begins a comment, or ends the layout.
      have next := before.readChar_cons
      have later : (here.past [c]).Before more := before.next
      -- White space is passed, and the layout goes on after it.
      by_cases blank : Text.isSpace c
      · obtain ⟨layout, rest, rfl, ends⟩ := ih _ (Nat.lt_succ_self _) later rfl
        refine ⟨[c] ++ layout, rest, rfl, ends.prepend ?_ ?_⟩
        · intro opened forms
          exact Scan.conclude_cons (Scan.step_space blank)
        · rw [skipLayout, next]
          simp only [blank, if_true]
      by_cases remark : c = ';'
      · subst remark
        -- A comment is skipped to the end of its line in one step.
        obtain ⟨line, left, rfl, skipped, same⟩ := skipLine_ends later
        -- What follows the comment is shorter.
        have shorter : left.length < (';' :: (line ++ left)).length := by
          rw [List.length_cons, List.length_append]
          omega
        obtain ⟨layout, rest, rfl, ends⟩ := ih _ shorter later.past rfl
        rw [← past_append] at ends skipped
        refine ⟨(';' :: line) ++ layout, rest, by simp, ends.prepend ?_ ?_⟩
        · intro opened forms
          exact (Scan.conclude_cons Scan.step_remark).trans (same opened forms)
        · rw [skipLayout, next]
          simp only [blank, skipped]
          rfl
      · -- Anything else may begin a form.
        refine ⟨[], c :: more, rfl, fun _ _ => rfl, by simpa [blank] using remark, .inr ⟨nofun, ?_⟩⟩
        rw [skipLayout, next]
        simp only [blank, remark, if_false]
        rfl

/-! ### Tokens and strings -/

/-- A token is read as far as it goes. -/
theorem readToken_ends (before : here.Before chars) (seen : List Char) : ∃ word rest,
    chars = word ++ rest ∧ here.readToken seen = some (seen.reverse ++ word, here.past word) ∧
    (∀ c ∈ word, ¬ Token.isDelimiter c) ∧ Grammar.EndsToken rest := by
  -- By induction on the characters that are left.
  induction chars generalizing here seen with
  | nil =>
    -- No character is left, so the token is what has been seen of it.
    obtain ⟨stop, stuck⟩ := before.readChar_nil
    refine ⟨[], [], rfl, ?_, nofun, nofun⟩
    rw [readToken, stuck, List.append_nil]
    rfl
  | cons c rest ih =>
    rw [readToken, before.readChar_cons]
    by_cases delimits : Token.isDelimiter c
    -- The delimiter ends the token and is left to be read.
    · refine ⟨[], c :: rest, rfl, ?_, nofun, Grammar.endsToken_cons.mpr delimits⟩
      simp only [delimits, if_true, List.append_nil]
      rfl
    · obtain ⟨word, left, rfl, token, inside, ends⟩ := ih before.next (c :: seen)
      refine ⟨c :: word, left, rfl, ?_, ?_, ends⟩
      · simp only [delimits, token, List.reverse_cons, List.append_assoc]
        rfl
      · simpa [delimits] using inside

end Cursor
end QLisp
