import QLisp.Proofs.Form.Reading

/-!
Texts after other texts.

A text that is read may be followed by a newline and any other text. The reader is then back where
it began, except for its place and the forms that it has read. Reading from there differs from
reading from the beginning in nothing but the places, so the second text is read as it is on its own,
and its places are moved.
-/

namespace QLisp

/-- How far a text is moved: by some bytes and some lines. -/
structure Shift where
  /-- The bytes put in front. -/
  bytes : Nat
  /-- The lines put in front. -/
  lines : Nat
  deriving DecidableEq, Repr

/-- How far a newline and the bytes before it move the text after it. -/
def Shift.pastNewline (before : Text.Bytes) : Shift :=
  ⟨before.length + 1, before.count 0x0A + 1⟩

/-- A place in a text that is moved by whole lines, which leave its column as it is. -/
def Position.moved (shift : Shift) (p : Position) : Position :=
  ⟨p.offset + shift.bytes, p.line + shift.lines, p.column⟩

/-- A fault in a text that is moved: only the byte that its wording gives is another one. -/
def ParseFault.moved (shift : Shift) : ParseFault → ParseFault
  | .invalidByte offset => .invalidByte (offset + shift.bytes)
  | fault => fault

/-- An error in a text that is moved. -/
def ParseError.moved (shift : Shift) (e : ParseError) : ParseError :=
  ⟨e.position.moved shift, e.fault.moved shift⟩

/-- An atom at a place in a text that is moved: a diagnostic begins with the place that it is about. -/
def Atom.moved (shift : Shift) (place : Position) : Atom → Atom
  | .malformed message =>
    .malformed ((place.moved shift).render ++
      String.ofList (message.toList.drop place.render.toList.length))
  | atom => atom

/-- A form in a text that is moved. -/
def Form.moved (shift : Shift) : Form → Form
  | .atom place leaf => .atom (place.moved shift) (leaf.moved shift place)
  | .list place kind children => .list (place.moved shift) kind (children.map (moved shift))

/-- The outcome of reading a text that is moved. -/
def Shift.outcome {α : Type} (shift : Shift) (move : α → α) (outcome : Except ParseError α) :
    Except ParseError α :=
  (outcome.map move).mapError (·.moved shift)

variable {shift : Shift}

/-- What is read is moved. -/
@[simp] theorem Shift.outcome_ok {α : Type} (move : α → α) (a : α) :
    shift.outcome move (.ok a) = .ok (move a) := rfl

/-- An error in what is read is moved. -/
@[simp] theorem Shift.outcome_error {α : Type} (move : α → α) (e : ParseError) :
    shift.outcome move (.error e) = .error (e.moved shift) := rfl

/-! ### Places and atoms -/

/-- A character takes as much of a text that is moved. -/
theorem Position.moved_after (p : Position) (c : Char) :
    (p.after c).moved shift = (p.moved shift).after c := by
  unfold Position.after Position.moved
  split <;> simp only [Position.mk.injEq, and_true] <;> omega

/-- A text that is moved is incomplete when it was. -/
theorem ParseError.moved_isIncomplete (e : ParseError) :
    (e.moved shift).isIncomplete = e.isIncomplete := by
  obtain ⟨place, fault⟩ := e
  cases fault <;> rfl

/-- The wording of a fault is the same in a text that is moved, but for the number of a byte. -/
theorem ParseFault.moved_of_ne {fault : ParseFault} (other : ∀ offset, fault ≠ .invalidByte offset) :
    fault.moved shift = fault := by
  cases fault with
  | invalidByte offset => exact absurd rfl (other offset)
  | _ => rfl

/-- A diagnostic that is moved is about the place that its form is moved to. -/
theorem Atom.moved_malformed (place : Position) (complaint : String) :
    (Token.malformed place complaint).moved shift place =
      Token.malformed (place.moved shift) complaint := by
  rw [Token.malformed, String.append_assoc, Atom.moved, place.drop_render, Token.malformed,
    String.append_assoc]

/-- A token means the same in a text that is moved. -/
theorem Token.classify_moved (place : Position) (token : List Char) :
    Token.classify (place.moved shift) token = (Token.classify place token).moved shift place := by
  -- Only a token that means nothing is classified by its place.
  rw [Grammar.classify_eq, Grammar.classify_eq]
  repeat' split
  all_goals first
    | rfl
    | exact (Atom.moved_malformed place _).symm

/-- A string means the same in a text that is moved. -/
theorem Token.literal_moved (place : Position) (contents : List Char) (bad : Option Char) :
    Token.literal (place.moved shift) contents bad =
      (Token.literal place contents bad).moved shift place := by
  cases bad with
  | none => rfl
  | some c => exact (Atom.moved_malformed place _).symm

/-! ### Reading at another place -/

/-- What the next character continues in a text that is moved. -/
def ScanMode.moved (shift : Shift) : ScanMode → ScanMode
  | .token start seen => .token (start.moved shift) seen
  | .string start seen bad => .string (start.moved shift) seen bad
  | .escape start seen bad => .escape (start.moved shift) seen bad
  | mode => mode

namespace Scan

/-- The forms that come before the innermost level when that is the level of the text itself. -/
def beforeLevel (earlier : List Form) (opened : List OpenList) : List Form :=
  if opened.isEmpty then earlier else []

/-- The open lists of a text that is moved, with the last of the forms before it first. -/
def movedLists (shift : Shift) (earlier : List Form) : List OpenList → List OpenList
  | [] => []
  | list :: outer =>
    ⟨list.position.moved shift, list.kind,
      list.before.map (Form.moved shift) ++ beforeLevel earlier outer⟩ ::
        movedLists shift earlier outer

/-- How far a text has been read when it is moved, forms having been read before it. -/
def moved (shift : Shift) (earlier : List Form) (s : Scan) : Scan :=
  ⟨s.position.moved shift, movedLists shift earlier s.opened,
    s.forms.map (Form.moved shift) ++ beforeLevel earlier s.opened, s.mode.moved shift⟩

variable {earlier : List Form} {s : Scan} {c : Char}

/-- Reading a character between forms does the same in a text that is moved. -/
theorem beginAt_moved (between : s.mode = .gap) : (s.moved shift earlier).beginAt c =
    shift.outcome (moved shift earlier) (s.beginAt c) := by
  -- Brackets open and close the same lists, at moved places.
  have opens : ∀ kind, (s.moved shift earlier).openList kind =
      (s.openList kind).moved shift earlier := by
    intro kind
    simp [openList, moved, movedLists, beforeLevel]
  have closes : ∀ kind, (s.moved shift earlier).closeList kind =
      shift.outcome (moved shift earlier) (s.closeList kind) := by
    intro kind
    obtain ⟨position, opened, forms, mode⟩ := s
    cases opened with
    | nil => rfl
    -- With a list open it depends on the bracket whether the list is closed.
    | cons list outer =>
      simp only [closeList, moved, movedLists]
      split
      · simp [moved, Form.moved, beforeLevel]
      · rfl
  unfold beginAt
  -- Apart from the brackets, only the mode is changed.
  rw [opens, opens, closes, closes]
  obtain ⟨position, opened, forms, mode⟩ := s
  cases between
  repeat' split
  all_goals rfl

/-- Ending a token does the same in a text that is moved. -/
theorem endToken_moved : (s.moved shift earlier).endToken = s.endToken.moved shift earlier := by
  obtain ⟨position, opened, forms, mode⟩ := s
  cases mode with
  | token start seen =>
    simp [endToken, push, moved, ScanMode.moved, Form.moved, Token.classify_moved]
  | gap | comment | string | escape => rfl

/-- Continuing with a character does the same in a text that is moved. -/
theorem read_moved : (s.moved shift earlier).read c =
    shift.outcome (moved shift earlier) (s.read c) := by
  -- Only atoms know of their places: tokens when they end, and strings when they are closed.
  obtain ⟨position, opened, forms, mode⟩ := s
  cases mode with
  | gap => exact beginAt_moved rfl
  | comment =>
    simp only [read, moved, ScanMode.moved]
    split <;> rfl
  | token start seen =>
    by_cases delimits : Token.isDelimiter c
    · -- The character is read after the token, which has ended.
      have after : ((⟨position, opened, forms, .token start seen⟩ : Scan).endToken.moved shift
          earlier).beginAt c = _ := beginAt_moved rfl
      rw [← endToken_moved] at after
      simpa [read, moved, ScanMode.moved, delimits] using after
    · simp [read, moved, ScanMode.moved, delimits]
  | string start seen bad =>
    -- Whether the string has ended does not depend on where it is.
    simp only [read, moved, ScanMode.moved, Token.literal_moved]
    split
    · simp [push, moved, ScanMode.moved, Form.moved]
    · split <;> rfl
  | escape start seen bad =>
    -- An escape stands for a character, wherever the string is.
    simp only [read, moved, ScanMode.moved]
    split <;> rfl

/-- Reading a character does the same in a text that is moved. -/
theorem step_moved : (s.moved shift earlier).step c =
    shift.outcome (moved shift earlier) (s.step c) := by
  rw [step, step, read_moved]
  cases s.read c with
  | error e => rfl
  | ok next =>
    simp only [Except.map, Shift.outcome_ok, moved, Position.moved_after]

/-- Reading characters does the same in a text that is moved. -/
theorem run_moved {chars : List Char} : (s.moved shift earlier).run chars =
    shift.outcome (moved shift earlier) (s.run chars) := by
  -- By induction on the characters.
  induction chars generalizing s with
  | nil => rfl
  | cons c rest ih =>
    have first : (s.moved shift earlier).step c = _ := step_moved
    -- A character that cannot be read is the same on either side, at a moved place.
    cases took : s.step c with
    | error e =>
      rw [took] at first
      rw [run_cons_error first, run_cons_error took]
      rfl
    | ok next =>
      rw [took] at first
      rw [run_cons first, run_cons took, ih]

/-- Where a text that is moved ends, the forms read before it come first. -/
theorem finish_moved : (s.moved shift earlier).finish =
    shift.outcome (fun forms => earlier.reverse ++ forms.map (Form.moved shift)) s.finish := by
  -- With a list open the error is about its place; otherwise the text may end.
  obtain ⟨position, opened, forms, mode⟩ := s
  cases opened with
  | nil =>
    cases mode with
    -- No list is open, so the forms that were read are all there is.
    | string | escape => rfl
    | gap | comment =>
      simp [finish, moved, ScanMode.moved, movedLists, beforeLevel, endToken]
    | token start seen =>
      simp [finish, moved, ScanMode.moved, movedLists, beforeLevel, endToken, push, Form.moved,
        Token.classify_moved]
  | cons list outer => cases mode <;> rfl

/-- A text that is moved is read to its end as it is on its own, after the forms read before it. -/
theorem conclude_moved (text : Text.Decoded) : (s.moved shift earlier).conclude text =
    shift.outcome (fun forms => earlier.reverse ++ forms.map (Form.moved shift))
      (s.conclude text) := by
  rw [conclude, conclude, run_moved]
  cases s.run text.chars with
  | error e => rfl
  | ok last =>
    -- A byte that belongs to no character is found at the end, which is moved as well.
    cases complete : text.complete with
    | true =>
      simp [Except.bind, finish_moved]
    | false => rfl

/-- A newline after a text that is read leads to its next line, between forms. -/
theorem step_newline {forms : List Form} (ended : s.finish = .ok forms) :
    s.step '\n' = .ok ⟨s.position.after '\n', [], forms.reverse, .gap⟩ := by
  -- No list and no string is open where a text may end.
  obtain ⟨position, opened, read, mode⟩ := s
  cases opened with
  | cons list outer => cases mode <;> cases ended
  | nil =>
    -- In a string the text could not have ended.
    cases mode with
    | string | escape => cases ended
    | gap =>
      cases ended
      simpa [endToken] using step_space (c := '\n') (by decide)
    | comment =>
      cases ended
      simp [step, Scan.read, endToken, Except.map]
    | token start seen =>
      -- A newline ends a token.
      cases ended
      have space : (⟨position, [], .atom start (Token.classify start seen.reverse) :: read, .gap⟩ :
          Scan).step '\n' = _ := step_space (by decide)
      rw [← step_endToken (by decide)]
      simpa [endToken, push] using space

end Scan

/-! ### Bytes and lines -/

/-- Only a newline has a byte with its code, and one of them. -/
theorem Text.count_newline_encodeChar (c : Char) :
    (String.utf8EncodeChar c).count 0x0A = if c = '\n' then 1 else 0 := by
  -- The newline is the character with the code ten.
  have same : c = '\n' ↔ c.val.toNat = 10 := by
    rw [← Char.toNat_inj]
    rfl
  -- The bytes of a longer character are all 80 or more.
  rw [String.utf8EncodeChar]
  simp only [same]
  split
  · simp only [List.count_singleton, beq_iff_eq, ← UInt8.toNat_inj, UInt8.toNat_ofNat']
    grind
  -- None of these bytes is the one of a newline.
  · have absent : ∀ n, 128 ≤ n % 256 → UInt8.ofNat n ≠ 0x0A := by
      intro n large ten
      rw [← UInt8.toNat_inj, UInt8.toNat_ofNat'] at ten
      have : (10 : UInt8).toNat = 10 := rfl
      omega
    have longer : ¬ c.val.toNat = 10 := by omega
    simp only [longer, if_false, List.count_eq_zero]
    split
    · grind
    · split <;> grind

/-- The bytes and the newlines of a text say where it ends. -/
theorem Position.past_eq (p : Position) (chars : List Char) : ∃ column, p.past chars =
    ⟨p.offset + (Text.encode (String.ofList chars)).length,
      p.line + (Text.encode (String.ofList chars)).count 0x0A, column⟩ := by
  -- By induction on the characters.
  induction chars generalizing p with
  | nil => exact ⟨p.column, rfl⟩
  | cons c rest ih =>
    obtain ⟨column, place⟩ := ih (p.after c)
    refine ⟨column, ?_⟩
    rw [Position.past_cons, place]
    simp only [Text.encode, String.toList_ofList, List.flatMap_cons, List.length_append,
      List.count_append, Text.count_newline_encodeChar, String.length_utf8EncodeChar, Position.after]
    split <;> simp <;> omega

/-- A newline after a text that is read leads to the next text, which is moved past both. -/
theorem Scan.run_newline {text : String} {before : List Form}
    (ended : (Scan.start.run text.toList).bind Scan.finish = .ok before) :
    Scan.start.run (text ++ "\n").toList =
      .ok (Scan.start.moved (.pastNewline (Text.encode text)) before.reverse) := by
  -- The text was read to its end, so the reader got there.
  cases reached : Scan.start.run text.toList with
  | error e =>
    rw [reached] at ended
    cases ended
  | ok last =>
    rw [reached] at ended
    -- The reader is between forms, at the beginning of a line.
    have newline : last.step '\n' = .ok ⟨last.position.after '\n', [], before.reverse, .gap⟩ :=
      step_newline ended
    have position : last.position.after '\n' =
        Position.start.moved (.pastNewline (Text.encode text)) := by
      obtain ⟨column, place⟩ := Position.start.past_eq text.toList
      rw [run_position reached, show Scan.start.position = Position.start from rfl, place,
        String.ofList_toList]
      simp only [Position.after, Position.moved, Position.start, Shift.pastNewline, if_true,
        Position.mk.injEq, and_true]
      exact ⟨Nat.add_assoc .., Nat.add_assoc ..⟩
    rw [String.toList_append, run_append, reached]
    -- The newline is the last character, and the reader takes it in the gap.
    show last.run ['\n'] = _
    rw [run_cons newline, position]
    rfl

namespace Form

/-- After a text that is read and a newline, bytes are read as on their own, and moved past both. -/
theorem parse_append_newline {first : Text.Bytes} {before : List Form}
    (read : parse first = .ok before) (second : Text.Bytes) :
    parse (first ++ (Text.encode "\n" ++ second)) =
      (Shift.pastNewline first).outcome (before ++ ·.map (moved (.pastNewline first)))
        (parse second) := by
  obtain ⟨text, rfl⟩ := exists_text_of_parse read
  rw [parse_encode] at read
  have joined : Text.encode text ++ (Text.encode "\n" ++ second) =
      Text.encode (text ++ "\n") ++ second := by
    simp [Text.encode]
  rw [joined, parse_encode_append, Scan.run_newline read, parse_eq_conclude]
  -- From there the second text is read as from the beginning.
  show (Scan.start.moved _ _).conclude _ = _
  rw [Scan.conclude_moved, List.reverse_reverse]

/--
A text that is read may be followed by a newline and any other bytes.

If those are read on their own, their forms come after the text's own, moved past the text and the
newline. If not, the error is the one that they have on their own, moved as far: it says as much about
more input, and its wording is the same unless it gives the number of a byte, which is moved too.
-/
theorem parse_newline (first second : Text.Bytes) (before : List Form)
    (read : parse first = .ok before) :
    (∀ forms, parse second = .ok forms → parse (first ++ (Text.encode "\n" ++ second)) =
      .ok (before ++ forms.map (moved (.pastNewline first)))) ∧
    ∀ e, parse second = .error e →
      parse (first ++ (Text.encode "\n" ++ second)) = .error (e.moved (.pastNewline first)) ∧
      (e.moved (.pastNewline first)).isIncomplete = e.isIncomplete ∧
      ((∀ offset, e.fault ≠ .invalidByte offset) →
        (e.moved (.pastNewline first)).fault = e.fault) := by
  -- The forms before the newline are kept as they are, and the others are moved.
  have whole := parse_append_newline read second
  constructor
  · intro forms spelled
    rw [whole, spelled]
    rfl
  · intro e failed
    refine ⟨?_, e.moved_isIncomplete, ParseFault.moved_of_ne⟩
    rw [whole, failed]
    rfl

/-- A diagnostic after a comment gives the line that its token is moved to, and so does an error. -/
theorem parse_newline_comment :
    parse (Text.encode "x ; y") = .ok [.atom ⟨0, 1, 1⟩ (.symbol "x")] ∧
    parse (Text.encode "x ; y" ++ (Text.encode "\n" ++ Text.encode "(#)")) =
      .ok [.atom ⟨0, 1, 1⟩ (.symbol "x"),
        .list ⟨6, 2, 1⟩ .sexpr [.atom ⟨7, 2, 2⟩ (.malformed "2:2: invalid symbol \"#\"")]] ∧
    parse (Text.encode "x ; y" ++ (Text.encode "\n" ++ Text.encode "(#")) =
      .error ⟨⟨6, 2, 1⟩, .unterminatedList .sexpr⟩ := by
  have first : parse (Text.encode "x ; y") = .ok [.atom ⟨0, 1, 1⟩ (.symbol "x")] := by
    rw [parse_encode]
    rfl
  have spelled : parse (Text.encode "(#)") =
      .ok [.list ⟨0, 1, 1⟩ .sexpr [.atom ⟨1, 1, 2⟩ (.malformed "1:2: invalid symbol \"#\"")]] := by
    rw [parse_encode]
    rfl
  have failed : parse (Text.encode "(#") = .error ⟨⟨0, 1, 1⟩, .unterminatedList .sexpr⟩ := by
    rw [parse_encode]
    rfl
  -- The second text alone gives a diagnostic and an error, each of which is moved.
  refine ⟨first, ?_, ((parse_newline _ _ _ first).2 _ failed).1⟩
  have shift : Shift.pastNewline (Text.encode "x ; y") = ⟨6, 1⟩ := rfl
  have diagnostic : Atom.moved ⟨6, 1⟩ ⟨1, 1, 2⟩ (.malformed "1:2: invalid symbol \"#\"") =
      .malformed "2:2: invalid symbol \"#\"" := rfl
  rw [(parse_newline _ _ _ first).1 _ spelled]
  simp [moved, Position.moved, shift, diagnostic]

end Form
end QLisp
