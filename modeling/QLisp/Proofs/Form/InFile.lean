import QLisp.File
import QLisp.Proofs.Form.Unclosed

/-!
Places in files.

A file is read from behind its interpreter line. What is read there has a place in the file too: as many
bytes and lines further on, and in the same column. The reader does not know of the line that was left
out, so the places that it gives are places in the file only when there is no such line.
-/

namespace QLisp

/-- The first line of a file with its newline, if it names an interpreter, and no bytes otherwise. -/
def interpreterLine (file : Text.Bytes) : Text.Bytes :=
  file.take (file.length - (withoutInterpreterLine file).length)

/-- How far the text that is read of a file is moved in it. -/
def Shift.inFile (file : Text.Bytes) : Shift :=
  ⟨(interpreterLine file).length, (interpreterLine file).count 0x0A⟩

/-- A place in a file as it is stored: whole lines come before it, and then characters of its own. -/
def Position.Marks (p : Position) (file : Text.Bytes) : Prop :=
  ∃ lines line rest, file = lines ++ (Text.encode line ++ rest) ∧
    (lines = [] ∨ lines.getLast? = some 0x0A) ∧ '\n' ∉ line.toList ∧
    p = ⟨lines.length + (Text.encode line).length, 1 + lines.count 0x0A, 1 + line.toList.length⟩

/-- A place that is reported for a file lags behind the place that is meant by the interpreter line. -/
structure Position.Lags (p : Position) (file : Text.Bytes) : Prop where
  /-- The place that is meant is one in the file. -/
  marks : (p.moved (.inFile file)).Marks file
  /-- Without an interpreter line it is the place that is reported. -/
  exact : interpreterLine file = [] → p.moved (.inFile file) = p
  /-- Behind an interpreter line it is a line further on, and in the same column. -/
  later : interpreterLine file ≠ [] → (p.moved (.inFile file)).line = p.line + 1 ∧
    (p.moved (.inFile file)).column = p.column ∧ p.offset < (p.moved (.inFile file)).offset

/-- An error that is reported for a file lags behind what it is about. -/
structure ParseError.Lags (e : ParseError) (file : Text.Bytes) : Prop where
  /-- Its place does. -/
  place : e.position.Lags file
  /-- The character that it is about comes at the place that is meant. -/
  culprit : (Text.decode (file.drop (e.position.moved (.inFile file)).offset)).chars.head? =
    e.fault.culprit?
  /-- A byte that it is about comes there, the first that spells nothing; its number is no better. -/
  byte (offset : Nat) : e.fault = .invalidByte offset → offset = e.position.offset ∧
    Text.decode (file.drop (e.position.moved (.inFile file)).offset) = ⟨[], false⟩

/-- The place of a form that is read from a file lags behind the place where the form begins. -/
structure Form.Lags (form : Form) (file : Text.Bytes) : Prop where
  /-- Its place does. -/
  place : form.position.Lags file
  /-- It begins at the place that is meant. -/
  begins : form.Begins (Text.decode (file.drop (form.position.moved (.inFile file)).offset)).chars

variable {file bytes : Text.Bytes} {p : Position}

/-! ### Interpreter lines -/

/-- What is left of a file is its end. -/
theorem withoutInterpreterLine_suffix (file : Text.Bytes) : withoutInterpreterLine file <:+ file := by
  unfold withoutInterpreterLine
  split
  · -- The two bytes that mark the line, the rest of it and its newline are left out.
    rename_i rest
    have behind : (rest.dropWhile (· ≠ 0x0A)).drop 1 <:+ rest :=
      (List.drop_suffix _ _).trans (List.dropWhile_suffix _)
    exact behind.trans ((List.suffix_cons 0x21 rest).trans (List.suffix_cons 0x23 _))
  · exact List.suffix_rfl

/-- A file is its interpreter line and what is left of it. -/
theorem interpreterLine_append (file : Text.Bytes) :
    interpreterLine file ++ withoutInterpreterLine file = file :=
  List.suffix_iff_eq_append.mp (withoutInterpreterLine_suffix file)

/-- Up to the first newline there is none, and from there on a list begins with it or is empty. -/
theorem cut_newline {α : Type} [DecidableEq α] (newline : α) (line : List α) :
    newline ∉ line.takeWhile (· ≠ newline) ∧
      (line.dropWhile (· ≠ newline) = [] ∨
        ∃ rest, line.dropWhile (· ≠ newline) = newline :: rest) := by
  induction line with
  | nil => simp
  | cons first rest ih =>
    by_cases same : first = newline
    · simp [same]
    · simpa [same, Ne.symm same] using ih

/-- An interpreter line ends with a newline, unless the file ends with it. -/
theorem interpreterLine_cases (some : withoutInterpreterLine file ≠ []) :
    interpreterLine file = [] ∨ ∃ line, 0x0A ∉ line ∧ interpreterLine file = line ++ [0x0A] := by
  have whole := interpreterLine_append file
  -- Without the two bytes that mark the line nothing is left out.
  by_cases plain : withoutInterpreterLine file = file
  · left
    rw [plain] at whole
    exact List.append_cancel_right (whole.trans (List.nil_append file).symm)
  · right
    -- Some bytes are left out, so there are two that mark the line.
    obtain ⟨rest, rfl⟩ : ∃ rest, file = 0x23 :: 0x21 :: rest := by
      unfold withoutInterpreterLine at plain
      split at plain
      · exact ⟨_, rfl⟩
      · exact absurd rfl plain
    -- What is left out is the line up to its newline, or all of the file.
    have left : withoutInterpreterLine (0x23 :: 0x21 :: rest) =
      (rest.dropWhile (· ≠ 0x0A)).drop 1 := rfl
    have parts : rest.takeWhile (· ≠ 0x0A) ++ rest.dropWhile (· ≠ 0x0A) = rest :=
      List.takeWhile_append_dropWhile
    -- The line ends before the first newline, unless there is none, and then nothing is left.
    obtain ⟨inside, none | ⟨more, behind⟩⟩ := cut_newline 0x0A rest
    · rw [left, none] at some
      exact absurd rfl some
    · rw [behind] at left parts
      generalize rest.takeWhile (· ≠ 0x0A) = line at inside parts
      refine ⟨0x23 :: 0x21 :: line, by simpa using inside, ?_⟩
      rw [left] at whole
      refine List.append_cancel_right (whole.trans ?_)
      rw [← parts]
      simp

/-- The bytes of a text have a newline for each one in the text. -/
theorem Text.count_newline_encode (chars : List Char) :
    (encode (String.ofList chars)).count 0x0A = chars.count '\n' := by
  rw [encode, String.toList_ofList]
  induction chars with
  | nil => rfl
  | cons c rest ih =>
    rw [List.flatMap_cons, List.count_append, ih, count_newline_encodeChar, List.count_cons,
      Nat.add_comm]
    simp

/-! ### Moved places -/

namespace Position

/-- A place that counts what comes before it in a text is a place in that text as it is stored. -/
theorem Counts.marks (counts : p.Counts bytes) : p.Marks bytes := by
  obtain ⟨within, whole, line, column⟩ := counts
  -- What comes before a place is decoded by itself.
  generalize decoded : Text.decode (bytes.take p.offset) = before at whole column
  obtain ⟨chars, complete⟩ := before
  obtain rfl : complete = true := whole
  -- The characters before a place are complete, so the bytes are those of a text.
  have spelled : bytes.take p.offset = Text.encode (String.ofList chars) :=
    Text.complete_iff.mp decoded
  -- The characters before the place are cut after the last newline.
  generalize back : chars.reverse.takeWhile (· ≠ '\n') = own at column
  generalize rest : chars.reverse.dropWhile (· ≠ '\n') = others
  have cut : others.reverse ++ own.reverse = chars := by
    rw [← List.reverse_append, ← back, ← rest, List.takeWhile_append_dropWhile, List.reverse_reverse]
  obtain ⟨plain, ends⟩ := cut_newline '\n' chars.reverse
  rw [back] at plain
  rw [rest] at ends
  have joined : Text.encode (String.ofList chars) =
      Text.encode (String.ofList others.reverse) ++ Text.encode (String.ofList own.reverse) := by
    rw [← cut]
    simp [Text.encode]
  -- There is no newline after the last one.
  have quiet : (Text.encode (String.ofList own.reverse)).count 0x0A = 0 := by
    rw [Text.count_newline_encode, List.count_eq_zero, List.mem_reverse]
    exact plain
  refine ⟨Text.encode (String.ofList others.reverse), String.ofList own.reverse,
    bytes.drop p.offset, ?_, ?_, by simpa using plain, ?_⟩
  · rw [← List.append_assoc, ← joined, ← spelled, List.take_append_drop]
  -- The first part is empty or ends with a newline.
  · rcases ends with rfl | ⟨more, rfl⟩
    · left
      rfl
    · right
      simp [Text.encode, String.utf8EncodeChar]
  -- Offset and line are counted over both parts.
  · have offset : (bytes.take p.offset).length = p.offset := List.length_take_of_le within
    rw [spelled, joined, List.length_append] at offset
    rw [spelled, joined, List.count_append, quiet] at line
    obtain ⟨_, _, _⟩ := p
    simp_all

/-- A place in what is left of a file is a place in the file when it is moved there. -/
theorem Marks.moved (marks : p.Marks (withoutInterpreterLine file))
    (some : withoutInterpreterLine file ≠ []) : (p.moved (.inFile file)).Marks file := by
  obtain ⟨lines, line, rest, left, ends, plain, rfl⟩ := marks
  refine ⟨interpreterLine file ++ lines, line, rest, ?_, ?_, plain, ?_⟩
  -- The two parts of the file are what was read and the line before it.
  · rw [List.append_assoc, ← left, interpreterLine_append]
  · -- Whole lines come before the place, for the interpreter line ends with a newline.
    rcases ends with rfl | ends
    · rcases interpreterLine_cases some with none | ⟨own, _, shape⟩
      · simp [none]
      · simp [shape]
    · right
      simp [List.getLast?_append, ends]
  -- Offset and line are those of the two parts together.
  · simp only [Position.moved, Shift.inFile, List.length_append, List.count_append,
      Position.mk.injEq, and_true]
    omega

/-- A place in what is left of a file lags behind a place in the file. -/
theorem Marks.lags (marks : p.Marks (withoutInterpreterLine file))
    (some : withoutInterpreterLine file ≠ []) : p.Lags file where
  marks := marks.moved some
  exact none := by simp [Position.moved, Shift.inFile, none]
  later cut := by
    rcases interpreterLine_cases some with none | ⟨line, plain, shape⟩
    · exact absurd none cut
    · -- The newline that ends the line is its only one.
      have quiet : line.count 0x0A = 0 := List.count_eq_zero.mpr plain
      simp [Position.moved, Shift.inFile, shape, quiet]

end Position

/-- What stands in a file at a place that is moved is what stands there in the text that is read. -/
theorem drop_moved (file : Text.Bytes) (p : Position) :
    file.drop (p.moved (.inFile file)).offset = (withoutInterpreterLine file).drop p.offset := by
  have behind : (p.moved (.inFile file)).offset = (interpreterLine file).length + p.offset :=
    Nat.add_comm ..
  have parts := congrArg (List.drop (interpreterLine file).length) (interpreterLine_append file)
  rw [List.drop_left] at parts
  rw [behind, ← List.drop_drop, ← parts]

namespace Form

/-- A text without bytes is read, and has no forms. -/
theorem parse_nil : parse [] = .ok [] := rfl

/-- Where a file is not read, the error lags behind what it is about. -/
theorem parse_error_lags {e : ParseError}
    (stuck : parse (withoutInterpreterLine file) = .error e) : e.Lags file := by
  -- An empty text is read, so something is left of the file.
  have some : withoutInterpreterLine file ≠ [] := by
    intro none
    rw [none, parse_nil] at stuck
    cases stuck
  obtain ⟨⟨counts, culprit⟩, byte⟩ := parse_error_place stuck
  -- The culprit stands where it did, that much further in the file.
  rw [← drop_moved] at culprit
  refine ⟨counts.marks.lags some, culprit, ?_⟩
  intro offset about
  obtain ⟨rfl, _, spells⟩ := byte offset about
  rw [← drop_moved] at spells
  exact ⟨rfl, spells⟩

/-- Where a file is read, each form lags behind the place where it begins. -/
theorem parse_lags {forms : List Form} (read : parse (withoutInterpreterLine file) = .ok forms) :
    ∀ form ∈ nodesAll forms, form.Lags file := by
  intro form member
  -- An empty text has no forms, so something is left of the file.
  have some : withoutInterpreterLine file ≠ [] := by
    intro none
    rw [none, parse_nil] at read
    cases read
    cases member
  obtain ⟨counts, begins⟩ := (parse_place read).1 form member
  rw [← drop_moved] at begins
  exact ⟨counts.marks.lags some, begins⟩

end Form
end QLisp
