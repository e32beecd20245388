import QLisp.Proofs.Form.Completion
import QLisp.Proofs.Form.Shift
import QLisp.Proofs.Program.Segment

/-!
The loop reads the forms of its input.

An input that can be read as a whole is cut into chunks by the loop. Every chunk can be read, and the
forms of the chunks are the forms of the input, at places that begin anew with each chunk.
-/

namespace QLisp

variable {first second : Text.Bytes} {forms : List Form}

/-! ### Forms without places -/

/-- An atom without its place, which a diagnostic begins with. -/
def Atom.unplaced (place : Position) : Atom → Atom
  | .malformed message => .malformed (String.ofList (message.toList.drop place.render.toList.length))
  | atom => atom

/-- A form with all places forgotten. -/
def Form.unplaced : Form → Form
  | .atom place leaf => .atom .start (leaf.unplaced place)
  | .list _ kind children => .list .start kind (children.map unplaced)

/-- Moving an atom only changes its place. -/
theorem Atom.unplaced_moved (shift : Shift) (place : Position) (leaf : Atom) :
    (leaf.moved shift place).unplaced (place.moved shift) = leaf.unplaced place := by
  cases leaf with
  | malformed message => simp [Atom.moved, Atom.unplaced, String.toList_append]
  | _ => rfl

mutual

/-- Moving a form only changes its places. -/
theorem Form.unplaced_moved (shift : Shift) : ∀ form : Form,
    (form.moved shift).unplaced = form.unplaced
  | .atom place leaf => by
    rw [Form.moved, Form.unplaced, Form.unplaced, leaf.unplaced_moved]
  | .list place kind children => by
    rw [Form.moved, Form.unplaced, Form.unplaced, Form.map_unplaced_moved shift children]

/-- Moving forms only changes their places. -/
theorem Form.map_unplaced_moved (shift : Shift) : ∀ forms : List Form,
    (forms.map (Form.moved shift)).map Form.unplaced = forms.map Form.unplaced
  | [] => rfl
  | form :: rest => by
    rw [List.map_cons, List.map_cons, List.map_cons, Form.unplaced_moved shift form,
      Form.map_unplaced_moved shift rest]

end

/-! ### Reading up to a newline -/

/-- Where the bytes of characters are split at a newline, the characters are. -/
theorem Text.split_newline {chars : List Char} {before after : Text.Bytes}
    (split : chars.flatMap String.utf8EncodeChar = before ++ 0x0A :: after) :
    ∃ first second, chars = first ++ '\n' :: second ∧
      before = first.flatMap String.utf8EncodeChar ∧
      after = second.flatMap String.utf8EncodeChar := by
  -- By induction on the characters; no other one than the newline has its byte.
  induction chars generalizing before with
  | nil => simp at split
  | cons c rest ih =>
    rw [List.flatMap_cons] at split
    -- The newline is in the bytes of the first character or of the others.
    rcases List.append_eq_append_iff.mp split with ⟨more, rfl, later⟩ | ⟨more, whole, later⟩
    · obtain ⟨first, second, rfl, rfl, rfl⟩ := ih later
      exact ⟨c :: first, second, rfl, by simp, rfl⟩
    · cases more with
      | nil =>
        have rest : rest.flatMap String.utf8EncodeChar = [] ++ 0x0A :: after := later.symm
        -- The first character takes all the bytes before, and the others are left with the newline.
        obtain ⟨first, second, rfl, none, rfl⟩ := ih rest
        refine ⟨c :: first, second, rfl, ?_, rfl⟩
        rw [List.flatMap_cons, whole, ← none, List.append_nil, List.append_nil]
      | cons b others =>
        -- The newline is among the bytes of this character, so it is the character.
        obtain ⟨rfl, rfl⟩ : (0x0A : UInt8) = b ∧ _ := List.cons.inj later
        have counted := count_newline_encodeChar c
        rw [whole, List.count_append, List.count_cons_self] at counted
        have newline : c = '\n' := by
          by_contra other
          rw [if_neg other] at counted
          omega
        subst newline
        have alone : [(0x0A : UInt8)] = before ++ 0x0A :: others := whole
        obtain ⟨rfl, rfl⟩ : before = [] ∧ others = [] := by
          have length := congrArg List.length alone
          simp only [List.length_nil, List.length_append, List.length_cons] at length
          exact ⟨List.length_eq_zero_iff.mp (by omega), List.length_eq_zero_iff.mp (by omega)⟩
        exact ⟨[], rest, rfl, rfl, rfl⟩

/-- A text that may end after a newline may end before it, with the same forms. -/
theorem Scan.finish_before_newline {s next : Scan} (took : s.step '\n' = .ok next)
    (ended : next.finish = .ok forms) : s.finish = .ok forms := by
  -- A newline ends a comment or a token, and neither closes a list nor ends a string.
  obtain ⟨position, opened, read, mode⟩ := s
  cases mode with
  -- Between forms the newline is white space.
  | gap =>
    cases took
    exact ended
  | comment =>
    cases took
    exact ended
  -- A token is complete before the newline and is read there.
  | token start seen =>
    cases took
    exact ended
  -- A text that ends inside a string is not complete, so there is nothing to show.
  | string start seen unknown =>
    cases took
    cases ended
  | escape start seen unknown =>
    cases took
    cases ended

/-- Up to a newline a readable text waits for more, or is readable with what follows it. -/
theorem Form.parse_split (whole : Form.parse (first ++ 0x0A :: second) = .ok forms) :
    (∃ e, Form.parse (first ++ [0x0A]) = .error e ∧ e.isIncomplete) ∨
    ∃ before after, Form.parse (first ++ [0x0A]) = .ok before ∧ Form.parse second = .ok after ∧
      forms = before ++ after.map (moved (.pastNewline first)) := by
  obtain ⟨text, bytes⟩ := Form.exists_text_of_parse whole
  obtain ⟨front, back, _, rfl, rfl⟩ := Text.split_newline bytes.symm
  -- The characters before the newline are those of a text, which may be read on its own.
  have early : front.flatMap String.utf8EncodeChar = Text.encode (String.ofList front) := by
    rw [Text.encode, String.toList_ofList]
  have newline : ([0x0A] : Text.Bytes) = Text.encode "\n" := rfl
  have line : Text.encode (String.ofList front) ++ [0x0A] =
      Text.encode (String.ofList front ++ "\n") := by
    simp [Text.encode, newline]
  rw [List.append_cons, early] at whole
  rw [early]
  generalize back.flatMap String.utf8EncodeChar = second at whole
  generalize String.ofList front = text at whole line
  cases read : Form.parse (Text.encode text ++ [0x0A]) with
  | error e =>
    rw [line] at read whole
    exact .inl ⟨e, rfl, (Form.incomplete_iff_completable _ e read).1.mpr ⟨_, _, whole⟩⟩
  | ok before =>
    -- The newline is read last, and the text before it may end as well.
    have ended : Form.parse (Text.encode text) = .ok before := by
      rw [line, Form.parse_encode, String.toList_append, Scan.run_append] at read
      rw [Form.parse_encode]
      -- The reading goes on to the end of the line before it takes the newline.
      cases reached : Scan.start.run text.toList with
      | error e =>
        rw [reached] at read
        cases read
      | ok s =>
        rw [reached] at read
        have read : (s.run ['\n']).bind Scan.finish = .ok before := read
        -- The newline is taken, or the reading would have failed before it.
        cases took : s.step '\n' with
        | error e =>
          rw [Scan.run_cons_error took] at read
          cases read
        | ok next =>
          rw [Scan.run_cons took] at read
          exact Scan.finish_before_newline took read
    rw [List.append_assoc, newline, Form.parse_append_newline ended] at whole
    refine .inr ?_
    -- What comes after the newline has to be readable, since all of it is.
    cases rest : Form.parse second with
    | error e =>
      rw [rest] at whole
      cases whole
    | ok after =>
      rw [rest] at whole
      exact ⟨before, after, rfl, rfl, (Except.ok.inj whole).symm⟩

/-! ### Chunks of a readable input -/

namespace Repl

open Text (Bytes)

/-- A blank line has no forms. -/
theorem parse_blank {line : Bytes} (blank : isBlank line) : Form.parse line = .ok [] := by
  simp only [isBlank, Bool.and_eq_true] at blank
  obtain ⟨complete, spaces⟩ := blank
  -- White space leaves the reading between forms.
  have walked : ∀ (chars : List Char) (p : Position), chars.all Text.isSpace →
      ∃ q, (⟨p, [], [], .gap⟩ : Scan).run chars = .ok ⟨q, [], [], .gap⟩ := by
    intro chars
    induction chars with
    | nil => exact fun p _ => ⟨p, rfl⟩
    | cons c rest ih =>
      intro p all
      rw [List.all_cons, Bool.and_eq_true] at all
      obtain ⟨q, ran⟩ := ih (p.after c) all.2
      exact ⟨q, (Scan.run_cons (Scan.step_space all.1)).trans ran⟩
  obtain ⟨q, ran⟩ := walked _ .start spaces
  -- So nothing has been read at the end, and there are no forms.
  rw [Form.parse_eq_conclude, Scan.conclude, Scan.start, ran]
  simp [complete, Except.bind, Scan.finish, Scan.endToken]

/-- The chunks among segments, each as its forms, if all can be read. -/
inductive Reads : List Segment → List (List Form) → Prop where
  | nil : Reads [] []
  | blank {line : Bytes} {segments : List Segment} {chunks : List (List Form)}
      (later : Reads segments chunks) : Reads (.blank line :: segments) chunks
  | chunk {lines : List Bytes} {segments : List Segment} {forms : List Form}
      {chunks : List (List Form)} (read : Form.parse lines.flatten = .ok forms)
      (later : Reads segments chunks) : Reads (.chunk lines :: segments) (forms :: chunks)

variable {M : Type → Type} [Monad M] [LawfulMonad M] {answer : Form → M Bytes}

/-- Segments that can be read are performed by answering the forms of each chunk, without a report. -/
theorem Reads.performAll {segments : List Segment} {chunks : List (List Form)}
    (reads : Reads segments chunks) : performAll answer segments = do
      let shown ← chunks.mapM fun forms => answer (.list .start .sexpr forms)
      return { printed := shown.flatMap (· ++ Text.encode "\n") } := by
  -- By induction on the segments; a blank one does nothing, and each of the others answers its
  -- forms.
  induction reads with
  | nil =>
    rw [List.mapM_nil, pure_bind]
    rfl
  | blank later ih =>
    rw [Repl.performAll, Segment.perform, pure_bind, ih]
    simp only [bind_assoc, pure_bind, Written.nil_append]
  | chunk read later ih =>
    rw [Repl.performAll, Segment.perform, Form.parseLine, read, List.mapM_cons]
    simp only [Except.map, bind_assoc, pure_bind, ih, Written.append_eq, List.flatMap_cons,
      List.append_nil]

/-- The segments of readable lines can be read, and have the forms of the lines. -/
theorem reads_divide {pending : List Bytes} {lines : List Bytes} {rest : Bytes} {forms : List Form}
    (finished : ∀ line ∈ lines, IsLine line)
    (read : Form.parse ((pending ++ lines).flatten ++ rest) = .ok forms) :
    ∃ chunks, Reads ((divide pending lines).1 ++ [lastSegment (divide pending lines).2 rest]) chunks ∧
      chunks.flatten.map Form.unplaced = forms.map Form.unplaced := by
  -- By induction on the lines; a line goes with the pending ones while these wait for more.
  induction lines generalizing pending forms with
  | nil =>
    rw [List.append_nil] at read
    rw [divide, List.nil_append, lastSegment]
    -- The input ends with something that is no line, or with nothing.
    split
    · rename_i skipped
      simp only [Bool.and_eq_true, List.isEmpty_iff] at skipped
      obtain ⟨rfl, blank⟩ := skipped
      have none : Form.parse rest = .ok forms := read
      rw [parse_blank blank] at none
      cases none
      exact ⟨[], .blank .nil, rfl⟩
    -- Otherwise what comes last is a chunk, with the lines that were waiting.
    · have whole : Form.parse (pending ++ [rest]).flatten = .ok forms := by
        rw [List.flatten_append, List.flatten_singleton]
        exact read
      exact ⟨[forms], .chunk whole .nil, by rw [List.flatten_singleton]⟩
  | cons line more ih =>
    -- The first line ends with its newline, at which the input may be divided.
    obtain ⟨body, _, rfl⟩ := finished line (by simp)
    have finished : ∀ line ∈ more, IsLine line := fun line member => finished line (by simp [member])
    have upTo : (pending ++ [body ++ [0x0A]]).flatten = pending.flatten ++ body ++ [0x0A] := by simp
    have split : Form.parse (pending.flatten ++ body ++ 0x0A :: (more.flatten ++ rest)) = .ok forms := by
      rw [← read]
      simp
    -- The forms of the lines up to here come first, and those of later ones are moved, places
    -- apart.
    have later : ∀ {before after : List Form} {chunks : List (List Form)},
        chunks.flatten.map Form.unplaced = after.map Form.unplaced →
        (before :: chunks).flatten.map Form.unplaced =
          (before ++ after.map (Form.moved (.pastNewline (pending.flatten ++ body)))).map
            Form.unplaced := by
      intro before after chunks same
      rw [List.flatten_cons, List.map_append, List.map_append, Form.map_unplaced_moved, same]
    -- A line is skipped, waits, or ends a chunk with those that were waiting.
    rw [divide]
    by_cases skipped : (pending.isEmpty && isBlank (body ++ [0x0A])) = true
    · rw [if_pos skipped]
      simp only [Bool.and_eq_true, List.isEmpty_iff] at skipped
      obtain ⟨rfl, blank⟩ := skipped
      have none := parse_blank blank
      -- A blank line that nothing waits for is skipped; it has no forms.
      rcases Form.parse_split split with ⟨e, failed, _⟩ | ⟨before, after, line, rest, rfl⟩
      · cases none.symm.trans failed
      · cases none.symm.trans line
        have tail : Form.parse (([] ++ more).flatten ++ _) = .ok after := rest
        obtain ⟨chunks, reads, same⟩ := ih finished tail
        have same := @later [] after chunks same
        exact ⟨chunks, .blank reads, same⟩
    · rw [if_neg skipped]
      by_cases waiting : waits (pending ++ [body ++ [0x0A]]) = true
      · rw [if_pos waiting]
        -- The line is put to those that wait, and the others are as before.
        refine ih finished ?_
        rw [← read]
        simp
      · rw [if_neg waiting]
        -- The lines up to here cannot wait, so they are readable.
        rcases Form.parse_split split with ⟨e, failed, incomplete⟩ | ⟨before, after, line, rest, rfl⟩
        · rw [waits, upTo, failed] at waiting
          exact absurd incomplete waiting
        · have tail : Form.parse (([] ++ more).flatten ++ _) = .ok after := rest
          -- So the lines that were waiting and this one are a chunk.
          obtain ⟨chunks, reads, same⟩ := ih finished tail
          exact ⟨before :: chunks, .chunk (upTo ▸ line) reads, later same⟩

/--
The loop reads the forms of its input, each of them once and in order.

An input that can be read as a whole makes the loop answer some lists of forms, print each answer on a
line of its own and report nothing, whatever answers them. Together these are the forms of the input,
apart from their places.
-/
theorem chunks_have_forms {bytes : Bytes} {forms : List Form}
    (read : Form.parse bytes = .ok forms) : ∃ chunks : List (List Form),
      (∀ {M : Type → Type} [Monad M] [LawfulMonad M] (answer : Form → M Bytes),
        runBy answer { bytes } = do
          let shown ← chunks.mapM fun forms => answer (.list .start .sexpr forms)
          return { printed := shown.flatMap (· ++ Text.encode "\n") }) ∧
      (run { bytes } = do
        let shown ← chunks.mapM fun forms => answerLine (.list .start .sexpr forms)
        return { printed := shown.flatMap (· ++ Text.encode "\n") }) ∧
      chunks.flatten.map Form.unplaced = forms.map Form.unplaced := by
  -- The loop divides the input into lines and what comes after the last one.
  have divides := divide_divides .nil (cut bytes).finished
  have whole : Form.parse (([] ++ (cut bytes).finished).flatten ++ (cut bytes).rest) = .ok forms :=
    (congrArg Form.parse (cut_flatten bytes)).trans read
  obtain ⟨chunks, reads, same⟩ := reads_divide (cut_isLine bytes).1 whole
  -- The answers are given chunk by chunk, whatever answers are.
  have loop : ∀ {M : Type → Type} [Monad M] [LawfulMonad M] (answer : Form → M Bytes),
      runBy answer { bytes } = do
        let shown ← chunks.mapM fun forms => answer (.list .start .sexpr forms)
        return { printed := shown.flatMap (· ++ Text.encode "\n") } := by
    intro M _ _ answer
    rw [runBy_eq { bytes } divides]
    -- At the end one segment is left, which is what comes after the last line.
    have all : closing { bytes } (divide [] (cut bytes).finished).2 =
        [lastSegment (divide [] (cut bytes).finished).2 (cut bytes).rest] := rfl
    rw [all, reads.performAll]
    simp [readReport, Written.append_eq]
  exact ⟨chunks, loop, (run_eq _).trans (loop answerLine), same⟩

/-- Three forms, the first of them over three lines with a comment, and no newline at the end. -/
theorem chunks_have_forms_broken_lines :
    (∃ forms, Form.parse (Text.encode "(+ 1 ; one\n\n2)\n\nx {y}") = .ok forms ∧ forms.length = 3) ∧
    ∃ (forms : List Form) (chunks : List (List Form)),
      (run { bytes := Text.encode "(+ 1 ; one\n\n2)\n\nx {y}" } = do
        let shown ← chunks.mapM fun forms => answerLine (.list .start .sexpr forms)
        return { printed := shown.flatMap (· ++ Text.encode "\n") }) ∧
      forms.length = 3 ∧ chunks.flatten.map Form.unplaced = forms.map Form.unplaced := by
  obtain ⟨forms, read, three⟩ : ∃ forms,
      Form.parse (Text.encode "(+ 1 ; one\n\n2)\n\nx {y}") = .ok forms ∧ forms.length = 3 := by
    rw [Form.parse_encode]
    exact ⟨_, rfl, rfl⟩
  obtain ⟨chunks, _, loop, same⟩ := chunks_have_forms read
  exact ⟨⟨forms, read, three⟩, forms, chunks, loop, three, same⟩

end Repl

end QLisp
