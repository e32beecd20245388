import QLisp.Proofs.Form.Reading

/-!
Texts that more input can complete.

The reader takes characters in order, so a character that it cannot read is an error whatever comes
after it. Where it has read all of a text, some further characters always end the reading well: they
end the string or the comment that the text ends in and close the lists that are open. So a text that
is not read can be completed exactly when its error says that it ends too early.
-/

namespace QLisp

namespace Scan

variable {s next : Scan} {c : Char} {chars : List Char} {p : Position} {opened : List OpenList}
  {forms : List Form} {e : ParseError}

/-- A closing bracket that cannot be read is not the end of the text. -/
theorem closeList_error {kind : ListKind} (stuck : s.closeList kind = .error e) :
    e.isIncomplete = false := by
  -- Either no list is open, or the innermost one waits for the other bracket.
  unfold closeList at stuck
  split at stuck
  · cases stuck
    rfl
  · split at stuck
    · cases stuck
    · cases stuck
      rfl

/-- Only a closing bracket that closes no list cannot be read. -/
theorem step_stuck (stuck : s.step c = .error e) : ∃ t : Scan, ∃ kind : ListKind,
    t.position = s.position ∧ c = kind.closer ∧ t.closeList kind = .error e := by
  -- Where a character begins something, only a closing bracket can be out of place.
  have begin_stuck : ∀ t : Scan, t.position = s.position → t.beginAt c = .error e →
      ∃ t : Scan, ∃ kind : ListKind,
        t.position = s.position ∧ c = kind.closer ∧ t.closeList kind = .error e := by
    intro t place stuck
    unfold beginAt at stuck
    grind [ListKind.closer]
  -- Counting the place of a character cannot fail, so reading the character did.
  have stuck : s.read c = .error e := by
    rw [step] at stuck
    cases read : s.read c with
    | error found =>
      rw [read] at stuck
      exact stuck
    | ok next =>
      rw [read] at stuck
      cases stuck
  obtain ⟨position, opened, forms, mode⟩ := s
  cases mode with
  -- Between forms the character begins something; so it does after a token that it ends.
  | gap => exact begin_stuck _ rfl stuck
  | token start seen =>
    by_cases delimits : Token.isDelimiter c
    · simp only [read, delimits, if_true] at stuck
      exact begin_stuck (endToken _) rfl stuck
    · simp [read, delimits] at stuck
  | comment => cases stuck
  -- In a string and in an escape every character is allowed.
  | string start seen bad => grind [read]
  | escape start seen bad => grind [read]

/-- A character that cannot be read is not the end of the text. -/
theorem step_error (stuck : s.step c = .error e) : e.isIncomplete = false := by
  obtain ⟨_, _, _, _, unclosed⟩ := step_stuck stuck
  exact closeList_error unclosed

/-- Characters that cannot be read are not the end of the text. -/
theorem run_error (stuck : s.run chars = .error e) : e.isIncomplete = false := by
  -- By induction on the characters before the one that cannot be read.
  induction chars generalizing s with
  | nil => cases stuck
  | cons c rest ih =>
    cases took : s.step c with
    | error found =>
      rw [run_cons_error took] at stuck
      cases stuck
      exact step_error took
    | ok next =>
      rw [run_cons took] at stuck
      exact ih stuck

/-- A reading that may not end here ends too early. -/
theorem finish_error (stuck : s.finish = .error e) : e.isIncomplete := by
  -- A string is open, after a backslash or not, or else a list.
  unfold finish at stuck
  split at stuck
  · cases stuck
    rfl
  · cases stuck
    rfl
  · split at stuck <;> cases stuck
    rfl

/-- Some characters lead between forms, whatever a text ends in. -/
theorem exists_gap (s : Scan) : ∃ chars p forms,
    s.run chars = .ok ⟨p, s.opened, forms, .gap⟩ := by
  obtain ⟨position, opened, forms, mode⟩ := s
  cases mode with
  | gap => exact ⟨[], _, _, rfl⟩
  | comment => exact ⟨['\n'], _, _, run_cons rfl⟩
  | token start seen =>
    -- A newline is a delimiter.
    have ended : (⟨position, opened, forms, .token start seen⟩ : Scan).step '\n' =
        .ok ⟨position.after '\n', opened,
          .atom start (Token.classify start seen.reverse) :: forms, .gap⟩ := by
      rw [← step_endToken (by decide)]
      exact step_space (by decide)
    exact ⟨['\n'], _, _, run_cons ended⟩
  | string start seen bad => exact ⟨['"'], _, _, run_cons rfl⟩
  | escape start seen bad => exact ⟨['n', '"'], _, _, rfl⟩

/-- Closing brackets close the lists that are open. -/
theorem exists_close (p : Position) (opened : List OpenList) (forms : List Form) :
    ∃ chars closed, ((⟨p, opened, forms, .gap⟩ : Scan).run chars).bind finish = .ok closed := by
  -- By induction on the lists, innermost first.
  induction opened generalizing p forms with
  | nil => exact ⟨[], forms.reverse, rfl⟩
  | cons list outer ih =>
    obtain ⟨chars, closed, ended⟩ := ih (p.after list.kind.closer)
      (.list list.position list.kind forms.reverse :: list.before)
    exact ⟨list.kind.closer :: chars, closed, by rw [run_cons (step_close list), ended]⟩

/-- Some characters end the reading well, wherever it is. -/
theorem exists_end (s : Scan) : ∃ chars closed, (s.run chars).bind finish = .ok closed := by
  -- First the string or the comment ends, and then the lists are closed.
  obtain ⟨first, p, forms, reached⟩ := s.exists_gap
  obtain ⟨rest, closed, ended⟩ := exists_close p s.opened forms
  refine ⟨first ++ rest, closed, ?_⟩
  rw [run_append, reached]
  exact ended

end Scan

namespace Form

/--
An error in a text says that the text ends too early exactly when some further bytes complete the text;
any other error is the same whatever bytes follow.
-/
theorem incomplete_iff_completable (text : String) (e : ParseError)
    (failed : parse (Text.encode text) = .error e) :
    (e.isIncomplete ↔ ∃ suffix forms, parse (Text.encode text ++ suffix) = .ok forms) ∧
    (e.isIncomplete = false → ∀ suffix, parse (Text.encode text ++ suffix) = .error e) := by
  rw [parse_encode] at failed
  cases reached : Scan.start.run text.toList with
  | error found =>
    -- Reading stops inside the text, so what follows is not looked at.
    rw [reached] at failed
    have lasting : ∀ suffix, parse (Text.encode text ++ suffix) = .error e := by
      intro suffix
      rw [parse_encode_append, reached]
      exact failed
    cases failed
    have other : e.isIncomplete = false := Scan.run_error reached
    simp [other, lasting]
  | ok s =>
    -- All of the text is read, and the end of it is what is wrong.
    rw [reached] at failed
    have early : e.isIncomplete := Scan.finish_error failed
    obtain ⟨chars, forms, ended⟩ := s.exists_end
    have completed : parse (Text.encode text ++ Text.encode (String.ofList chars)) = .ok forms := by
      have decoded : Text.decode (Text.encode (String.ofList chars)) = ⟨chars, true⟩ :=
        Text.complete_iff.mpr rfl
      rw [parse_encode_append, reached, decoded]
      exact ended
    exact ⟨⟨fun _ => ⟨_, forms, completed⟩, fun _ => early⟩, fun other => by simp [early] at other⟩

/-- A text that ends after a backslash can be completed, and one with too many brackets cannot. -/
theorem incomplete_iff_completable_cases :
    (parse (Text.encode "(a \"\\") = .error ⟨⟨3, 1, 4⟩, .unterminatedEscape⟩ ∧
      ∃ suffix forms, parse (Text.encode "(a \"\\" ++ suffix) = .ok forms) ∧
    (parse (Text.encode "a ) (") = .error ⟨⟨2, 1, 3⟩, .unexpectedCloser ')'⟩ ∧
      ∀ suffix, parse (Text.encode "a ) (" ++ suffix) =
        .error ⟨⟨2, 1, 3⟩, .unexpectedCloser ')'⟩) := by
  -- Either error is found by reading the text, and its wording tells whether more input could help.
  have early : parse (Text.encode "(a \"\\") = .error ⟨⟨3, 1, 4⟩, .unterminatedEscape⟩ := by
    rw [parse_encode]
    rfl
  have wrong : parse (Text.encode "a ) (") = .error ⟨⟨2, 1, 3⟩, .unexpectedCloser ')'⟩ := by
    rw [parse_encode]
    rfl
  exact ⟨⟨early, (incomplete_iff_completable _ _ early).1.mp rfl⟩,
    ⟨wrong, (incomplete_iff_completable _ _ wrong).2 rfl⟩⟩

end Form
end QLisp
