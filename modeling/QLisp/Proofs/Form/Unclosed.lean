import QLisp.Proofs.Form.Completion
import QLisp.Proofs.Form.Place

/-!
Lists that are left open, and the places of errors.

A text may end inside lists. What it leaves open is said by the grammar: the innermost list begins with
its bracket, and after that come whole forms only. The reader keeps the same lists, so the error for such
a text is about that bracket. Every other error is about a place that the text reaches as well.
-/

namespace QLisp

namespace Grammar

/-- Lists that characters leave open, innermost first: where each begins, and its kind. -/
inductive Leaves : List Char → List (Position × ListKind) → Prop where
  /-- Whole forms leave none open. -/
  | none {chars : List Char} {forms : List Form} (spells : Spells .start chars forms) :
      Leaves chars []
  /-- A bracket opens a list, and whole forms after it leave it open. -/
  | more {before inner : List Char} {forms : List Form} {lists : List (Position × ListKind)}
      {kind : ListKind} (outer : Leaves before lists)
      (spells : Spells ((Position.start.past before).past [kind.opener]) inner forms) :
      Leaves (before ++ kind.opener :: inner) ((Position.start.past before, kind) :: lists)

variable {p place : Position} {c : Char} {chars first rest body more : List Char}
  {forms others : List Form} {lists : List (Position × ListKind)} {kind : ListKind}

namespace Leaves

/-- Whole forms leave open what was. -/
theorem append (leaves : Leaves chars lists) (apart : Apart chars rest)
    (spells : Spells (Position.start.past chars) rest forms) : Leaves (chars ++ rest) lists := by
  cases leaves with
  | none earlier => exact .none (earlier.append_apart apart spells)
  -- The forms go into the innermost list that is open, after those that are in it already.
  | @more before inner others lists kind outer earlier =>
    have shape : before ++ kind.opener :: inner = before ++ [kind.opener] ++ inner := by simp
    rw [shape] at apart
    have place : Position.start.past (before ++ kind.opener :: inner) =
        ((Position.start.past before).past [kind.opener]).past inner := by simp
    rw [place] at spells
    rw [List.append_assoc, List.cons_append]
    exact .more outer (earlier.append_apart apart.right spells)

/-- A bracket opens a list. -/
theorem opened (leaves : Leaves chars lists) (kind : ListKind) :
    Leaves (chars ++ [kind.opener]) ((Position.start.past chars, kind) :: lists) :=
  .more leaves (.nil _)

/-- The other bracket closes the innermost list. -/
theorem closed (leaves : Leaves chars ((place, kind) :: lists)) : Leaves (chars ++ [kind.closer]) lists := by
  cases leaves with
  -- What the bracket encloses becomes one form in the list around it.
  | @more before inner forms _ _ outer spells =>
    have list : Spells (Position.start.past before) (kind.opener :: inner ++ [kind.closer] ++ []) _ :=
      .list spells (.nil _)
    rw [List.append_nil] at list
    rw [List.append_assoc]
    refine outer.append (.inr (endsToken_cons.mpr ?_)) list
    cases kind <;> decide

/-- A comment leaves open what was. -/
theorem remark {remark : List Char} (leaves : Leaves chars lists) (line : '\n' ∉ remark) :
    Leaves (chars ++ ';' :: remark ++ ['\n']) lists := by
  have comment : Spells (Position.start.past chars) (';' :: remark ++ ['\n'] ++ []) [] :=
    .comment line (.nil _)
  simpa using leaves.append (.inr (endsToken_cons.mpr (by decide))) comment

/-- A token leaves open what was. -/
theorem word {token : List Char} (leaves : Leaves chars lists) (nonempty : token ≠ [])
    (inside : ∀ c ∈ token, ¬ Token.isDelimiter c) (apart : ∀ c ∈ chars.getLast?, Token.isDelimiter c) :
    Leaves (chars ++ token) lists := by
  have word : Spells (Position.start.past chars) (token ++ []) _ :=
    .token nonempty inside nofun (means_classify _ nonempty) (.nil _)
  rw [List.append_nil] at word
  exact leaves.append (.inl apart) word

/-- A string leaves open what was. -/
theorem string {meant unknown : List Char} (leaves : Leaves chars lists)
    (quotes : Quotes body meant unknown) : Leaves (chars ++ '"' :: body ++ ['"']) lists := by
  have string : Spells (Position.start.past chars) ('"' :: body ++ ['"'] ++ []) _ :=
    .string quotes.literal (.nil _)
  simpa using leaves.append (.inr (endsToken_cons.mpr (by decide))) string

end Leaves

/-- What stands between quotation marks may be read in two parts. -/
theorem Quotes.append {second meant meant' unknown unknown' : List Char}
    (quotes : Quotes first meant unknown) (later : Quotes second meant' unknown') :
    Quotes (first ++ second) (meant ++ meant') (unknown ++ unknown') := by
  induction quotes with
  | nil => exact later
  | plain unquoted literal _ ih => exact .plain unquoted literal ih
  | escape known _ ih => exact .escape known ih
  | unknown foreign _ ih => exact .unknown foreign ih

/-- Every list that is left open begins with its bracket, where some of the characters end. -/
theorem Leaves.begins (leaves : Leaves chars ((place, kind) :: lists)) :
    ∃ before after, chars = before ++ kind.opener :: after ∧ place = Position.start.past before := by
  cases leaves with
  | more outer spells => exact ⟨_, _, rfl, rfl⟩

end Grammar

/-- The character that a fault is about, unless it is about a byte. -/
def ParseFault.culprit? : ParseFault → Option Char
  | .unexpectedCloser found | .mismatchedCloser _ found => some found
  | .unterminatedList kind => some kind.opener
  | .unterminatedString | .unterminatedEscape => some '"'
  | .invalidByte _ => none

namespace Scan

open Grammar

variable {s next : Scan} {c : Char} {chars rest : List Char} {p : Position} {opened : List OpenList}
  {forms : List Form} {e : ParseError}

/-- Where the open lists begin, and their kinds. -/
def lists (s : Scan) : List (Position × ListKind) :=
  s.opened.map fun list => (list.position, list.kind)

/-- How the characters read so far account for what is kept of them, in each mode. -/
def Traces (s : Scan) (chars : List Char) : Prop :=
  s.position = Position.start.past chars ∧
  match s.mode with
  | .gap => Leaves chars s.lists ∧ ∀ c ∈ chars.getLast?, Token.isDelimiter c
  | .comment => ∃ before remark, chars = before ++ ';' :: remark ∧ '\n' ∉ remark ∧ Leaves before s.lists
  | .token start seen => ∃ before, chars = before ++ seen.reverse ∧ start = Position.start.past before ∧
      seen ≠ [] ∧ (∀ c ∈ seen, ¬ Token.isDelimiter c) ∧ Leaves before s.lists ∧
      ∀ c ∈ before.getLast?, Token.isDelimiter c
  | .string start _ _ => ∃ before body meant unknown, chars = before ++ '"' :: body ∧
      start = Position.start.past before ∧ Quotes body meant unknown ∧ Leaves before s.lists
  | .escape start _ _ => ∃ before body meant unknown, chars = before ++ '"' :: body ++ ['\\'] ∧
      start = Position.start.past before ∧ Quotes body meant unknown ∧ Leaves before s.lists

/-- Characters that end in a delimiter do so. -/
theorem last_delimits (delimits : Token.isDelimiter c) :
    ∀ d ∈ (chars ++ [c]).getLast?, Token.isDelimiter d := by
  simpa using delimits

/-- A character between forms is accounted for. -/
theorem traces_step (place : p = Position.start.past chars)
    (leaves : Leaves chars (⟨p, opened, forms, .gap⟩ : Scan).lists)
    (apart : (∀ d ∈ chars.getLast?, Token.isDelimiter d) ∨ Token.isDelimiter c)
    (took : (⟨p, opened, forms, .gap⟩ : Scan).step c = .ok next) : next.Traces (chars ++ [c]) := by
  have position : next.position = Position.start.past (chars ++ [c]) := by
    rw [step_position took, place]
    simp
  refine ⟨position, ?_⟩
  -- The cases are the parts of the grammar that the character may begin.
  by_cases delimits : Token.isDelimiter c
  -- A delimiter that was read keeps apart whatever comes after it.
  · have last : ∀ d ∈ (chars ++ [c]).getLast?, Token.isDelimiter d := last_delimits delimits
    rcases isDelimiter_cases delimits with blank | ⟨kind, rfl⟩ | ⟨kind, rfl⟩ | rfl | rfl
    · rw [step_space blank] at took
      cases took
      have space : Spells (Position.start.past chars) ([c] ++ []) [] := .space blank (.nil _)
      exact ⟨leaves.append (.inr (endsToken_cons.mpr delimits)) space, last⟩
    -- A bracket opens a list inside the one that was open.
    · rw [step_open] at took
      cases took
      subst place
      exact ⟨leaves.opened kind, last⟩
    · obtain ⟨list, outer, rfl, rfl⟩ := step_closer_cases took
      rw [step_close] at took
      cases took
      exact ⟨leaves.closed, last⟩
    -- A string has begun, and nothing of it has been read so far.
    · rw [step_quote] at took
      cases took
      exact ⟨chars, [], [], [], rfl, place, .nil, leaves⟩
    · rw [step_remark] at took
      cases took
      exact ⟨chars, [], rfl, by simp, leaves⟩
  -- The token has begun with this character.
  · rw [step_token delimits] at took
    cases took
    exact ⟨chars, rfl, place, by simp, by simpa using delimits, leaves,
      apart.resolve_right delimits⟩

/-- A character is accounted for when those before it are. -/
theorem Traces.step (traces : s.Traces chars) (took : s.step c = .ok next) :
    next.Traces (chars ++ [c]) := by
  obtain ⟨position, opened, forms, mode⟩ := s
  obtain ⟨place, traces⟩ := traces
  -- The place is that of the characters, the new one included.
  have position' : next.position = Position.start.past (chars ++ [c]) := by
    rw [step_position took, place]
    simp
  -- Between forms the character begins a part of the grammar; elsewhere it lengthens or ends one.
  cases mode with
  | gap => exact traces_step place traces.1 (.inl traces.2) took
  | comment =>
    obtain ⟨before, remark, rfl, line, leaves⟩ := traces
    -- A newline ends the comment, and any other character is a part of it.
    by_cases newline : c = '\n'
    · subst newline
      cases took
      exact ⟨position', leaves.remark line, last_delimits (by decide)⟩
    -- The comment goes on, and the character is part of it.
    · rw [step_comment newline] at took
      cases took
      exact ⟨position', before, remark ++ [c], by simp, by simp [line, Ne.symm newline], leaves⟩
  | token start seen =>
    obtain ⟨before, rfl, began, nonempty, inside, leaves, apart⟩ := traces
    by_cases delimits : Token.isDelimiter c
    · -- The token ends, and the character is read after it.
      rw [← step_endToken delimits] at took
      have some : seen.reverse ≠ [] := by simpa using nonempty
      have whole := leaves.word some (by simpa using inside) apart
      exact traces_step place whole (.inr delimits) took
    -- The token goes on, and nothing ends it yet.
    · rw [step_word delimits] at took
      cases took
      exact ⟨position', before, by simp, began, by simp, by simpa [delimits] using inside, leaves, apart⟩
  | string start seen bad =>
    obtain ⟨before, body, meant, unknown, rfl, began, quotes, leaves⟩ := traces
    -- A quotation mark ends the string, and a backslash begins an escape.
    by_cases quote : c = '"'
    -- The string is complete, and is a form of its own.
    · subst quote
      cases took
      exact ⟨position', leaves.string quotes, last_delimits (by decide)⟩
    by_cases slash : c = '\\'
    · subst slash
      cases took
      exact ⟨position', before, body, meant, unknown, rfl, began, quotes, leaves⟩
    -- Any other character stands for itself.
    · rw [step_plain quote slash] at took
      cases took
      exact ⟨position', before, body ++ [c], _, _, by simp, began,
        quotes.append (.plain quote slash .nil), leaves⟩
  | escape start seen bad =>
    obtain ⟨before, body, meant, unknown, rfl, began, quotes, leaves⟩ := traces
    cases known : Token.unescape? c with
    -- The escape means a character, or it is unknown and noted as such.
    | some d =>
      rw [step_escape known] at took
      cases took
      exact ⟨position', before, body ++ ['\\', c], _, _, by simp, began,
        quotes.append (.escape (mem_escapes.mpr known) .nil), leaves⟩
    | none =>
      rw [step_unknown known] at took
      cases took
      exact ⟨position', before, body ++ ['\\', c], _, _, by simp, began,
        quotes.append (.unknown (unescape?_eq_none.mp known) .nil), leaves⟩

/-- Characters are accounted for when they can be read. -/
theorem Traces.run (traces : s.Traces chars) (took : s.run rest = .ok next) :
    next.Traces (chars ++ rest) := by
  -- By induction on the characters still to be read.
  induction rest generalizing s chars with
  | nil =>
    cases took
    rwa [List.append_nil]
  | cons c others ih =>
    cases one : s.step c with
    | error e => simp [run_cons_error one] at took
    | ok middle =>
      rw [run_cons one] at took
      simpa using ih (traces.step one) took

/-- Whatever has been read from the beginning of a text is accounted for. -/
theorem traces_run (took : start.run chars = .ok next) : next.Traces chars :=
  have begins : start.Traces [] := ⟨rfl, .none (.nil _), nofun⟩
  begins.run took

/-- Lists that characters leave open are open when those are read. -/
theorem settle_leaves {lists : List (Position × ListKind)} (leaves : Leaves chars lists) :
    ∃ opened forms, start.settle chars = .ok ⟨Position.start.past chars, opened, forms, .gap⟩ ∧
      opened.map (fun list => (list.position, list.kind)) = lists := by
  -- By induction on the lists, outermost first.
  induction leaves with
  | none spells => exact ⟨[], _, settle_spells spells, rfl⟩
  | @more before inner forms lists kind outer spells ih =>
    obtain ⟨opened, earlier, settled, same⟩ := ih
    -- The bracket ends a token that the forms before it may end in.
    have bracket : EndsToken (kind.opener :: inner) := endsToken_cons.mpr (by cases kind <;> decide)
    have enter : (⟨Position.start.past before, opened, earlier, .gap⟩ : Scan).run [kind.opener] =
        .ok ⟨(Position.start.past before).past [kind.opener],
          ⟨Position.start.past before, kind, earlier⟩ :: opened, [], .gap⟩ :=
      run_cons (step_open kind)
    -- Inside the list nothing has been read, and the forms before it are put aside with it.
    refine ⟨⟨Position.start.past before, kind, earlier⟩ :: opened, forms.reverse ++ [], ?_,
      congrArg (_ :: ·) same⟩
    rw [settle_append settled bracket]
    refine (settle_run enter).trans ?_
    rw [settle_spells spells, Position.past_append, Position.past_cons, Position.past_cons]
    rfl

/-- What an error about the characters of a text says of them. -/
structure Blames (chars : List Char) (e : ParseError) : Prop where
  /-- It is at a place that they reach, and there the character comes that it is about. -/
  place : ∃ before after, chars = before ++ after ∧ e.position = Position.start.past before ∧
    after.head? = e.fault.culprit?
  /-- If it is about the end of a list, that is the innermost one they leave open. -/
  list (kind : ListKind) : e.fault = .unterminatedList kind → ∃ body remark outer,
    chars = body ++ remark ∧ LastRemark remark ∧ Leaves body ((e.position, kind) :: outer)
  /-- It is not about a byte. -/
  notByte (offset : Nat) : e.fault ≠ .invalidByte offset

/-- The place of an error about the characters of a text counts them, up to the one it is about. -/
theorem Blames.counts {bytes : Text.Bytes} (blames : Blames (Text.decode bytes).chars e) :
    e.position.Counts bytes ∧
      (Text.decode (bytes.drop e.position.offset)).chars.head? = e.fault.culprit? := by
  obtain ⟨before, after, chars, place, culprit⟩ := blames.place
  obtain ⟨counts, later⟩ := Position.counts_past chars
  rw [place, later]
  exact ⟨counts, culprit⟩

/-- A character that cannot be read is blamed, together with those before it. -/
theorem step_blames (stuck : s.step c = .error e) (place : s.position = Position.start.past chars) :
    Blames (chars ++ c :: rest) e := by
  -- The character is a bracket, and no list is open or the innermost one is of the other kind.
  obtain ⟨t, kind, same, rfl, unclosed⟩ := step_stuck stuck
  have reached : t.position = Position.start.past chars := same.trans place
  unfold closeList at unclosed
  split at unclosed
  · cases unclosed
    exact ⟨⟨chars, kind.closer :: rest, rfl, reached, rfl⟩, nofun, nofun⟩
  · split at unclosed
    · cases unclosed
    · cases unclosed
      exact ⟨⟨chars, kind.closer :: rest, rfl, reached, rfl⟩, nofun, nofun⟩

/-- Where characters cannot be read one of them is blamed. -/
theorem run_blames (stuck : s.run rest = .error e) (place : s.position = Position.start.past chars) :
    Blames (chars ++ rest) e := by
  -- By induction on the characters before the one that cannot be read.
  induction rest generalizing s chars with
  | nil => cases stuck
  | cons c others ih =>
    cases took : s.step c with
    | error found =>
      rw [run_cons_error took] at stuck
      cases stuck
      exact step_blames took place
    -- Otherwise the reading goes on behind this character.
    | ok next =>
      rw [run_cons took] at stuck
      have place' : next.position = Position.start.past (chars ++ [c]) := by
        rw [step_position took, place]
        simp
      simpa using ih stuck place'

/-- Where a text may not end, outside a string, the innermost list is blamed. -/
theorem gap_blames {body remark : List Char}
    (leaves : Leaves body (⟨p, opened, forms, .gap⟩ : Scan).lists) (last : LastRemark remark)
    (stuck : (⟨p, opened, forms, .gap⟩ : Scan).finish = .error e) : Blames (body ++ remark) e := by
  cases opened with
  | nil => cases stuck
  | cons list outer =>
    cases stuck
    -- What comes after the opening bracket is in the list, and a comment may be at the end.
    obtain ⟨before, after, rfl, began⟩ := leaves.begins
    refine ⟨⟨before, list.kind.opener :: after ++ remark, by simp, began, rfl⟩, ?_, nofun⟩
    rintro kind ⟨⟩
    exact ⟨_, remark, _, rfl, last, leaves⟩

/-- Inside a comment or a token a text may not end for the same reason as between forms. -/
theorem finish_gap {position : Position} {opened : List OpenList} {forms : List Form} {mode : ScanMode}
    (unquoted : mode = .comment ∨ ∃ start seen, mode = .token start seen)
    (stuck : (⟨position, opened, forms, mode⟩ : Scan).finish = .error e) :
    (⟨position, opened, forms, .gap⟩ : Scan).finish = .error e := by
  -- A list that is open is the only reason.
  cases opened with
  | nil => rcases unquoted with rfl | ⟨start, seen, rfl⟩ <;> cases stuck
  | cons list outer => rcases unquoted with rfl | ⟨start, seen, rfl⟩ <;> exact stuck

/-- Where a text may not end the string is blamed that it ends in, or else the innermost list. -/
theorem Traces.blames (traces : s.Traces chars) (stuck : s.finish = .error e) : Blames chars e := by
  obtain ⟨position, opened, forms, mode⟩ := s
  obtain ⟨place, traces⟩ := traces
  cases mode with
  | gap => simpa using gap_blames traces.1 (.inl rfl) stuck
  | comment =>
    obtain ⟨before, remark, rfl, line, leaves⟩ := traces
    -- A comment that is open is no other reason to stop.
    exact gap_blames leaves (.inr ⟨remark, line, rfl⟩) (finish_gap (.inl rfl) stuck)
  | token start seen =>
    obtain ⟨before, rfl, began, nonempty, inside, leaves, apart⟩ := traces
    have some : seen.reverse ≠ [] := by simpa using nonempty
    have whole := leaves.word some (by simpa using inside) apart
    -- A token is none either: it ends with the text.
    simpa using gap_blames whole (.inl rfl) (finish_gap (.inr ⟨start, seen, rfl⟩) stuck)
  -- A string that is open is to blame itself, and it begins where its quotation mark is.
  | string start seen bad =>
    obtain ⟨before, body, _, _, rfl, rfl, _⟩ := traces
    cases stuck
    exact ⟨⟨before, _, rfl, rfl, rfl⟩, nofun, nofun⟩
  | escape start seen bad =>
    obtain ⟨before, body, _, _, rfl, rfl, _⟩ := traces
    cases stuck
    exact ⟨⟨before, _, List.append_assoc _ _ _, rfl, rfl⟩, nofun, nofun⟩

end Scan

namespace Form

open Grammar

variable {bytes : Text.Bytes}

/-- A text is reported for a list exactly when that is the innermost one that it leaves open. -/
theorem parse_unclosed (place : Position) (kind : ListKind) :
    parse bytes = .error ⟨place, .unterminatedList kind⟩ ↔ (Text.decode bytes).complete ∧
      ∃ body remark outer, (Text.decode bytes).chars = body ++ remark ∧ LastRemark remark ∧
        Leaves body ((place, kind) :: outer) := by
  rw [parse_eq_conclude, Scan.conclude]
  constructor
  · intro stuck
    -- All characters are read, and none of them is blamed, since this error is found at the end
    -- only.
    cases ran : Scan.start.run (Text.decode bytes).chars with
    -- A character that is blamed leaves the text incomplete in no case.
    | error e =>
      rw [ran] at stuck
      cases stuck
      cases Scan.run_error ran
    | ok s =>
      rw [ran] at stuck
      -- All characters have been read; a byte after them would be blamed instead.
      cases whole : (Text.decode bytes).complete with
      | false =>
        rw [whole] at stuck
        cases stuck
      | true =>
        rw [whole] at stuck
        exact ⟨rfl, ((Scan.traces_run ran).blames stuck).list kind rfl⟩
  · rintro ⟨whole, body, remark, outer, chars, last, leaves⟩
    -- The reader has the same lists open, and stops where the innermost one begins.
    obtain ⟨opened, forms, settled, same⟩ := Scan.settle_leaves leaves
    obtain ⟨list, others, rfl, ⟨⟩, rfl⟩ := List.map_eq_cons_iff.mp same
    have ends := Scan.finish_remark settled last
    rw [chars, whole]
    exact ends

/--
Where a text is not read, the error is at a place in it where the character comes that it is about.

If it is about a byte instead, that is the first one that spells nothing.
-/
theorem parse_error_place {e : ParseError} (stuck : parse bytes = .error e) :
    (e.position.Counts bytes ∧
      (Text.decode (bytes.drop e.position.offset)).chars.head? = e.fault.culprit?) ∧
    ∀ offset, e.fault = .invalidByte offset → offset = e.position.offset ∧
      (Text.decode (bytes.take offset)).complete ∧ Text.decode (bytes.drop offset) = ⟨[], false⟩ := by
  -- Either characters are blamed, or all of them are read and a byte comes next.
  rw [parse_eq_conclude, Scan.conclude] at stuck
  cases ran : Scan.start.run (Text.decode bytes).chars with
  | error found =>
    rw [ran] at stuck
    cases stuck
    -- Characters are blamed for what stands where they do, which is no byte.
    have blames : Scan.Blames ([] ++ (Text.decode bytes).chars) e := Scan.run_blames ran rfl
    exact ⟨blames.counts, fun offset byte => absurd byte (blames.notByte offset)⟩
  | ok s =>
    rw [ran] at stuck
    cases whole : (Text.decode bytes).complete with
    | true =>
      -- At the end of the text a list or a string is blamed, which begins before it.
      rw [whole] at stuck
      have blames := (Scan.traces_run ran).blames stuck
      exact ⟨blames.counts, fun offset byte => absurd byte (blames.notByte offset)⟩
    | false =>
      rw [whole] at stuck
      cases stuck
      -- The place is the one after all characters, where no character is left.
      have chars : (Text.decode bytes).chars = (Text.decode bytes).chars ++ [] := by simp
      obtain ⟨counts, later⟩ := Position.counts_past chars
      rw [← (Scan.traces_run ran).1] at counts later
      have none : (Text.decode (bytes.drop s.position.offset)).chars.head? = none := by
        rw [later]
        rfl
      refine ⟨⟨counts, none⟩, ?_⟩
      rintro offset ⟨⟩
      exact ⟨rfl, counts.whole, later.trans (by rw [whole])⟩

/-- Where a text is read, each form is at a place in it where it begins, and the places are in order. -/
theorem parse_place {forms : List Form} (read : parse bytes = .ok forms) :
    (∀ form ∈ nodesAll forms, form.position.Counts bytes ∧
      form.Begins (Text.decode (bytes.drop form.position.offset)).chars) ∧
    (nodesAll forms).Pairwise (·.position.offset < ·.position.offset) := by
  obtain ⟨text, rfl⟩ := exists_text_of_parse read
  obtain ⟨body, last, chars, spells, remark⟩ := parse_encode_iff.mp read
  -- The forms ascend because each begins where those before it have ended.
  refine ⟨?_, spells.ascending.ordered⟩
  intro form member
  -- Either nothing is left after the forms or a comment, which ends a token.
  have ends : EndsToken last := by
    rcases remark with rfl | ⟨remark, _, rfl⟩
    · exact nofun
    · exact endsToken_cons.mpr (by decide)
  obtain ⟨before, after, rfl, place, begins⟩ := spells.begins ends form member
  have spelled : (Text.decode (Text.encode text)).chars = before ++ (after ++ last) := by
    have decoded : Text.decode (Text.encode text) = ⟨text.toList, true⟩ :=
      Text.complete_iff.mpr (by simp)
    rw [decoded, ← List.append_assoc, ← chars]
  -- So the place of a form is the one behind the characters before it.
  obtain ⟨counts, later⟩ := Position.counts_past spelled
  rw [← place] at counts later
  rw [later]
  exact ⟨counts, begins⟩

/--
Every place that reading reports is right. The forms of a text that is read are where they begin, an
error is at a place that the text reaches, about a list at the bracket that opens the innermost one, and
about a byte at the first one that belongs to no character. The message of a bad token begins with the
line and the column of its form.
-/
theorem parse_positions (bytes : Text.Bytes) :
    (∀ forms, parse bytes = .ok forms →
      (∀ form ∈ nodesAll forms, form.position.Counts bytes ∧
        form.Begins (Text.decode (bytes.drop form.position.offset)).chars ∧
        ∀ place message, form = .atom place (.malformed message) →
          ∃ complaint, message =
            toString place.line ++ ":" ++ toString place.column ++ ": " ++ complaint) ∧
      (nodesAll forms).Pairwise (·.position.offset < ·.position.offset)) ∧
    ∀ e, parse bytes = .error e → e.position.Counts bytes ∧
      (∀ kind, e.fault = .unterminatedList kind → (Text.decode bytes).complete ∧
        ∃ body remark outer, (Text.decode bytes).chars = body ++ remark ∧ LastRemark remark ∧
          Leaves body ((e.position, kind) :: outer)) ∧
      ∀ offset, e.fault = .invalidByte offset → offset = e.position.offset ∧
        (Text.decode (bytes.take offset)).complete ∧
        Text.decode (bytes.drop offset) = ⟨[], false⟩ := by
  constructor
  · intro forms read
    -- The place of a diagnostic is that of the form, which is its token.
    obtain ⟨places, ordered⟩ := parse_place read
    refine ⟨fun form member => ?_, ordered⟩
    obtain ⟨counts, begins⟩ := places form member
    refine ⟨counts, begins, ?_⟩
    rintro place message rfl
    exact begins.diagnostic
  · intro e stuck
    obtain ⟨⟨counts, _⟩, byte⟩ := parse_error_place stuck
    refine ⟨counts, ?_, byte⟩
    intro kind list
    -- An error about a list is found only where a text leaves that one open.
    refine (parse_unclosed e.position kind).mp ?_
    rw [stuck, ← list]

/-- The inner of two open lists is reported, on the second line, after a character of two bytes. -/
theorem parse_positions_nested :
    parse (Text.encode "(é\n\x7ba") = .error ⟨⟨4, 2, 1⟩, .unterminatedList .qexpr⟩ ∧
      Position.Counts ⟨4, 2, 1⟩ (Text.encode "(é\n\x7ba") := by
  have stuck : parse (Text.encode "(é\n\x7ba") = .error ⟨⟨4, 2, 1⟩, .unterminatedList .qexpr⟩ := by
    rw [parse_encode]
    rfl
  exact ⟨stuck, ((parse_positions _).2 _ stuck).1⟩

end Form
end QLisp
