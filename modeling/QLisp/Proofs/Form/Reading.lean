import QLisp.Proofs.Form.Scan
import QLisp.Proofs.Text.Utf8

/-!
Reading against the grammar.

A text is read exactly when the grammar spells it, and as the forms that it spells. One direction
follows the grammar: reading what spells forms adds those forms. The other follows the reader: from
each state, what is left of a text that can be read completes the lists that are open.
-/

namespace QLisp

open Grammar

namespace Scan

variable {s next : Scan} {c : Char} {chars rest first : List Char} {p : Position}
  {opened : List OpenList} {forms more result : List Form}

/-! ### What the grammar spells is read -/

/-- Reading characters and ending the token that they leave open. -/
def settle (s : Scan) (chars : List Char) : Except ParseError Scan :=
  (s.run chars).map endToken

/-- A token is ended once. -/
theorem endToken_endToken : s.endToken.endToken = s.endToken := by
  obtain ⟨_, _, _, mode⟩ := s
  cases mode <;> rfl

/-- A delimiter is read as if the token before it had ended. -/
theorem step_endToken (delimits : Token.isDelimiter c) : s.endToken.step c = s.step c := by
  -- Outside a token there is nothing to end.
  obtain ⟨position, opened, forms, mode⟩ := s
  cases mode with
  | token start seen => simp [step, read, endToken, push, delimits]
  | gap | comment | string | escape => rfl

/-- What follows a token is read as if the token had ended. -/
theorem settle_endToken (ends : EndsToken chars) : s.endToken.settle chars = s.settle chars := by
  cases chars with
  | nil => simp [settle, run, pure, Except.pure, Except.map, endToken_endToken]
  | cons c rest =>
    rw [settle, settle, run, run, List.foldlM_cons, List.foldlM_cons,
      step_endToken (endsToken_cons.mp ends)]

/-- What is settled has been read, and a token at its end has ended. -/
theorem exists_run_of_settle (took : s.settle chars = .ok next) :
    ∃ reached, s.run chars = .ok reached ∧ reached.endToken = next := by
  rw [settle] at took
  cases ran : s.run chars with
  | error e => simp [ran, Except.map] at took
  | ok reached =>
    simp only [ran, Except.map, Except.ok.injEq] at took
    exact ⟨reached, rfl, took⟩

/-- What is read is settled piece by piece, where a token may end between the pieces. -/
theorem settle_append (took : s.settle chars = .ok next) (ends : EndsToken rest) :
    s.settle (chars ++ rest) = next.settle rest := by
  -- Whether the token has ended makes no difference to what follows.
  obtain ⟨reached, ran, rfl⟩ := exists_run_of_settle took
  rw [settle, run_append, ran, settle_endToken ends]
  rfl

/-- Reading a stretch of characters and then others. -/
theorem settle_run (took : s.run chars = .ok next) : s.settle (chars ++ rest) = next.settle rest := by
  rw [settle, run_append, took]
  rfl

/-- Reading what spells forms adds those forms at the innermost level. -/
theorem settle_spells (spells : Spells p chars more) :
    (⟨p, opened, forms, .gap⟩ : Scan).settle chars =
      .ok ⟨p.past chars, opened, more.reverse ++ forms, .gap⟩ := by
  -- By induction on the grammar: each part adds its form, and the rest is read after it.
  induction spells generalizing opened forms with
  | nil p => rfl
  | @space p c rest more blank later ih =>
    -- White space only moves the place.
    have pass : (⟨p, opened, forms, .gap⟩ : Scan).run [c] = .ok ⟨p.past [c], opened, forms, .gap⟩ :=
      run_cons (step_space blank)
    rw [settle_run pass, ih, Position.past_append]
  | comment line later ih => rw [settle_run (run_comment line), ih, ← Position.past_append]
  | token nonempty inside ends means later ih =>
    -- The token ends where it is followed by a delimiter or by nothing.
    rw [settle_run (run_word nonempty inside), ← settle_endToken ends]
    simp only [endToken, push, List.reverse_reverse, means.classify nonempty]
    rw [ih, Position.past_append]
    simp
  | string literal later ih =>
    rw [settle_run (run_string literal), ih, ← Position.past_append]
    simp
  | @list p kind inner rest children more nested later ihNested ih =>
    -- The opening bracket puts aside what was read, and the closing bracket takes it up again.
    have enter : (⟨p, opened, forms, .gap⟩ : Scan).run [kind.opener] =
        .ok ⟨p.past [kind.opener], ⟨p, kind, forms⟩ :: opened, [], .gap⟩ :=
      run_cons (step_open kind)
    have leave : (⟨(p.past [kind.opener]).past inner, ⟨p, kind, forms⟩ :: opened,
        children.reverse ++ [], .gap⟩ : Scan).run [kind.closer] =
          .ok ⟨((p.past [kind.opener]).past inner).past [kind.closer], opened,
            .list p kind children :: forms, .gap⟩ := by
      rw [run_cons (step_close ⟨p, kind, forms⟩)]
      simp [run, pure, Except.pure]
    -- The closing bracket ends a token that the children may end in.
    have ends : EndsToken ([kind.closer] ++ rest) := endsToken_cons.mpr (isDelimiter_closer kind)
    have shape : kind.opener :: inner ++ [kind.closer] ++ rest =
        [kind.opener] ++ (inner ++ ([kind.closer] ++ rest)) := by simp
    rw [shape, settle_run enter, settle_append ihNested ends, settle_run leave]
    have place : ((p.past [kind.opener]).past inner).past [kind.closer] =
        p.past (kind.opener :: inner ++ [kind.closer]) := by simp
    rw [place, ih]
    simp

/-- Ending a token does not change how the reading ends. -/
theorem finish_endToken : s.endToken.finish = s.finish := by
  obtain ⟨position, opened, forms, mode⟩ := s
  cases mode with
  | token start seen => cases opened <;> rfl
  | gap | comment | string | escape => rfl

/-- What has been settled decides how the reading ends. -/
theorem finish_settle (took : s.settle chars = .ok next) :
    (s.run chars).bind finish = next.finish := by
  obtain ⟨reached, ran, rfl⟩ := exists_run_of_settle took
  rw [ran, finish_endToken]
  rfl

/-- A comment at the end of a text does not change how the reading ends. -/
theorem finish_remark {body last : List Char}
    (settled : s.settle body = .ok ⟨p, opened, forms, .gap⟩) (remark : LastRemark last) :
    (s.run (body ++ last)).bind finish = (⟨p, opened, forms, .gap⟩ : Scan).finish := by
  -- There is no comment, or there is one with nothing after it.
  rcases remark with rfl | ⟨remark, line, rfl⟩
  · rw [List.append_nil, finish_settle settled]
  · -- The comment is open when the text ends.
    have ends : EndsToken (';' :: remark) := endsToken_cons.mpr (by decide)
    have comment : (⟨p, opened, forms, .gap⟩ : Scan).settle (';' :: remark) =
        .ok ⟨p.past (';' :: remark), opened, forms, .comment⟩ := by
      rw [settle, run_cons step_remark, run_remark line]
      rfl
    rw [finish_settle ((settle_append settled ends).trans comment)]
    cases opened <;> rfl

/-- A text that spells forms is read as those forms. -/
theorem finish_spells (spells : SpellsText chars forms) :
    (start.run chars).bind finish = .ok forms := by
  -- At the beginning no list is open and no form has been read.
  obtain ⟨body, last, rfl, spelled, remark⟩ := spells
  have settled : start.settle body = .ok ⟨Position.start.past body, [], forms.reverse ++ [], .gap⟩ :=
    settle_spells spelled
  rw [finish_remark settled remark]
  simp [finish, endToken]

/-! ### What is read is what the grammar spells -/

/-- How the rest of a text concludes the lists that are open from a place on, forms being read already. -/
inductive Concludes : List OpenList → Position → List Form → List Char → List Form → Prop where
  /-- With no list open, the rest of the text spells the forms still to come. -/
  | text {p : Position} {before more : List Form} {body last : List Char}
      (spells : Spells p body more) (remark : LastRemark last) :
      Concludes [] p before (body ++ last) (before.reverse ++ more)
  /-- The innermost list is closed, and then the others are. -/
  | close {list : OpenList} {outer : List OpenList} {p : Position} {before more result : List Form}
      {inner rest : List Char} (spells : Spells p inner more)
      (later : Concludes outer (p.past (inner ++ [list.kind.closer]))
        (.list list.position list.kind (before.reverse ++ more) :: list.before) rest result) :
      Concludes (list :: outer) p before (inner ++ [list.kind.closer] ++ rest) result

/-- Characters that spell forms before others that fit may come before what concludes the open lists. -/
theorem Concludes.prepend (fits : List Char → Prop) (new : List Form)
    (concludes : Concludes opened (p.past first) (new.reverse ++ forms) rest result)
    (fit : fits rest) (left : ∀ {a b}, fits (a ++ b) → fits a)
    (spells : ∀ {rest more}, fits rest → Spells (p.past first) rest more →
      Spells p (first ++ rest) (new ++ more)) :
    Concludes opened p forms (first ++ rest) result := by
  -- They become part of what comes before the first closing bracket, or before the end of the text.
  generalize place : p.past first = after at concludes
  generalize known : new.reverse ++ forms = before at concludes
  cases concludes with
  -- The text ends, so the forms are those before the new ones and the new ones.
  | @text _ _ more body last spelled remark =>
    subst place known
    have whole : Concludes [] p forms (first ++ body ++ last) (forms.reverse ++ (new ++ more)) :=
      .text (spells (left fit) spelled) remark
    simpa using whole
  -- A closing bracket comes first, so the new forms are inside the list that it closes.
  | @close list outer _ _ more _ inner rest spelled later =>
    subst place known
    have inside := spells (left (left fit)) spelled
    simp only [List.reverse_append, List.reverse_reverse, List.append_assoc] at later
    rw [← Position.past_append, ← List.append_assoc] at later
    have whole : Concludes (list :: outer) p forms
        (first ++ inner ++ [list.kind.closer] ++ rest) result := .close inside later
    simpa using whole

/-- The same of characters that spell forms whatever follows. -/
theorem Concludes.prepend_any (new : List Form)
    (concludes : Concludes opened (p.past first) (new.reverse ++ forms) rest result)
    (spells : ∀ {rest more}, Spells (p.past first) rest more →
      Spells p (first ++ rest) (new ++ more)) :
    Concludes opened p forms (first ++ rest) result :=
  concludes.prepend (fun _ => True) new trivial (fun _ => trivial) fun _ => spells

/-- A bracket opens a list when what follows concludes it. -/
theorem Concludes.enclose {kind : ListKind}
    (concludes : Concludes (⟨p, kind, forms⟩ :: opened) (p.past [kind.opener]) [] rest result) :
    Concludes opened p forms (kind.opener :: rest) result := by
  -- The list is the innermost one, so what concludes it ends with its closing bracket.
  generalize lists : (⟨p, kind, forms⟩ : OpenList) :: opened = all at concludes
  generalize place : p.past [kind.opener] = after at concludes
  generalize start : [] = before at concludes
  -- A text with a list open cannot be at its end.
  cases concludes with
  | text => cases lists
  | @close list outer _ _ more _ inner rest spelled later =>
    cases lists
    subst place start
    have whole : Concludes opened p forms (kind.opener :: inner ++ [kind.closer] ++ rest) result := by
      apply Concludes.prepend_any [.list p kind more]
      · simpa using later
      · exact .list spelled
    simpa using whole

/-- The innermost list is closed by its bracket. -/
theorem Concludes.bracket {list : OpenList}
    (concludes : Concludes opened (p.past [list.kind.closer])
      (.list list.position list.kind forms.reverse :: list.before) rest result) :
    Concludes (list :: opened) p forms (list.kind.closer :: rest) result := by
  have whole : Concludes (list :: opened) p forms ([] ++ [list.kind.closer] ++ rest) result :=
    .close (.nil p) (by simpa using concludes)
  simpa using whole

/-- What the rest of a text has to be for the reading to end with some forms, in each mode. -/
def Resumes (s : Scan) (chars : List Char) (result : List Form) : Prop :=
  match s.mode with
  | .gap => Concludes s.opened s.position s.forms chars result
  | .comment =>
    -- A newline ends the comment, or the text does.
    (∃ remark rest, chars = remark ++ ['\n'] ++ rest ∧ '\n' ∉ remark ∧
      Concludes s.opened (s.position.past (remark ++ ['\n'])) s.forms rest result) ∨
    ('\n' ∉ chars ∧ s.opened = [] ∧ result = s.forms.reverse)
  | .token start seen => ∃ token rest, chars = token ++ rest ∧
      (∀ c ∈ token, ¬ Token.isDelimiter c) ∧ EndsToken rest ∧
      Concludes s.opened (s.position.past token)
        (.atom start (Token.classify start (seen.reverse ++ token)) :: s.forms) rest result
  -- In a string the rest of it is given by the grammar, with what was read of it before.
  | .string start seen bad => ∃ body meant unknown rest, chars = body ++ ['"'] ++ rest ∧
      Quotes body meant unknown ∧
      Concludes s.opened (s.position.past (body ++ ['"']))
        (.atom start (Token.literal start (seen.reverse ++ meant) (bad.or unknown.head?)) :: s.forms)
        rest result
  | .escape start seen bad => ∃ body meant unknown rest, chars = body ++ ['"'] ++ rest ∧
      Quotes ('\\' :: body) meant unknown ∧
      Concludes s.opened (s.position.past (body ++ ['"']))
        (.atom start (Token.literal start (seen.reverse ++ meant) (bad.or unknown.head?)) :: s.forms)
        rest result

/-- A character between forms is the first of what concludes the open lists. -/
theorem concludes_step (took : (⟨p, opened, forms, .gap⟩ : Scan).step c = .ok next)
    (resumes : next.Resumes rest result) : Concludes opened p forms (c :: rest) result := by
  -- The cases are the parts of the grammar that the character may begin.
  by_cases delimits : Token.isDelimiter c
  · rcases isDelimiter_cases delimits with blank | ⟨kind, rfl⟩ | ⟨kind, rfl⟩ | rfl | rfl
    -- White space is passed by.
    · rw [step_space blank] at took
      cases took
      have whole : Concludes opened p forms ([c] ++ rest) result := by
        apply Concludes.prepend_any []
        · exact resumes
        · exact .space blank
      exact whole
    -- A bracket opens a list, and what concludes its contents closes it.
    · rw [step_open] at took
      cases took
      exact Concludes.enclose resumes
    -- A closing bracket closes the innermost list.
    · obtain ⟨list, outer, rfl, rfl⟩ := step_closer_cases took
      rw [step_close] at took
      cases took
      exact Concludes.bracket resumes
    · rw [step_quote] at took
      cases took
      -- The string goes on to its closing quotation mark, after which the reading resumes.
      obtain ⟨body, meant, unknown, rest, rfl, quotes, concludes⟩ := resumes
      have whole : Concludes opened p forms ('"' :: body ++ ['"'] ++ rest) result := by
        apply Concludes.prepend_any [.atom p (Token.literal p meant unknown.head?)]
        · simpa using concludes
        · exact .string quotes.literal
      simpa using whole
    · rw [step_remark] at took
      cases took
      -- The comment ends with a newline or with the text.
      rcases resumes with ⟨remark, rest, rfl, line, concludes⟩ | ⟨line, outermost, rfl⟩
      · have whole : Concludes opened p forms (';' :: remark ++ ['\n'] ++ rest) result := by
          apply Concludes.prepend_any []
          · simpa using concludes
          · exact .comment line
        simpa using whole
      · -- The text ends with the comment.
        cases (outermost : opened = [])
        have whole : Concludes [] p forms ([] ++ ';' :: rest) (forms.reverse ++ []) :=
          .text (.nil p) (.inr ⟨rest, line, rfl⟩)
        simpa using whole
  · rw [step_token delimits] at took
    cases took
    -- The token goes on to the next delimiter.
    obtain ⟨token, rest, rfl, inside, ends, concludes⟩ := resumes
    have within : ∀ d ∈ c :: token, ¬ Token.isDelimiter d := by
      simpa [delimits] using inside
    have whole : Concludes opened p forms (c :: token ++ rest) result := by
      apply Concludes.prepend EndsToken [.atom p (Token.classify p (c :: token))]
      · simpa using concludes
      · exact ends
      · exact EndsToken.left
      · exact fun ends => .token (by simp) within ends (means_classify p (by simp))
    simpa using whole

/-- What resumes the reading after a character resumes it before the character, which comes first. -/
theorem Resumes.step (resumes : next.Resumes rest result) (took : s.step c = .ok next) :
    s.Resumes (c :: rest) result := by
  -- Between forms the character begins a part of the grammar; elsewhere it lengthens or ends one.
  obtain ⟨position, opened, forms, mode⟩ := s
  -- What was read is the same as in the gap between forms.
  cases mode with
  | gap => exact concludes_step took resumes
  | comment =>
    -- A newline ends the comment, and any other character is a part of it.
    by_cases line : c = '\n'
    · subst line
      cases took
      exact .inl ⟨[], rest, by simp, by simp, resumes⟩
    -- The comment goes on, with one character more in front.
    · rw [step_comment line] at took
      cases took
      rcases resumes with ⟨remark, rest, rfl, others, concludes⟩ | ⟨others, outermost, rfl⟩
      · exact .inl ⟨c :: remark, rest, by simp, by simp [others, Ne.symm line], concludes⟩
      · exact .inr ⟨by simp [others, Ne.symm line], outermost, rfl⟩
  | token start seen =>
    by_cases delimits : Token.isDelimiter c
    · -- The token ends, and the character is read after it.
      rw [← step_endToken delimits] at took
      refine ⟨[], c :: rest, rfl, by simp, endsToken_cons.mpr delimits, ?_⟩
      simpa using concludes_step took resumes
    -- The token goes on, and the character is part of it.
    · rw [step_word delimits] at took
      cases took
      obtain ⟨token, rest, rfl, inside, ends, concludes⟩ := resumes
      refine ⟨c :: token, rest, by simp, by simpa [delimits] using inside, ends, ?_⟩
      simpa using concludes
  | string start seen bad =>
    -- A quotation mark ends the string, and a backslash begins an escape.
    by_cases quote : c = '"'
    -- The string has ended, so its contents are what was read.
    · subst quote
      cases took
      have concludes : Concludes opened (position.after '"')
          (.atom start (Token.literal start seen.reverse bad) :: forms) rest result := resumes
      exact ⟨[], [], [], rest, by simp, .nil, by simpa using concludes⟩
    by_cases slash : c = '\\'
    -- The backslash and the character after it are read together.
    · subst slash
      cases took
      obtain ⟨body, meant, unknown, rest, rfl, quotes, concludes⟩ := resumes
      exact ⟨'\\' :: body, meant, unknown, rest, by simp, quotes, by simpa using concludes⟩
    -- Any other character stands for itself.
    · rw [step_plain quote slash] at took
      cases took
      obtain ⟨body, meant, unknown, rest, rfl, quotes, concludes⟩ := resumes
      refine ⟨c :: body, c :: meant, unknown, rest, by simp, .plain quote slash quotes, ?_⟩
      simpa using concludes
  | escape start seen bad =>
    cases known : Token.unescape? c with
    -- The escape means a character, or it is unknown and noted as such.
    | some d =>
      rw [step_escape known] at took
      cases took
      obtain ⟨body, meant, unknown, rest, rfl, quotes, concludes⟩ := resumes
      refine ⟨c :: body, d :: meant, unknown, rest, by simp, ?_, by simpa using concludes⟩
      exact .escape (mem_escapes.mpr known) quotes
    | none =>
      rw [step_unknown known] at took
      cases took
      obtain ⟨body, meant, unknown, rest, rfl, quotes, concludes⟩ := resumes
      refine ⟨c :: body, meant, c :: unknown, rest, by simp, ?_, by simpa using concludes⟩
      exact .unknown (unescape?_eq_none.mp known) quotes

/-- Nothing more resumes a reading that may end. -/
theorem Resumes.finish (ended : s.finish = .ok result) : s.Resumes [] result := by
  -- A reading may end with no list open, between forms, after a token or in a comment.
  obtain ⟨position, opened, forms, mode⟩ := s
  -- With a list open, or in a string, the end of the text is an error.
  have outermost : opened = [] := by
    cases mode <;> cases opened <;> first | rfl | cases ended
  subst outermost
  have text (before : List Form) : Concludes [] position before [] before.reverse := by
    have whole : Concludes [] position before ([] ++ []) (before.reverse ++ []) :=
      .text (.nil position) (.inl rfl)
    simpa using whole
  cases mode with
  | gap =>
    cases ended
    exact text forms
  | comment =>
    cases ended
    exact .inr ⟨by simp, rfl, rfl⟩
  -- A token at the end of the text is complete.
  | token start seen =>
    cases ended
    have ended := text (.atom start (Token.classify start seen.reverse) :: forms)
    exact ⟨[], [], rfl, by simp, by simp [EndsToken], by simpa [endToken, push] using ended⟩
  | string | escape => cases ended

/-- What is left of a text that is read resumes the reading. -/
theorem Resumes.run (ended : (s.run chars).bind Scan.finish = .ok result) :
    s.Resumes chars result := by
  -- By induction on what is left of the text.
  induction chars generalizing s with
  | nil => exact Resumes.finish ended
  | cons c rest ih =>
    cases took : s.step c with
    | error e =>
      rw [run_cons_error took] at ended
      cases ended
    | ok next =>
      rw [run_cons took] at ended
      exact (ih ended).step took

/-- The forms that a text is read as are those that it spells. -/
theorem spells_of_finish (ended : (start.run chars).bind finish = .ok forms) :
    SpellsText chars forms := by
  -- With no list open the text has nothing to close.
  have concludes : Concludes [] .start [] chars forms := Resumes.run ended
  generalize lists : ([] : List OpenList) = opened at concludes
  generalize nothing : ([] : List Form) = before at concludes
  cases concludes with
  | @text _ _ more body last spells remark =>
    subst nothing
    exact ⟨body, last, rfl, by simpa using spells, remark⟩
  | close => cases lists

/-! ### Texts in pieces -/

/-- Reads what is left of a text and ends the reading where it ends. -/
def conclude (s : Scan) (text : Text.Decoded) : Except ParseError (List Form) :=
  (s.run text.chars).bind fun last => if text.complete then last.finish else .error last.stopAtByte

end Scan

namespace Form

variable {bytes : Text.Bytes} {chars : List Char} {forms others : List Form}

/-- Bytes are read from the beginning of a text to its end. -/
theorem parse_eq_conclude : parse bytes = Scan.start.conclude (Text.decode bytes) :=
  rfl

/-- Bytes after a text are read from where the text leaves off. -/
theorem parse_encode_append (text : String) : parse (Text.encode text ++ bytes) =
    (Scan.start.run text.toList).bind (·.conclude (Text.decode bytes)) := by
  rw [parse_eq_conclude, Text.decode_encode_append, Scan.conclude, Scan.run_append]
  cases Scan.start.run text.toList <;> rfl

/-- A text is read to its end. -/
theorem parse_encode (text : String) :
    parse (Text.encode text) = (Scan.start.run text.toList).bind Scan.finish := by
  have decoded : Text.decode (Text.encode text) = ⟨text.toList, true⟩ :=
    Text.complete_iff.mpr (by simp)
  rw [parse_eq_conclude, decoded]
  rfl

/-- A text is read as the forms that it spells. -/
theorem parse_encode_iff {text : String} :
    parse (Text.encode text) = .ok forms ↔ SpellsText text.toList forms := by
  rw [parse_encode]
  exact ⟨Scan.spells_of_finish, Scan.finish_spells⟩

/-- Only bytes that encode a text are read. -/
theorem exists_text_of_parse (read : parse bytes = .ok forms) :
    ∃ text : String, bytes = Text.encode text := by
  rw [parse, parseDecoded] at read
  cases complete : (Text.decode bytes).complete with
  | true =>
    refine ⟨String.ofList (Text.decode bytes).chars, Text.complete_iff.mp ?_⟩
    rw [← complete]
  | false =>
    -- A byte that belongs to no character ends the reading with an error.
    rw [complete] at read
    cases took : Scan.start.run (Text.decode bytes).chars <;> simp [took, bind, Except.bind] at read

/-- A text spells one sequence of forms at most. -/
theorem spells_unique (spells : SpellsText chars forms) (again : SpellsText chars others) :
    forms = others := by
  -- It is read as either.
  have read := Scan.finish_spells spells
  rw [Scan.finish_spells again] at read
  cases read
  rfl

/--
Bytes are read exactly when they encode a text that spells forms, and as those forms, which are the only
ones that it spells.
-/
theorem parse_iff_spelled :
    (∀ (bytes : Text.Bytes) (forms : List Form), parse bytes = .ok forms ↔
      ∃ text : String, bytes = Text.encode text ∧ SpellsText text.toList forms) ∧
    (∀ (chars : List Char) (forms others : List Form), SpellsText chars forms →
      SpellsText chars others → forms = others) := by
  -- The reader and the grammar agree on texts, so it is left to see that the bytes encode one.
  refine ⟨?_, fun chars forms others => spells_unique⟩
  intro bytes forms
  constructor
  · intro read
    obtain ⟨text, rfl⟩ := exists_text_of_parse read
    exact ⟨text, rfl, parse_encode_iff.mp read⟩
  · rintro ⟨text, rfl, spells⟩
    exact parse_encode_iff.mpr spells

end Form
end QLisp
