import QLisp.Form.Parser
import QLisp.Proofs.Form.Token

/-!
What reading does with each stretch of a text.

The reader goes character by character. Here its steps are put together to those of the grammar: what
a whole token, a comment or a string between its quotation marks does to how far a text has been read.
-/

namespace QLisp

namespace Position

/-- No characters lead nowhere. -/
@[simp] theorem past_nil (p : Position) : p.past [] = p :=
  rfl

/-- A place after characters is passed one character at a time. -/
@[simp] theorem past_cons (p : Position) (c : Char) (rest : List Char) :
    p.past (c :: rest) = (p.after c).past rest :=
  rfl

/-- A place after characters is passed piece by piece. -/
@[simp] theorem past_append (p : Position) (first rest : List Char) :
    p.past (first ++ rest) = (p.past first).past rest :=
  List.foldl_append

end Position

namespace Grammar

variable {c : Char} {place : Position} {body meant unknown : List Char}

/-- A closing bracket delimits tokens. -/
theorem isDelimiter_closer (kind : ListKind) : Token.isDelimiter kind.closer := by
  cases kind <;> decide

/-- A delimiter is white space, a bracket, a quotation mark or a semicolon. -/
theorem isDelimiter_cases (delimits : Token.isDelimiter c) : Text.isSpace c ∨
    (∃ kind : ListKind, c = kind.opener) ∨ (∃ kind : ListKind, c = kind.closer) ∨ c = '"' ∨
      c = ';' := by
  simp only [Token.isDelimiter, Bool.or_eq_true, decide_eq_true_eq] at delimits
  -- The cases are the tests that are made, in their order.
  rcases delimits with (((((rfl | rfl) | rfl) | rfl) | rfl) | rfl) | blank
  · exact .inr (.inl ⟨.sexpr, rfl⟩)
  · exact .inr (.inr (.inl ⟨.sexpr, rfl⟩))
  · exact .inr (.inl ⟨.qexpr, rfl⟩)
  · exact .inr (.inr (.inl ⟨.qexpr, rfl⟩))
  · simp
  · simp
  · exact .inl blank

/-- A token ends before a delimiter. -/
theorem endsToken_cons {rest : List Char} : EndsToken (c :: rest) ↔ Token.isDelimiter c := by
  simp [EndsToken]

/-- A token that ends before some characters ends before the first few of them. -/
theorem EndsToken.left {first rest : List Char} (ends : EndsToken (first ++ rest)) :
    EndsToken first := by
  cases first with
  | nil => simp [EndsToken]
  | cons c others => exact endsToken_cons.mpr (endsToken_cons.mp ends)

/-- The escapes that mean something are those that the reader replaces. -/
theorem mem_escapes {d : Char} : (c, d) ∈ escapes ↔ Token.unescape? c = some d := by
  unfold Token.unescape? escapes
  split <;> simp_all [eq_comm]

/-- The escapes that the reader does not replace mean nothing. -/
theorem unescape?_eq_none : Token.unescape? c = none ↔ ∀ d, (c, d) ∉ escapes := by
  simp only [mem_escapes, Option.eq_none_iff_forall_ne_some, ne_eq]

/-- The characters and the first bad escape of a string say what it means. -/
theorem Quotes.literal (quotes : Quotes body meant unknown) :
    Literal place body (Token.literal place meant unknown.head?) := by
  cases unknown with
  | nil => exact .string quotes
  | cons c others => exact .malformed quotes

/-- What a string means is read off its characters. -/
theorem Literal.quotes {atom : Atom} (literal : Literal place body atom) : ∃ meant unknown,
    Quotes body meant unknown ∧ atom = Token.literal place meant unknown.head? := by
  cases literal with
  | string quotes => exact ⟨_, _, quotes, rfl⟩
  | malformed quotes => exact ⟨_, _, quotes, rfl⟩

end Grammar

namespace Scan

open Grammar

variable {s next : Scan} {c : Char} {chars rest : List Char} {p : Position}
  {opened : List OpenList} {forms : List Form}

/-- Reading a first character and then the others. -/
theorem run_cons (took : s.step c = .ok next) : s.run (c :: rest) = next.run rest := by
  rw [run, List.foldlM_cons, took]
  rfl

/-- Reading stops at the first character that cannot be read. -/
theorem run_cons_error {e : ParseError} (stuck : s.step c = .error e) :
    s.run (c :: rest) = .error e := by
  rw [run, List.foldlM_cons, stuck]
  rfl

/-- A text is read piece by piece. -/
theorem run_append : s.run (chars ++ rest) = (s.run chars).bind (·.run rest) :=
  List.foldlM_append

/-- Reading takes the place past what is read. -/
theorem step_position (took : s.step c = .ok next) : next.position = s.position.after c := by
  rw [step] at took
  cases read : s.read c with
  | error e => simp [read, Except.map] at took
  | ok middle =>
    simp only [read, Except.map, Except.ok.injEq] at took
    rw [← took]

/-- Reading takes the place past what is read. -/
theorem run_position (took : s.run chars = .ok next) : next.position = s.position.past chars := by
  -- By induction on the characters.
  induction chars generalizing s with
  | nil =>
    cases took
    rfl
  | cons c rest ih =>
    cases one : s.step c with
    | error e => simp [run_cons_error one] at took
    | ok middle =>
      rw [run_cons one] at took
      rw [ih took, step_position one, Position.past_cons]

/-! ### Between forms -/

/-- White space is passed over. -/
theorem step_space (blank : Text.isSpace c) :
    (⟨p, opened, forms, .gap⟩ : Scan).step c = .ok ⟨p.after c, opened, forms, .gap⟩ := by
  -- No bracket, quotation mark or semicolon is white space.
  have other : ∀ d, Text.isSpace d = false → c ≠ d := by
    rintro d dark rfl
    simp [dark] at blank
  have := other '(' (by decide)
  have := other '\x7b' (by decide)
  have := other ')' (by decide)
  have := other '\x7d' (by decide)
  have := other '"' (by decide)
  have := other ';' (by decide)
  simp [step, read, beginAt, Except.map, *]

/-- An opening bracket opens a list. -/
theorem step_open (kind : ListKind) : (⟨p, opened, forms, .gap⟩ : Scan).step kind.opener =
    .ok ⟨p.after kind.opener, ⟨p, kind, forms⟩ :: opened, [], .gap⟩ := by
  cases kind <;> rfl

/-- The bracket that an open list waits for closes it. -/
theorem step_close (list : OpenList) :
    (⟨p, list :: opened, forms, .gap⟩ : Scan).step list.kind.closer =
      .ok ⟨p.after list.kind.closer, opened,
        .list list.position list.kind forms.reverse :: list.before, .gap⟩ := by
  obtain ⟨position, kind, before⟩ := list
  cases kind <;> rfl

/-- A quotation mark begins a string. -/
theorem step_quote : (⟨p, opened, forms, .gap⟩ : Scan).step '"' =
    .ok ⟨p.after '"', opened, forms, .string p [] none⟩ :=
  rfl

/-- A semicolon begins a comment. -/
theorem step_remark : (⟨p, opened, forms, .gap⟩ : Scan).step ';' =
    .ok ⟨p.after ';', opened, forms, .comment⟩ :=
  rfl

/-- A character that is no delimiter begins a token. -/
theorem step_token (inside : ¬ Token.isDelimiter c) : (⟨p, opened, forms, .gap⟩ : Scan).step c =
    .ok ⟨p.after c, opened, forms, .token p [c]⟩ := by
  simp only [Token.isDelimiter, Bool.or_eq_true, decide_eq_true_eq, not_or] at inside
  simp [step, read, beginAt, Except.map, inside]

/-- Only the bracket that an open list waits for closes it. -/
theorem step_closer_cases {kind : ListKind}
    (took : (⟨p, opened, forms, .gap⟩ : Scan).step kind.closer = .ok next) :
    ∃ list outer, opened = list :: outer ∧ list.kind = kind := by
  cases opened with
  -- Outside of all lists no bracket can be closed.
  | nil => cases kind <;> cases took
  | cons list outer =>
    refine ⟨list, outer, rfl, ?_⟩
    by_cases same : list.kind = kind
    · exact same
    · -- A bracket of the other kind cannot be read.
      cases kind <;>
        simp [step, read, beginAt, closeList, ListKind.closer, Except.map, same] at took

/-! ### Inside tokens, comments and strings -/

section Inside

variable {start : Position} {seen : List Char} {bad : Option Char}

/-- A character that is no delimiter is a part of the token. -/
theorem step_word (inside : ¬ Token.isDelimiter c) :
    (⟨p, opened, forms, .token start seen⟩ : Scan).step c =
      .ok ⟨p.after c, opened, forms, .token start (c :: seen)⟩ := by
  simp [step, read, Except.map, inside]

/-- A character other than a newline is a part of the comment. -/
theorem step_comment (inside : c ≠ '\n') :
    (⟨p, opened, forms, .comment⟩ : Scan).step c = .ok ⟨p.after c, opened, forms, .comment⟩ := by
  simp [step, read, Except.map, inside]

/-- In a string a character that is neither a quotation mark nor a backslash stands for itself. -/
theorem step_plain (unquoted : c ≠ '"') (literal : c ≠ '\\') :
    (⟨p, opened, forms, .string start seen bad⟩ : Scan).step c =
      .ok ⟨p.after c, opened, forms, .string start (c :: seen) bad⟩ := by
  simp [step, read, Except.map, unquoted, literal]

/-- In a string a backslash begins an escape. -/
theorem step_backslash : (⟨p, opened, forms, .string start seen bad⟩ : Scan).step '\\' =
    .ok ⟨p.after '\\', opened, forms, .escape start seen bad⟩ :=
  rfl

/-- An escape adds the character that it means. -/
theorem step_escape {d : Char} (known : Token.unescape? c = some d) :
    (⟨p, opened, forms, .escape start seen bad⟩ : Scan).step c =
      .ok ⟨p.after c, opened, forms, .string start (d :: seen) bad⟩ := by
  simp [step, read, Except.map, known]

/-- An escape that is unknown adds nothing but a note of it. -/
theorem step_unknown (foreign : Token.unescape? c = none) :
    (⟨p, opened, forms, .escape start seen bad⟩ : Scan).step c =
      .ok ⟨p.after c, opened, forms, .string start seen (bad.or (some c))⟩ := by
  simp [step, read, Except.map, foreign]

end Inside

/-- A token takes characters that are no delimiters. -/
theorem run_token {start : Position} {token seen : List Char}
    (inside : ∀ c ∈ token, ¬ Token.isDelimiter c) :
    (⟨p, opened, forms, .token start seen⟩ : Scan).run token =
      .ok ⟨p.past token, opened, forms, .token start (token.reverse ++ seen)⟩ := by
  -- By induction on the token.
  induction token generalizing p seen with
  | nil => rfl
  | cons c rest ih =>
    rw [run_cons (step_word (inside c (by simp))), ih fun d member => inside d (by simp [member])]
    simp

/-- A token is read from its first character to its last. -/
theorem run_word {token : List Char} (nonempty : token ≠ [])
    (inside : ∀ c ∈ token, ¬ Token.isDelimiter c) :
    (⟨p, opened, forms, .gap⟩ : Scan).run token =
      .ok ⟨p.past token, opened, forms, .token p token.reverse⟩ := by
  obtain ⟨c, others, rfl⟩ := List.exists_cons_of_ne_nil nonempty
  have first : ¬ Token.isDelimiter c := inside c (by simp)
  rw [run_cons (step_token first), run_token fun d member => inside d (by simp [member])]
  simp

/-- A comment takes characters other than newlines. -/
theorem run_remark {remark : List Char} (line : '\n' ∉ remark) :
    (⟨p, opened, forms, .comment⟩ : Scan).run remark =
      .ok ⟨p.past remark, opened, forms, .comment⟩ := by
  -- By induction on the remark.
  induction remark generalizing p with
  | nil => rfl
  | cons c rest ih =>
    simp only [List.mem_cons, not_or] at line
    rw [run_cons (step_comment (Ne.symm line.1)), ih line.2]
    rfl

/-- A comment is read up to its newline, and leaves nothing behind. -/
theorem run_comment {remark : List Char} (line : '\n' ∉ remark) :
    (⟨p, opened, forms, .gap⟩ : Scan).run (';' :: remark ++ ['\n']) =
      .ok ⟨p.past (';' :: remark ++ ['\n']), opened, forms, .gap⟩ := by
  rw [List.cons_append, run_cons step_remark, run_append, run_remark line]
  simp [Except.bind, run, step, read, Except.map, bind, pure, Except.pure]

/-- A string takes what stands between its quotation marks. -/
theorem run_quotes {start : Position} {bad : Option Char} {seen body meant unknown : List Char}
    (quotes : Quotes body meant unknown) :
    (⟨p, opened, forms, .string start seen bad⟩ : Scan).run body =
      .ok ⟨p.past body, opened, forms,
        .string start (meant.reverse ++ seen) (bad.or unknown.head?)⟩ := by
  -- By induction on what stands there, an escape being two steps.
  induction quotes generalizing p seen bad with
  | nil => simp [run, pure, Except.pure]
  | plain unquoted literal rest ih =>
    rw [run_cons (step_plain unquoted literal), ih]
    simp
  -- An escape is a backslash and a character, and the two are read in two steps.
  | escape known rest ih =>
    rw [run_cons step_backslash, run_cons (step_escape (mem_escapes.mp known)), ih]
    simp
  | unknown foreign rest ih =>
    rw [run_cons step_backslash, run_cons (step_unknown (unescape?_eq_none.mpr foreign)), ih]
    simp

/-- A string is read from one quotation mark to the other, and leaves its atom behind. -/
theorem run_string {body : List Char} {atom : Atom} (literal : Literal p body atom) :
    (⟨p, opened, forms, .gap⟩ : Scan).run ('"' :: body ++ ['"']) =
      .ok ⟨p.past ('"' :: body ++ ['"']), opened, .atom p atom :: forms, .gap⟩ := by
  obtain ⟨meant, unknown, quotes, rfl⟩ := literal.quotes
  rw [List.cons_append, run_cons step_quote, run_append, run_quotes quotes]
  simp [Except.bind, run, step, read, push, Except.map, bind, pure, Except.pure]

end Scan
end QLisp
