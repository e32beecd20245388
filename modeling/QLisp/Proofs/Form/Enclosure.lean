import QLisp.Proofs.Form.Reading

/-!
Texts between brackets.

A text that can be read may be put between round brackets. A newline before the closing one ends a
comment that would hide it. The whole is then one list with the forms of the text. Every form is one
byte further than on its own, and one column further on the first line.
-/

namespace QLisp

/-- A text between round brackets, with a newline before the closing one. -/
def Text.enclosed (bytes : Bytes) : Bytes :=
  encode "(" ++ bytes ++ encode "\n)"

/-- A place in a text that is put between brackets. -/
def Position.enclosed (p : Position) : Position :=
  ⟨p.offset + 1, p.line, if p.line = 1 then p.column + 1 else p.column⟩

/-- An atom in a text that is put between brackets: a diagnostic begins with its place. -/
def Atom.enclosed (place : Position) : Atom → Atom
  | .malformed message =>
    .malformed (place.enclosed.render ++
      String.ofList (message.toList.drop place.render.toList.length))
  | atom => atom

/-- A form in a text that is put between brackets. -/
def Form.enclosed : Form → Form
  | .atom place leaf => .atom place.enclosed (leaf.enclosed place)
  | .list place kind children => .list place.enclosed kind (children.map enclosed)

/-! ### Places -/

namespace Position

/-- No line comes before the one that a character is on. -/
theorem line_le_after (p : Position) (c : Char) : p.line ≤ (p.after c).line := by
  unfold after
  split <;> simp

/-- No line comes before the one that characters begin on. -/
theorem line_le_past (p : Position) (chars : List Char) : p.line ≤ (p.past chars).line := by
  induction chars generalizing p with
  | nil => exact Nat.le_refl _
  | cons c rest ih => exact Nat.le_trans (p.line_le_after c) (ih (p.after c))

/-- A character takes as much of a text between brackets. -/
theorem enclosed_after {p : Position} (counted : 1 ≤ p.line) (c : Char) :
    (p.after c).enclosed = p.enclosed.after c := by
  -- The line after a newline is not the first one, so its columns are the same.
  unfold after enclosed
  by_cases newline : c = '\n'
  · have later : p.line + 1 ≠ 1 := by omega
    simp only [if_pos newline, if_neg later, mk.injEq, and_true]
    omega
  · simp only [if_neg newline, mk.injEq, true_and]
    constructor
    · omega
    · split <;> rfl

/-- Characters take as much of a text between brackets. -/
theorem enclosed_past {p : Position} (counted : 1 ≤ p.line) (chars : List Char) :
    (p.past chars).enclosed = p.enclosed.past chars := by
  induction chars generalizing p with
  | nil => rfl
  | cons c rest ih =>
    have counted' : 1 ≤ (p.after c).line := Nat.le_trans counted (p.line_le_after c)
    rw [past_cons, past_cons, ih counted', enclosed_after counted]

/-- A text between brackets begins after the opening one. -/
theorem start_enclosed : start.enclosed = start.past ['('] := rfl

end Position

/-! ### Forms -/

/-- A diagnostic in a text that is put between brackets is about the place that its token has there. -/
theorem Atom.enclosed_malformed (place : Position) (complaint : String) :
    (Token.malformed place complaint).enclosed place =
      Token.malformed place.enclosed complaint := by
  rw [Token.malformed, String.append_assoc, Atom.enclosed, place.drop_render, Token.malformed,
    String.append_assoc]

namespace Grammar

variable {p place : Position} {chars rest : List Char} {atom : Atom} {forms more : List Form}

/-- A token means the same in a text that is put between brackets. -/
theorem Means.enclosed (means : Means place chars atom) :
    Means place.enclosed chars (atom.enclosed place) := by
  -- Only a token that means nothing tells of its place.
  cases means with
  | yes => exact .yes
  | no => exact .no
  | number numeric spelled => exact .number numeric spelled
  -- A diagnostic is told again for the place where the token is now.
  | noNumber numeric missing =>
    rw [Atom.enclosed_malformed]
    exact .noNumber numeric missing
  | reserved p => exact .reserved p
  | symbol symbolic textual notTrue notFalse free =>
    exact .symbol symbolic textual notTrue notFalse free
  | noSymbol textual foreign =>
    rw [Atom.enclosed_malformed]
    exact .noSymbol textual foreign

/-- A string means the same in a text that is put between brackets. -/
theorem Literal.enclosed (literal : Literal place chars atom) :
    Literal place.enclosed chars (atom.enclosed place) := by
  cases literal with
  | string quotes => exact .string quotes
  | malformed quotes =>
    rw [Atom.enclosed_malformed]
    exact .malformed quotes

/-- What characters spell they spell in a text that is put between brackets. -/
theorem Spells.enclosed (spells : Spells p chars forms) (counted : 1 ≤ p.line) :
    Spells p.enclosed chars (forms.map Form.enclosed) := by
  -- By induction on the grammar; each part is followed by places on the same line or later ones.
  induction spells with
  | nil p => exact .nil _
  | @space p c rest forms blank later ih =>
    have rest := ih (Nat.le_trans counted (p.line_le_past _))
    rw [Position.enclosed_past counted] at rest
    exact .space blank rest
  | @comment p remark rest forms line later ih =>
    have rest := ih (Nat.le_trans counted (p.line_le_past _))
    rw [Position.enclosed_past counted] at rest
    exact .comment line rest
  | @token p token rest atom forms nonempty inside ends means later ih =>
    have rest := ih (Nat.le_trans counted (p.line_le_past _))
    -- A leaf is moved with the place where it begins.
    rw [Position.enclosed_past counted] at rest
    rw [List.map_cons, Form.enclosed]
    exact .token nonempty inside ends means.enclosed rest
  | @string p body rest atom forms literal later ih =>
    have rest := ih (Nat.le_trans counted (p.line_le_past _))
    rw [Position.enclosed_past counted] at rest
    rw [List.map_cons, Form.enclosed]
    exact .string literal.enclosed rest
  | @list p kind inner rest children forms nested later ihNested ih =>
    -- Both the children and what comes after the list are on later lines or the same one.
    have within := ihNested (Nat.le_trans counted (p.line_le_past _))
    have rest := ih (Nat.le_trans counted (p.line_le_past _))
    rw [Position.enclosed_past counted] at within rest
    rw [List.map_cons, Form.enclosed]
    exact .list within rest

/-- A token that ends before some characters ends before more of them. -/
theorem EndsToken.append (ends : EndsToken chars) (after : EndsToken rest) :
    EndsToken (chars ++ rest) := by
  cases chars with
  | nil => exact after
  | cons c others => exact endsToken_cons.mpr (endsToken_cons.mp ends)

/-- Characters between which no token goes on. -/
def Apart (first rest : List Char) : Prop :=
  (∀ c ∈ first.getLast?, Token.isDelimiter c) ∨ EndsToken rest

/-- What keeps tokens apart after some characters does so after the last few of them. -/
theorem Apart.right {first : List Char} (apart : Apart (first ++ chars) rest) : Apart chars rest := by
  refine apart.imp (fun delimited d last => delimited d ?_) id
  rw [List.getLast?_append, Option.mem_def.mp last]
  rfl

/-- What spells forms may be followed by what spells others where no token goes on. -/
theorem Spells.append_apart (spells : Spells p chars forms) (apart : Apart chars rest)
    (later : Spells (p.past chars) rest more) : Spells p (chars ++ rest) (forms ++ more) := by
  -- By induction on the grammar; the last part is followed by the other characters.
  induction spells with
  | nil p => exact later
  | space blank inner ih =>
    rw [Position.past_append] at later
    exact .space blank (ih apart.right later)
  | comment line inner ih =>
    rw [Position.past_append] at later
    rw [List.append_assoc]
    exact .comment line (ih apart.right later)
  | @token p token between atom forms nonempty inside stops means inner ih =>
    rw [Position.past_append] at later
    have ends : EndsToken (between ++ rest) := by
      cases between with
      | cons c others => exact endsToken_cons.mpr (endsToken_cons.mp stops)
      | nil =>
        -- The token is last, so it does not end in a delimiter.
        rw [List.append_nil] at apart
        refine apart.resolve_left fun delimited => ?_
        have last := List.getLast?_eq_some_getLast nonempty
        exact inside _ (List.getLast_mem nonempty) (delimited _ last)
    rw [List.append_assoc]
    exact .token nonempty inside ends means (ih apart.right later)
  | string literal inner ih =>
    rw [Position.past_append] at later
    rw [List.append_assoc]
    exact .string literal (ih apart.right later)
  | list nested inner ihNested ih =>
    -- A part that is followed by another one is delimited as before.
    rw [Position.past_append] at later
    rw [List.append_assoc]
    exact .list nested (ih apart.right later)

/-- What spells forms may be followed by what spells others, unless that would lengthen a token. -/
theorem Spells.append (spells : Spells p chars forms) (ends : EndsToken rest)
    (later : Spells (p.past chars) rest more) : Spells p (chars ++ rest) (forms ++ more) :=
  spells.append_apart (.inr ends) later

/-- A newline may follow what a text spells, and then ends a comment. -/
theorem Spells.newline {last : List Char} (spells : Spells p chars forms) (remark : LastRemark last) :
    Spells p (chars ++ (last ++ ['\n'])) forms := by
  have none : ∀ q : Position, Spells q [] [] := .nil
  -- There is nothing that the newline could end, or a comment that it does end.
  rcases remark with rfl | ⟨remark, line, rfl⟩
  · have blank : Spells (p.past chars) (['\n'] ++ []) [] := .space (by decide) (none _)
    have whole := spells.append (endsToken_cons.mpr (by decide)) blank
    simpa using whole
  · have comment : Spells (p.past chars) (';' :: remark ++ ['\n'] ++ []) [] := .comment line (none _)
    have whole := spells.append (endsToken_cons.mpr (by decide)) comment
    simpa using whole

end Grammar

namespace Form

variable {bytes : Text.Bytes} {forms : List Form}

/-- A text that is read and put between brackets is read as one list with its forms. -/
theorem parse_enclosed (read : parse bytes = .ok forms) :
    parse (Text.enclosed bytes) = .ok [.list .start .sexpr (forms.map enclosed)] := by
  -- The text is spelled by the grammar, between the brackets as well.
  obtain ⟨text, rfl⟩ := exists_text_of_parse read
  obtain ⟨body, last, chars, spells, remark⟩ := parse_encode_iff.mp read
  have whole : Text.enclosed (Text.encode text) = Text.encode ("(" ++ text ++ "\n)") := by
    simp [Text.enclosed, Text.encode]
  rw [whole, parse_encode_iff]
  -- The forms end with a newline, and then comes the bracket.
  have inner := (spells.enclosed (Nat.le_refl 1)).newline remark
  rw [Position.start_enclosed] at inner
  have list : Grammar.Spells .start (ListKind.sexpr.opener :: _ ++ [ListKind.sexpr.closer] ++ [])
      [.list .start .sexpr _] := .list inner (.nil _)
  refine ⟨_, [], ?_, list, .inl rfl⟩
  simp [chars, ListKind.opener, ListKind.closer]

end Form
end QLisp
