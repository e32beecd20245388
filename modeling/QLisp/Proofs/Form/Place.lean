import Mathlib.Data.List.Induction
import QLisp.Proofs.Form.Enclosure
import QLisp.Proofs.Form.Shift

/-!
Places of forms.

The reader counts bytes, lines and columns as it goes. Counted anew, from the bytes that come before it,
a place is the same. At the place of a form the text goes on with that form, and of two forms the one
that begins first comes first, a list before what it holds.
-/

namespace QLisp

open Grammar

/-- A place in a text tells how much comes before it: bytes, lines, and characters on the last line. -/
structure Position.Counts (p : Position) (bytes : Text.Bytes) : Prop where
  /-- It is not past the end. -/
  within : p.offset ≤ bytes.length
  /-- The bytes before it spell whole characters. -/
  whole : (Text.decode (bytes.take p.offset)).complete
  /-- Its line is one more than the newlines before it. -/
  line : p.line = 1 + (bytes.take p.offset).count 0x0A
  /-- Its column is one more than the characters before it and after the last newline. -/
  column : p.column =
    1 + ((Text.decode (bytes.take p.offset)).chars.reverse.takeWhile (· ≠ '\n')).length

mutual

/-- A form and all forms in it, a list before what it holds. -/
def Form.nodes : Form → List Form
  | .atom place leaf => [.atom place leaf]
  | .list place kind children => .list place kind children :: nodesAll children

/-- Forms and all forms in them, in the order in which they begin. -/
def Form.nodesAll : List Form → List Form
  | [] => []
  | form :: forms => form.nodes ++ nodesAll forms

end

/-- What stands in a text from the place of a form on. -/
inductive Form.Begins : Form → List Char → Prop where
  /-- The opening bracket of a list. -/
  | list {p : Position} {kind : ListKind} {children : List Form} {rest : List Char} :
      Begins (.list p kind children) (kind.opener :: rest)
  /-- A string, from one quotation mark to the other. -/
  | string {p : Position} {body rest : List Char} {atom : Atom} (literal : Literal p body atom) :
      Begins (.atom p atom) ('"' :: body ++ ['"'] ++ rest)
  /-- A token, as long as it can be. -/
  | token {p : Position} {token rest : List Char} {atom : Atom} (nonempty : token ≠ [])
      (inside : ∀ c ∈ token, ¬ Token.isDelimiter c) (ends : EndsToken rest)
      (means : Means p token atom) : Begins (.atom p atom) (token ++ rest)

variable {p : Position} {chars before after rest : List Char} {forms : List Form} {form : Form}
  {bytes : Text.Bytes}

/-! ### Counting -/

namespace Text

/-- What comes before a character of a text is spelled by the first bytes, and the rest by the others. -/
theorem decode_split (spelled : (decode bytes).chars = before ++ after) :
    let offset := (encode (String.ofList before)).length
    offset ≤ bytes.length ∧ bytes.take offset = encode (String.ofList before) ∧
      decode (bytes.drop offset) = ⟨after, (decode bytes).complete⟩ := by
  intro offset
  obtain ⟨tail, same, _⟩ := exists_of_decode bytes
  -- The bytes are those of the characters, and others that spell none.
  have joined : bytes = encode (String.ofList before) ++ (encode (String.ofList after) ++ tail) := by
    rw [spelled] at same
    rw [← List.append_assoc]
    simpa [encode] using same
  have first : bytes.take offset = encode (String.ofList before) := by
    rw [joined]
    exact List.take_left
  have second : bytes.drop offset = encode (String.ofList after) ++ tail := by
    rw [joined]
    exact List.drop_left
  -- Decoding goes on where the characters before the place end.
  have whole := decode_encode_append (String.ofList before) (bytes.drop offset)
  rw [← first, List.take_append_drop] at whole
  -- The place is inside the text, and both parts are what the cut gives.
  refine ⟨?_, first, ?_⟩
  · rw [joined, List.length_append]
    exact Nat.le_add_right _ _
  · have chars : (decode bytes).chars = before ++ (decode (bytes.drop offset)).chars := by
      rw [whole, String.toList_ofList]
    -- The characters left over are those after the place, and are complete when the whole is.
    have later : (decode (bytes.drop offset)).chars = after :=
      List.append_cancel_left (chars.symm.trans spelled)
    have complete : (decode bytes).complete = (decode (bytes.drop offset)).complete := by
      rw [whole]
    rw [← later, complete]

end Text

namespace Position

/-- A character takes some bytes. -/
theorem offset_lt_after (p : Position) (c : Char) : p.offset < (p.after c).offset := by
  have positive := c.utf8Size_pos
  unfold after
  split <;> simp <;> omega

/-- Characters lead no way back. -/
theorem offset_le_past (p : Position) (chars : List Char) : p.offset ≤ (p.past chars).offset := by
  obtain ⟨column, place⟩ := p.past_eq chars
  rw [place]
  exact Nat.le_add_right _ _

/-- Characters lead on if there are any. -/
theorem offset_lt_past (p : Position) (some : chars ≠ []) : p.offset < (p.past chars).offset := by
  obtain ⟨c, rest, rfl⟩ := List.exists_cons_of_ne_nil some
  exact Nat.lt_of_lt_of_le (p.offset_lt_after c) (offset_le_past _ rest)

/-- The column after some characters is one more than the number of those on the last line. -/
theorem column_past (chars : List Char) :
    (start.past chars).column = 1 + (chars.reverse.takeWhile (· ≠ '\n')).length := by
  -- By induction on the characters from the last one back.
  induction chars using List.reverseRecOn with
  | nil => rfl
  | append_singleton first c ih =>
    rw [past_append, past_cons, past_nil, List.reverse_append, List.reverse_singleton,
      List.singleton_append, after]
    by_cases newline : c = '\n'
    · rw [if_pos newline, List.takeWhile_cons_of_neg (by simp [newline])]
      rfl
    · rw [if_neg newline, List.takeWhile_cons_of_pos (by simp [newline]), List.length_cons]
      exact congrArg (· + 1) ih

/-- The place after characters of a text counts them. -/
theorem counts_past (spelled : (Text.decode bytes).chars = before ++ after) :
    (start.past before).Counts bytes ∧ Text.decode (bytes.drop (start.past before).offset) =
      ⟨after, (Text.decode bytes).complete⟩ := by
  obtain ⟨within, first, second⟩ := Text.decode_split spelled
  obtain ⟨column, place⟩ := start.past_eq before
  -- A text is counted from its beginning, so the offset is the length of what comes before.
  have offset : (start.past before).offset = (Text.encode (String.ofList before)).length := by
    rw [place]
    exact Nat.zero_add _
  have decoded : Text.decode (Text.encode (String.ofList before)) = ⟨before, true⟩ :=
    Text.complete_iff.mpr rfl
  rw [← offset] at within first second
  -- The line is one more than the newlines before the place, and the column counts from the last of these.
  refine ⟨⟨within, ?_, ?_, ?_⟩, second⟩
  · rw [first, decoded]
  · rw [first, place]
    rfl
  · rw [first, decoded, column_past]

end Position

/-! ### Forms and what stands at their places -/

namespace Form

/-- Forms begin one after the other, between two offsets. -/
structure Ascending (low high : Nat) (nodes : List Form) : Prop where
  /-- Each begins before those after it. -/
  ordered : nodes.Pairwise (·.position.offset < ·.position.offset)
  /-- None begins before the first offset. -/
  low (form : Form) : form ∈ nodes → low ≤ form.position.offset
  /-- All begin before the second one. -/
  high (form : Form) : form ∈ nodes → form.position.offset < high

namespace Ascending

variable {low lower mid high higher : Nat} {nodes others : List Form}

/-- No forms are in order. -/
theorem nil (low high : Nat) : Ascending low high [] :=
  ⟨.nil, nofun, nofun⟩

/-- Forms may begin later than they have to. -/
theorem earlier (ascending : Ascending low high nodes) (less : lower ≤ low) :
    Ascending lower high nodes :=
  { ascending with low := fun form member => Nat.le_trans less (ascending.low form member) }

/-- Forms may begin earlier than they have to. -/
theorem within (ascending : Ascending low mid nodes) (more : mid ≤ high) :
    Ascending low high nodes :=
  { ascending with high := fun form member => Nat.lt_of_lt_of_le (ascending.high form member) more }

/-- Forms may come after others that begin before them. -/
theorem append (first : Ascending low mid nodes) (second : Ascending mid high others)
    (less : low ≤ mid) (more : mid ≤ high) : Ascending low high (nodes ++ others) where
  ordered := List.pairwise_append.mpr ⟨first.ordered, second.ordered, fun form here other there =>
    Nat.lt_of_lt_of_le (first.high form here) (second.low other there)⟩
  -- The first forms begin before the middle, and the others at it or after.
  low := by
    -- Every form comes from one part or the other; the bound in the middle lies between these.
    intro form member
    rcases List.mem_append.mp member with here | there
    · exact first.low form here
    · exact Nat.le_trans less (second.low form there)
  high := by
    intro form member
    rcases List.mem_append.mp member with here | there
    · exact Nat.lt_of_lt_of_le (first.high form here) more
    · exact second.high form there

end Ascending

/-- One form is in order. -/
theorem ascending_single {low high : Nat} (first : form.position.offset = low) (less : low < high) :
    Ascending low high [form] where
  ordered := List.pairwise_singleton _ _
  low := by simp [first]
  high := by simp [first, less]

/-- A diagnostic begins with the place of its form. -/
theorem Begins.diagnostic {message : String} (begins : Begins (.atom p (.malformed message)) chars) :
    ∃ complaint, message = p.render ++ ": " ++ complaint := by
  -- Only a token or a string that means nothing is a diagnostic, and it is made for the place.
  cases begins with
  | string literal =>
    generalize known : Atom.malformed message = atom at literal
    cases literal with
    | string => cases known
    | malformed => exact ⟨_, Atom.malformed.inj known⟩
  | token _ _ _ means =>
    -- A token has a diagnostic when it is no number or no symbol.
    generalize known : Atom.malformed message = atom at means
    cases means with
    | noNumber | noSymbol => exact ⟨_, Atom.malformed.inj known⟩
    | _ => cases known

end Form

namespace Grammar

/-- At the place of every form that characters spell they go on with that form. -/
theorem Spells.begins (spells : Spells p chars forms) (ends : EndsToken rest) :
    ∀ form ∈ Form.nodesAll forms, ∃ before after, chars = before ++ after ∧
      form.position = p.past before ∧ form.Begins (after ++ rest) := by
  -- By induction on the grammar; what comes after a part is the rest of the text for what is in it.
  induction spells generalizing rest with
  | nil p => simp [Form.nodesAll]
  | @space p c later forms blank _ ih =>
    -- The character comes before whatever the rest holds, so places are further by it.
    intro form member
    obtain ⟨before, after, rfl, place, begins⟩ := ih ends form member
    exact ⟨[c] ++ before, after, by simp, by rw [place, ← Position.past_append], begins⟩
  | @comment p remark later forms line _ ih =>
    -- So does a whole comment, with the newline that ends it.
    intro form member
    obtain ⟨before, after, rfl, place, begins⟩ := ih ends form member
    exact ⟨';' :: remark ++ ['\n'] ++ before, after, by simp, by rw [place, ← Position.past_append],
      begins⟩
  | @token p token later atom forms nonempty inside stops means _ ih =>
    intro form member
    rw [Form.nodesAll, Form.nodes, List.singleton_append, List.mem_cons] at member
    -- The form is the token itself, which ends where the rest begins, or comes after it.
    rcases member with rfl | member
    · refine ⟨[], token ++ later, rfl, rfl, ?_⟩
      rw [List.append_assoc]
      exact .token nonempty inside (stops.append ends) means
    · obtain ⟨before, after, rfl, place, begins⟩ := ih ends form member
      exact ⟨token ++ before, after, by simp, by rw [place, ← Position.past_append], begins⟩
  | @string p body later atom forms literal _ ih =>
    intro form member
    rw [Form.nodesAll, Form.nodes, List.singleton_append, List.mem_cons] at member
    -- The form is the string itself or comes after it.
    rcases member with rfl | member
    · refine ⟨[], '"' :: body ++ ['"'] ++ later, rfl, rfl, ?_⟩
      rw [List.append_assoc]
      exact .string literal
    · obtain ⟨before, after, rfl, place, begins⟩ := ih ends form member
      exact ⟨'"' :: body ++ ['"'] ++ before, after, by simp,
        by rw [place, ← Position.past_append], begins⟩
  | @list p kind inner later children forms _ _ ihNested ih =>
    intro form member
    rw [Form.nodesAll, Form.nodes, List.cons_append, List.mem_cons, List.mem_append] at member
    -- The form is the list itself, or one of those between its brackets, or comes after it.
    rcases member with rfl | nested | member
    · exact ⟨[], kind.opener :: inner ++ [kind.closer] ++ later, rfl, rfl, .list⟩
    · -- The children are followed by the closing bracket.
      have closes : EndsToken (kind.closer :: later ++ rest) :=
        endsToken_cons.mpr (isDelimiter_closer kind)
      obtain ⟨before, after, rfl, place, begins⟩ := ihNested closes form nested
      refine ⟨kind.opener :: before, after ++ [kind.closer] ++ later, by simp, ?_, ?_⟩
      · rw [place, ← Position.past_append]
        rfl
      · simpa using begins
    -- What comes after the list is read where the list has ended.
    · obtain ⟨before, after, rfl, place, begins⟩ := ih ends form member
      exact ⟨kind.opener :: inner ++ [kind.closer] ++ before, after, by simp,
        by rw [place, ← Position.past_append], begins⟩

/-- The forms that characters spell begin one after the other, from the first character to the last. -/
theorem Spells.ascending (spells : Spells p chars forms) :
    Form.Ascending p.offset (p.past chars).offset (Form.nodesAll forms) := by
  -- By induction on the grammar; later parts begin where earlier ones have ended.
  induction spells with
  | nil p => exact .nil _ _
  | @space p c later forms blank _ ih =>
    rw [Position.past_append]
    exact ih.earlier (p.offset_le_past [c])
  | @comment p remark later forms line _ ih =>
    rw [Position.past_append]
    exact ih.earlier (p.offset_le_past _)
  -- A token takes at least one character, so what follows begins after it.
  | @token p token later atom forms nonempty inside stops means _ ih =>
    rw [Position.past_append]
    have first : Form.Ascending _ _ [.atom p atom] :=
      Form.ascending_single rfl (p.offset_lt_past nonempty)
    exact first.append ih (p.offset_le_past _) (Position.offset_le_past _ _)
  | @string p body later atom forms literal _ ih =>
    rw [Position.past_append]
    have some : '"' :: body ++ ['"'] ≠ [] := by simp
    have first : Form.Ascending _ _ [.atom p atom] := Form.ascending_single rfl (p.offset_lt_past some)
    exact first.append ih (p.offset_le_past _) (Position.offset_le_past _ _)
  | @list p kind inner later children forms _ _ ihNested ih =>
    -- A list has its brackets, so the children begin after the place of the list itself.
    rw [Position.past_append]
    -- The list itself begins at its bracket, and what it holds after it.
    have some : [kind.opener] ≠ [] := by simp
    have bracket : Form.Ascending _ _ [.list p kind children] :=
      Form.ascending_single rfl (p.offset_lt_past some)
    have held := bracket.append ihNested (p.offset_le_past _) (Position.offset_le_past _ _)
    have closed : ((p.past [kind.opener]).past inner).offset ≤
        (p.past (kind.opener :: inner ++ [kind.closer])).offset := by
      rw [Position.past_append]
      exact Position.offset_le_past _ _
    exact (held.within closed).append ih (p.offset_le_past _) (Position.offset_le_past _ _)

end Grammar
end QLisp
