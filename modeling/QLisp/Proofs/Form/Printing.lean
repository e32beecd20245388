import QLisp.Proofs.Form.Place
import QLisp.Proofs.Text.Quoted

/-!
Printed forms read again.

Forms that a text spells are printed as a text that spells forms again. They are the same up to their
places, but for strings in which the printer escapes a character that the reader has no escape for: what
is read in the place of such a string is a complaint about it. The null character is one of these, and
the reader knows an escape for it that the printer does not use.
-/

namespace QLisp

open Grammar

namespace Atom

/-- A leaf that is not a complaint. -/
def Sound (leaf : Atom) : Prop :=
  ∀ message, leaf ≠ .malformed message

/-- All characters of the strings in a leaf can be held by string literals as they are printed. -/
def Legible : Atom → Prop
  | .string text => ∀ c ∈ text.toList, Text.Legible c
  | _ => True

/-- What a leaf is read as at a place when it has been printed. -/
inductive Rereads (place : Position) : Atom → Atom → Prop where
  /-- Itself, if it is legible. -/
  | same {leaf : Atom} (legible : leaf.Legible) : Rereads place leaf leaf
  /-- A complaint in the place of a string that is not. -/
  | complaint {text letter : String} (illegible : ¬ (Atom.string text).Legible) :
      Rereads place (.string text)
        (Token.malformed place ("unknown escape sequence \\" ++ letter ++ " in string"))

end Atom

namespace Form

mutual

/-- What a form is read as when it has been printed: the same, but for its leaves. -/
inductive Rereads : Form → Form → Prop where
  | atom {p place : Position} {leaf leaf' : Atom} (rereads : leaf.Rereads place leaf') :
      Rereads (.atom p leaf) (.atom place leaf')
  | list {p place : Position} {kind : ListKind} {children children' : List Form}
      (inside : RereadsAll children children') :
      Rereads (.list p kind children) (.list place kind children')

/-- What forms are read as, one by one. -/
inductive RereadsAll : List Form → List Form → Prop where
  | nil : RereadsAll [] []
  | cons {form form' : Form} {forms forms' : List Form} (head : Rereads form form')
      (tail : RereadsAll forms forms') : RereadsAll (form :: forms) (form' :: forms')

end

/-- A form without its places. -/
def stripped : Form → Form
  | .atom _ leaf => .atom .start leaf
  | .list _ kind children => .list .start kind (children.map stripped)

/-- Every leaf of some forms is good. -/
def EachLeaf (good : Atom → Prop) (forms : List Form) : Prop :=
  ∀ p leaf, Form.atom p leaf ∈ nodesAll forms → good leaf

/-- A form is printed as what spells it again, wherever a token may end after it. -/
def Respelled (form : Form) : Prop :=
  ∀ place rest later, EndsToken rest → Spells (place.past (form.spell [])) rest later →
    ∃ form', form.Rereads form' ∧ Spells place (form.spell [] ++ rest) (form' :: later)

end Form

variable {p place : Position} {c : Char} {chars token : List Char} {form form' : Form}
  {forms forms' children : List Form} {leaf leaf' : Atom} {kind : ListKind} {good : Atom → Prop}

/-! ### Leaves -/

namespace Form

/-- No leaf is bad among none. -/
theorem eachLeaf_nil : EachLeaf good [] :=
  nofun

/-- The leaves of a leaf and other forms. -/
theorem eachLeaf_atom_cons :
    EachLeaf good (.atom p leaf :: forms) ↔ good leaf ∧ EachLeaf good forms := by
  simp only [EachLeaf, nodesAll, nodes, List.singleton_append, List.mem_cons, atom.injEq]
  constructor
  · exact fun all => ⟨all p leaf (.inl ⟨rfl, rfl⟩), fun q other member => all q other (.inr member)⟩
  · rintro ⟨first, others⟩ q other (⟨-, rfl⟩ | member)
    · exact first
    · exact others q other member

/-- The leaves of a list and other forms. -/
theorem eachLeaf_list_cons :
    EachLeaf good (.list p kind children :: forms) ↔ EachLeaf good children ∧ EachLeaf good forms := by
  simp only [EachLeaf, nodesAll, nodes, List.cons_append, List.mem_cons, List.mem_append, reduceCtorEq,
    false_or]
  constructor
  -- A leaf below the list is one of its children's, and the others come after it.
  · exact fun all => ⟨fun q other member => all q other (.inl member),
      fun q other member => all q other (.inr member)⟩
  · rintro ⟨inside, others⟩ q other (member | member)
    · exact inside q other member
    · exact others q other member

end Form

/-- What a leaf is read as is the same just when it is legible. -/
theorem Atom.Rereads.eq_iff (rereads : leaf.Rereads place leaf') : leaf' = leaf ↔ leaf.Legible := by
  cases rereads with
  | same legible => exact iff_of_true rfl legible
  | complaint illegible => exact iff_of_false (nomatch ·) illegible

mutual

/-- What a form is read as is the same without places just when all strings in it are legible. -/
theorem Form.Rereads.stripped_iff : ∀ {form form' : Form}, form.Rereads form' →
    (form'.stripped = form.stripped ↔ EachLeaf Atom.Legible [form])
  | _, _, .atom rereads => by
    rw [stripped, stripped, atom.injEq, and_iff_right rfl, rereads.eq_iff, eachLeaf_atom_cons,
      and_iff_left eachLeaf_nil]
  | _, _, .list inside => by
    rw [stripped, stripped, list.injEq, and_iff_right rfl, and_iff_right rfl, inside.stripped_iff,
      eachLeaf_list_cons, and_iff_left eachLeaf_nil]

/-- What forms are read as is the same without places just when all strings in them are legible. -/
theorem Form.RereadsAll.stripped_iff : ∀ {forms forms' : List Form}, RereadsAll forms forms' →
    (forms'.map stripped = forms.map stripped ↔ EachLeaf Atom.Legible forms)
  | _, _, .nil => iff_of_true rfl eachLeaf_nil
  | form :: forms, _, .cons head tail => by
    rw [List.map_cons, List.map_cons, List.cons.injEq, head.stripped_iff, tail.stripped_iff]
    cases form with
    | atom => rw [eachLeaf_atom_cons, eachLeaf_atom_cons, and_iff_left eachLeaf_nil]
    | list => rw [eachLeaf_list_cons, eachLeaf_list_cons, and_iff_left eachLeaf_nil]

end

/-! ### Printing -/

namespace Form

/-- Forms are printed with a space after the first of several. -/
theorem spellAll_cons (form next : Form) (others : List Form) (rest : List Char) :
    spellAll (form :: next :: others) rest = form.spell (' ' :: spellAll (next :: others) rest) := rfl

mutual

/-- The characters of a form come before what follows them. -/
theorem spell_eq : ∀ (form : Form) (rest : List Char), form.spell rest = form.spell [] ++ rest
  | .atom p leaf, rest => by
    have shape : ∀ rest, (Form.atom p leaf).spell rest = leaf.chars ++ rest := fun _ => rfl
    rw [shape, shape, List.append_nil]
  | .list p kind children, rest => by
    have shape : ∀ rest, (Form.list p kind children).spell rest =
        [kind.opener] ++ spellAll children ([kind.closer] ++ rest) := fun _ => rfl
    rw [shape, shape, spellAll_eq children, spellAll_eq children ([kind.closer] ++ [])]
    simp only [List.append_assoc, List.append_nil]

/-- The characters of forms, with spaces between them, come before what follows them. -/
theorem spellAll_eq : ∀ (forms : List Form) (rest : List Char),
    spellAll forms rest = [' '].intercalate (forms.map (·.spell [])) ++ rest
  | [], rest => rfl
  | [form], rest => by
    rw [List.map_singleton, List.intercalate_singleton]
    exact form.spell_eq rest
  | form :: next :: others, rest => by
    rw [spellAll_cons, form.spell_eq, spellAll_eq (next :: others) rest]
    simp only [List.map_cons, List.intercalate_cons_cons, List.append_assoc, List.cons_append,
      List.nil_append]

end

/-- A list is printed as its children with spaces between them, in its brackets. -/
theorem spell_list : (Form.list p kind children).spell [] =
    kind.opener :: [' '].intercalate (children.map (·.spell [])) ++ [kind.closer] :=
  congrArg (kind.opener :: ·) (spellAll_eq children [kind.closer])

/-- Forms that are respelled spell forms again with white space between them. -/
theorem spells_between (blank : Text.isSpace c) (respelled : ∀ form ∈ forms, form.Respelled) :
    ∀ place, ∃ forms', RereadsAll forms forms' ∧
      Spells place ([c].intercalate (forms.map (·.spell []))) forms' := by
  -- By induction on the forms; a token may end before the white space and at the end.
  induction forms with
  | nil => exact fun place => ⟨[], .nil, .nil place⟩
  | cons form others ih =>
    intro place
    have first := respelled form (by simp)
    cases others with
    -- The last form is followed by nothing.
    | nil =>
      obtain ⟨form', rereads, spells⟩ := first place [] [] nofun (.nil _)
      rw [List.append_nil] at spells
      exact ⟨[form'], .cons rereads .nil, by simpa using spells⟩
    | cons next more =>
      obtain ⟨forms', rest, inner⟩ := ih (fun other member => respelled other (by simp [member]))
        ((place.past (form.spell [])).past [c])
      -- White space delimits whatever stands before it.
      have delimits : EndsToken ([c] ++ [c].intercalate ((next :: more).map (·.spell []))) :=
        endsToken_cons.mpr (by simp [Token.isDelimiter, blank])
      obtain ⟨form', rereads, spells⟩ := first place _ _ delimits (.space blank inner)
      refine ⟨form' :: forms', .cons rereads rest, ?_⟩
      rw [List.map_cons, List.map_cons, List.intercalate_cons_cons, List.append_assoc]
      exact spells

end Form

/-! ### Reading what was printed -/

namespace Grammar

/-- A token that means something is printed as it was, and means the same at any other place. -/
theorem Means.printed (means : Means p token leaf) (sound : leaf.Sound) (place : Position) :
    leaf.chars = token ∧ Means place token leaf ∧ leaf.Legible := by
  -- Every kind of token is spelled back from what it means; a complaint is excluded.
  cases means with
  | yes => exact ⟨rfl, .yes, trivial⟩
  | no => exact ⟨rfl, .no, trivial⟩
  | number numeric spelled => exact ⟨String.toList_ofList, .number numeric spelled, trivial⟩
  | reserved p => exact ⟨rfl, .reserved p, trivial⟩
  | symbol symbolic textual notTrue notFalse free =>
    exact ⟨String.toList_ofList, .symbol symbolic textual notTrue notFalse free, trivial⟩
  | noNumber | noSymbol => exact absurd rfl (sound _)

/-- A string is printed as one that means the same if it is legible, and else nothing. -/
theorem Literal.printed {body : List Char} (literal : Literal p body leaf) (sound : leaf.Sound)
    (place : Position) : ∃ body' leaf', leaf.chars = '"' :: body' ++ ['"'] ∧
      Literal place body' leaf' ∧ leaf.Rereads place leaf' := by
  cases literal with
  | malformed => exact absurd rfl (sound _)
  | @string meant _ =>
    obtain ⟨leaf', literal, legible, illegible⟩ := literal_quoted place (String.ofList meant).toList
    -- A string with a character that is not legible is printed with an escape that is unknown.
    refine ⟨_, leaf', rfl, literal, ?_⟩
    by_cases fine : (Atom.string (String.ofList meant)).Legible
    · rw [legible fine, String.ofList_toList]
      exact .same fine
    · have bad := fine
      rw [Atom.Legible] at bad
      push Not at bad
      obtain ⟨letter, rfl⟩ := illegible bad
      exact .complaint fine

/-- Forms that are spelled without complaints are respelled. -/
theorem Spells.respelled (spells : Spells p chars forms) (sound : Form.EachLeaf Atom.Sound forms) :
    ∀ form ∈ forms, form.Respelled := by
  -- By induction on the grammar; the children of a list are printed with spaces between them.
  induction spells with
  | nil => exact nofun
  | space _ _ ih => exact ih sound
  | comment _ _ ih => exact ih sound
  -- A token is printed as it was, and what comes after ends it as before.
  | @token p token rest leaf forms nonempty inside ends means later ih =>
    obtain ⟨first, others⟩ := Form.eachLeaf_atom_cons.mp sound
    refine List.forall_mem_cons.mpr ⟨?_, ih others⟩
    intro place rest later ends spells
    obtain ⟨chars, means, legible⟩ := means.printed first place
    have text : (Form.atom p leaf).spell [] = token := (List.append_nil _).trans chars
    rw [text] at spells ⊢
    exact ⟨.atom place leaf, .atom (.same legible), .token nonempty inside ends means spells⟩
  -- A string ends with its own quotation mark, so it does not matter what follows.
  | @string p body rest leaf forms literal later ih =>
    obtain ⟨first, others⟩ := Form.eachLeaf_atom_cons.mp sound
    refine List.forall_mem_cons.mpr ⟨?_, ih others⟩
    intro place rest later _ spells
    obtain ⟨body', leaf', chars, literal, rereads⟩ := literal.printed first place
    have text : (Form.atom p leaf).spell [] = '"' :: body' ++ ['"'] := (List.append_nil _).trans chars
    rw [text] at spells ⊢
    exact ⟨.atom place leaf', .atom rereads, .string literal spells⟩
  -- The children are printed with a space between them, which may stand between any two forms.
  | @list p kind inner rest children forms nested later ihNested ih =>
    obtain ⟨inside, others⟩ := Form.eachLeaf_list_cons.mp sound
    refine List.forall_mem_cons.mpr ⟨?_, ih others⟩
    intro place rest later _ spells
    obtain ⟨children', rereads, within⟩ :=
      Form.spells_between (c := ' ') (by decide) (ihNested inside) (place.past [kind.opener])
    rw [Form.spell_list] at spells ⊢
    exact ⟨.list place kind children', .list rereads, .list within spells⟩

end Grammar

namespace Form

/--
Forms that are read without complaints are printed as a text, one on each line, that is read as forms
again. Those are the same up to their places, but for a complaint in the place of each string that is not
legible, and so they are the same just when all strings are legible.
-/
theorem parse_printed (bytes : Text.Bytes) (forms : List Form) (read : parse bytes = .ok forms)
    (sound : EachLeaf Atom.Sound forms) :
    ∃ forms', parse (Text.encode ("\n".intercalate (forms.map render))) = .ok forms' ∧
      RereadsAll forms forms' ∧
      (forms'.map stripped = forms.map stripped ↔ EachLeaf Atom.Legible forms) := by
  obtain ⟨text, rfl⟩ := exists_text_of_parse read
  obtain ⟨body, last, chars, spells, remark⟩ := parse_encode_iff.mp read
  obtain ⟨forms', rereads, again⟩ := spells_between (c := '\n') (by decide) (spells.respelled sound) .start
  refine ⟨forms', parse_encode_iff.mpr ⟨_, [], ?_, again, .inl rfl⟩, rereads, rereads.stripped_iff⟩
  rw [String.toList_intercalate, List.map_map, List.append_nil]
  congr 1
  exact List.map_congr_left fun form _ => String.toList_ofList

/-- A list with a tab in a string, and a symbol on another line, are printed and read again. -/
theorem parse_printed_tab : ∃ forms forms', parse (Text.encode "(\"\\t\" +)\n\nb") = .ok forms ∧
    EachLeaf Atom.Sound forms ∧
    parse (Text.encode ("\n".intercalate (forms.map render))) = .ok forms' ∧
    forms'.map stripped = forms.map stripped := by
  -- The forms have no complaint in them and nothing but legible characters.
  have read : parse (Text.encode "(\"\\t\" +)\n\nb") =
      .ok [.list .start .sexpr [.atom ⟨1, 1, 2⟩ (.string "\t"),
        .atom ⟨6, 1, 7⟩ (.reserved "+")], .atom ⟨10, 3, 1⟩ (.symbol "b")] := by
    rw [parse_encode]
    rfl
  -- Neither the string nor the symbols are complaints.
  have sound : EachLeaf Atom.Sound [.list .start .sexpr [.atom ⟨1, 1, 2⟩ (.string "\t"),
      .atom ⟨6, 1, 7⟩ (.reserved "+")], .atom ⟨10, 3, 1⟩ (.symbol "b")] := by
    simp [eachLeaf_list_cons, eachLeaf_atom_cons, eachLeaf_nil, Atom.Sound]
  have legible : EachLeaf Atom.Legible [.list .start .sexpr [.atom ⟨1, 1, 2⟩ (.string "\t"),
      .atom ⟨6, 1, 7⟩ (.reserved "+")], .atom ⟨10, 3, 1⟩ (.symbol "b")] := by
    simp [eachLeaf_list_cons, eachLeaf_atom_cons, eachLeaf_nil, Atom.Legible, Text.Legible]
  obtain ⟨forms', again, _, same⟩ := parse_printed _ _ read sound
  exact ⟨_, forms', read, sound, again, same.mpr legible⟩

/-- A null character is read from its escape, printed as another escape, and then not read. -/
theorem parse_printed_null :
    parse (Text.encode "\"\\0\"") = .ok [.atom .start (.string "\x00")] ∧
      (Form.atom .start (.string "\x00")).render = "\"\\x00\"" ∧
      parse (Text.encode "\"\\x00\"") =
        .ok [.atom .start (.malformed "1:1: unknown escape sequence \\x in string")] := by
  refine ⟨?_, by decide +kernel, ?_⟩
  · rw [parse_encode]
    rfl
  · rw [parse_encode]
    rfl

end Form
end QLisp
