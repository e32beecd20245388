import QLisp.Proofs.Form.Reading
import QLisp.Proofs.Normal
import QLisp.Proofs.Source

/-!
The symbols in values, and where they come from.

A symbol in the result of an operation is a symbol in some argument, so all symbols come from text. No
text spells a symbol with the name of an operation: such a token is read as the operation.
-/

namespace QLisp

namespace Value

mutual

/-- The names of the symbols in a value, those in functions included. -/
def symbols : Value → List String
  | .symbol name => [name]
  | .lambda formals body _ => formals.symbols ++ body.symbols
  | .list _ items => symbolsAll items
  | _ => []

/-- The names of the symbols in values. -/
def symbolsAll : List Value → List String
  | [] => []
  | v :: rest => v.symbols ++ symbolsAll rest

end

/-- A symbol in values is in one of them. -/
theorem mem_symbolsAll {name : String} {values : List Value} :
    name ∈ symbolsAll values ↔ ∃ v ∈ values, name ∈ v.symbols := by
  induction values with
  | nil => simp [symbolsAll]
  | cons v rest ih => simp [symbolsAll, ih]

/-- No symbol in a value has the name of an operation. -/
def Unreserved (v : Value) : Prop :=
  ∀ p : Primitive, p.name ∉ v.symbols

variable {v : Value} {arguments : List Value}

/-- A value without symbols has none with the name of an operation. -/
theorem unreserved_of_symbols (none : v.symbols = []) : v.Unreserved := by
  intro p
  rw [none]
  exact List.not_mem_nil

/-- A list has no symbol with the name of an operation when no element has. -/
theorem unreserved_list {kind : ListKind} {items : List Value} :
    (Value.list kind items).Unreserved ↔ ∀ v ∈ items, v.Unreserved := by
  have shape : (Value.list kind items).symbols = symbolsAll items := rfl
  simp only [Unreserved, shape, mem_symbolsAll]
  grind

/-- A function has no symbol with the name of an operation when its formals and its body have none. -/
theorem unreserved_lambda {formals body : Value} {scope : Option ScopeId} :
    (Value.lambda formals body scope).Unreserved ↔ formals.Unreserved ∧ body.Unreserved := by
  have shape : (Value.lambda formals body scope).symbols = formals.symbols ++ body.symbols := rfl
  simp only [Unreserved, shape, List.mem_append]
  grind

/-- An error has no symbol. -/
theorem unreserved_error (failure : Failure) : (Value.error failure).Unreserved :=
  unreserved_of_symbols rfl

/-- The empty list has no symbol. -/
theorem unreserved_unit : Value.unit.Unreserved :=
  unreserved_list.mpr (by simp)

/-- The elements of a value have no symbol with the name of an operation when the value has none. -/
theorem Unreserved.items (unreserved : v.Unreserved) : ∀ t ∈ v.items, t.Unreserved := by
  cases v with
  | list kind items => exact unreserved_list.mp unreserved
  | _ => simp [Value.items]

/-- Unquoting leaves the symbols as they are. -/
theorem Unreserved.unquote (unreserved : v.Unreserved) : v.unquote.Unreserved := by
  unfold Value.unquote
  split
  · exact unreserved_list.mpr unreserved.items
  · exact unreserved

/-- With fewer elements a list has fewer symbols. -/
theorem Unreserved.withItems (unreserved : v.Unreserved) {items : List Value}
    (fewer : items ⊆ v.items) : (v.withItems items).Unreserved := by
  cases v with
  | list kind all =>
    exact unreserved_list.mpr fun t member => unreserved.items t (fewer member)
  | _ => exact unreserved

/-- A value that is used as a name is not used as the name of an operation. -/
theorem Unreserved.symbolName (unreserved : v.Unreserved) (p : Primitive) :
    p.name ≠ v.symbolName := by
  cases v with
  | symbol name => exact List.ne_of_not_mem_cons (unreserved p)
  | _ =>
    -- Anything but a symbol has the empty name.
    cases p <;> simp [Value.symbolName, Primitive.name]

/-- What is made of arguments has no symbols but theirs. -/
theorem MadeOf.unreserved (made : MadeOf arguments v)
    (unreserved : ∀ t ∈ arguments, t.Unreserved) : v.Unreserved := by
  cases made with
  | list parts =>
    refine unreserved_list.mpr fun t member => ?_
    rcases parts t member with here | ⟨a, here, inside⟩
    · exact unreserved t here
    · exact (unreserved a here).items t inside
  | _ => exact unreserved_of_symbols rfl

end Value

namespace Primitive

variable {p q : Primitive} {v : Value} {arguments : List Value}

/-- The names of a list of symbols are those of its elements. -/
theorem symbolNames_ok {names : List String} (found : p.symbolNames v = .ok names) :
    ∀ name ∈ names, .symbol name ∈ v.items := by
  -- Anything but a symbol has no name, and is refused.
  intro name member
  unfold symbolNames at found
  split at found
  · obtain ⟨t, inside, given⟩ := (mapM_ok found).2 name member
    split at given <;> cases given
    exact inside
  · cases found

/-- The names that values are bound to are symbols in an argument. -/
theorem name_of_bindings {bindings : List (String × Value)}
    (found : p.bindings arguments = .ok bindings) :
    ∀ b ∈ bindings, ∃ names ∈ arguments, .symbol b.1 ∈ names.items := by
  -- The first argument is the list of the names.
  rintro ⟨name, t⟩ member
  cases arguments with
  | nil => cases found
  | cons first values =>
    obtain ⟨names, known, found⟩ := bind_ok found
    split at found
    · cases found
      exact ⟨first, by simp, symbolNames_ok known name (List.of_mem_zip member).1⟩
    · cases found

end Primitive

/-! ### Symbols in texts -/

namespace Grammar

variable {place : Position} {chars : List Char} {atom : Atom} {forms : List Form}

/-- No token means a symbol with the name of an operation. -/
theorem Means.unreserved (means : Means place chars atom) :
    (atom.toValue Primitive.all).Unreserved := by
  cases means with
  | symbol symbolic textual notTrue notFalse free =>
    intro p inside
    exact free p (by simpa [ofList_eq, eq_comm] using List.mem_singleton.mp inside)
  | reserved p =>
    -- The name of an operation is read as the operation.
    have known : Vocabulary.meaning? Primitive.all p.name = some p := p.ofName?_name
    simp only [Atom.toValue, known]
    exact Value.unreserved_of_symbols rfl
  | _ => exact Value.unreserved_of_symbols rfl

/-- Strings hold no symbols. -/
theorem Literal.unreserved (literal : Literal place chars atom) :
    (atom.toValue Primitive.all).Unreserved := by
  cases literal <;> exact Value.unreserved_of_symbols rfl

/-- No forms that are spelled hold a symbol with the name of an operation. -/
theorem Spells.unreserved (spells : Spells place chars forms) :
    ∀ v ∈ Form.toValues Primitive.all forms, v.Unreserved := by
  -- By induction on the grammar.
  induction spells with
  | nil => simp [Form.toValues]
  | space blank later ih => exact ih
  | comment line later ih => exact ih
  | token nonempty inside ends means later ih =>
    simp only [Form.toValues, List.forall_mem_cons]
    exact ⟨means.unreserved, ih⟩
  | string literal later ih =>
    simp only [Form.toValues, List.forall_mem_cons]
    exact ⟨literal.unreserved, ih⟩
  | list nested later ihNested ih =>
    simp only [Form.toValues, List.forall_mem_cons]
    exact ⟨Value.unreserved_list.mpr ihNested, ih⟩

end Grammar

/-- No text is read as a symbol with the name of an operation. -/
theorem Form.unreserved_of_parse {bytes : Text.Bytes} {forms : List Form}
    (read : Form.parse bytes = .ok forms) :
    ∀ v ∈ Form.toValues Primitive.all forms, v.Unreserved := by
  -- What is read is what the grammar spells.
  obtain ⟨text, rfl⟩ := Form.exists_text_of_parse read
  obtain ⟨body, last, _, spells, _⟩ := Form.parse_encode_iff.mp read
  exact spells.unreserved

/-- The expressions of a source hold no symbol with the name of an operation. -/
theorem Run.Spelled.unreserved {expressions : List Value} (spelled : Run.Spelled expressions) :
    ∀ v ∈ expressions, v.Unreserved := by
  obtain ⟨bytes, forms, read, rfl | rfl⟩ := spelled
  · exact Form.unreserved_of_parse read
  · intro v member
    cases List.mem_singleton.mp member
    exact Value.unreserved_list.mpr (Form.unreserved_of_parse read)

/-- The definitions of the library hold no symbol with the name of an operation. -/
theorem Library.unreserved_expression : ∀ v ∈ Library.expressions, v.Unreserved := by
  -- Each definition is read from text.
  intro v member
  obtain ⟨text, _, inside⟩ := List.mem_flatMap.mp member
  split at inside
  · rename_i forms read
    exact Form.unreserved_of_parse read v inside
  · simp at inside

end QLisp
