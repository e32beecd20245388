import QLisp.Program.Library

/-! Conditions on every function inside a value, by its formals, its body and its scope. -/

namespace QLisp

/-- Only a list is of the kind of a list. -/
theorem Value.eq_list_of_kind {v : Value} {kind : ListKind} (same : v.kind = .list kind) :
    ∃ items, v = .list kind items := by
  cases v with
  | list other items =>
    simp only [Value.kind, Kind.list.injEq] at same
    exact ⟨items, by rw [same]⟩
  | bare tag => cases tag <;> simp [Value.kind, Bare.kind] at same
  | _ => simp [Value.kind] at same

/-- A condition on a function, by its formals, its body and the scope that it captured. -/
abbrev FunctionRule := Value → Value → Option ScopeId → Prop

/-- The rule that a function captured a known scope, if any. -/
def FunctionRule.captures (known : ScopeId → Prop) : FunctionRule :=
  fun _ _ scope => ∀ s ∈ scope, known s

mutual

/-- Every function inside a value satisfies a rule. -/
def Value.Obeys (rule : FunctionRule) : Value → Prop
  | .lambda formals body scope => rule formals body scope ∧ formals.Obeys rule ∧ body.Obeys rule
  | .list _ items => Value.ObeyAll rule items
  | _ => True

/-- Every function inside values satisfies a rule. -/
def Value.ObeyAll (rule : FunctionRule) : List Value → Prop
  | [] => True
  | v :: rest => v.Obeys rule ∧ Value.ObeyAll rule rest

end

variable {rule rule' : FunctionRule}

/-- Values satisfy a rule together when each does. -/
theorem Value.obeyAll_iff {values : List Value} :
    Value.ObeyAll rule values ↔ ∀ v ∈ values, v.Obeys rule := by
  induction values with
  | nil => simp [Value.ObeyAll]
  | cons v rest ih => simp [Value.ObeyAll, ih]

mutual

/-- What satisfies a rule satisfies every weaker one. -/
theorem Value.Obeys.mono {v : Value} (obeys : v.Obeys rule)
    (weaker : ∀ formals body scope, rule formals body scope → rule' formals body scope) :
    v.Obeys rule' := by
  cases v with
  | lambda formals body scope =>
    obtain ⟨own, formal, bodied⟩ := obeys
    exact ⟨weaker formals body scope own, formal.mono weaker, bodied.mono weaker⟩
  | list kind items => exact Value.ObeyAll.mono obeys weaker
  | _ => trivial

/-- Values that satisfy a rule satisfy every weaker one. -/
theorem Value.ObeyAll.mono {values : List Value} (obey : Value.ObeyAll rule values)
    (weaker : ∀ formals body scope, rule formals body scope → rule' formals body scope) :
    Value.ObeyAll rule' values := by
  cases values with
  | nil => trivial
  | cons v rest => exact ⟨Value.Obeys.mono obey.1 weaker, Value.ObeyAll.mono obey.2 weaker⟩

end

mutual

/-- Every value satisfies a rule that every function does. -/
theorem Value.obeys_of_all (every : ∀ formals body scope, rule formals body scope) (v : Value) :
    v.Obeys rule := by
  cases v with
  | lambda formals body scope =>
    exact ⟨every formals body scope, formals.obeys_of_all every, body.obeys_of_all every⟩
  | list kind items => exact Value.obeyAll_of_all every items
  | _ => trivial

/-- All values satisfy a rule that every function does. -/
theorem Value.obeyAll_of_all (every : ∀ formals body scope, rule formals body scope)
    (values : List Value) : Value.ObeyAll rule values := by
  cases values with
  | nil => trivial
  | cons v rest => exact ⟨v.obeys_of_all every, Value.obeyAll_of_all every rest⟩

end

/-- A list with fewer of its elements satisfies what it did. -/
theorem Value.Obeys.withItems {v : Value} (obeys : v.Obeys rule) {items : List Value}
    (fewer : items ⊆ v.items) : (v.withItems items).Obeys rule := by
  cases v with
  | list kind all =>
    have each := Value.obeyAll_iff.mp obeys
    exact Value.obeyAll_iff.mpr fun t member => each t (fewer member)
  | _ => exact obeys

/-- An atom is read as a value without functions. -/
theorem Atom.obeys_toValue (words : Vocabulary) (leaf : Atom) :
    (leaf.toValue words).Obeys rule := by
  cases leaf with
  | reserved name =>
    simp only [Atom.toValue]
    split <;> trivial
  | _ => trivial

mutual

/-- A form is read as a value without functions. -/
theorem Form.obeys_toValue (words : Vocabulary) (form : Form) :
    (form.toValue words).Obeys rule := by
  cases form with
  | atom position leaf => exact leaf.obeys_toValue words
  | list position kind children => exact Form.obey_toValues words children

/-- Forms are read as values without functions. -/
theorem Form.obey_toValues (words : Vocabulary) (forms : List Form) :
    Value.ObeyAll rule (Form.toValues words forms) := by
  cases forms with
  | nil => trivial
  | cons form rest => exact ⟨form.obeys_toValue words, Form.obey_toValues words rest⟩

end

/-- Each form is read as a value without functions. -/
theorem Form.obeys_of_mem_toValues {words : Vocabulary} {forms : List Form} {v : Value}
    (member : v ∈ Form.toValues words forms) : v.Obeys rule :=
  Value.obeyAll_iff.mp (Form.obey_toValues words forms) v member

/-- The definitions of the library hold no function yet. -/
theorem Library.obeys_expression : ∀ v ∈ Library.expressions, v.Obeys rule := by
  -- Each definition is read from text.
  intro v member
  obtain ⟨text, _, inside⟩ := List.mem_flatMap.mp member
  split at inside
  · exact Form.obeys_of_mem_toValues inside
  · simp at inside

end QLisp
