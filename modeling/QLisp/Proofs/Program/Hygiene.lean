import QLisp.Proofs.Program.Furnished
import QLisp.Proofs.Symbols

/-!
The names that `fun` keeps to itself.

While `fun` defines a function it binds its own formals in the scope of the call, which the new function
captures. Programs that have no symbols with these names cannot see them there. Only `fun` has such
symbols, and what waits for a body when `fun` has been given a signature alone.
-/

namespace QLisp

open Library

/-- No scope of a chain is one of some scopes. -/
def Scopes.Avoids (scopes : Scopes Value) (extra : ScopeId → Prop) (s : ScopeId) : Prop :=
  ∀ t ∈ scopes.chain s, ¬ extra t

/-- The function that defines functions, or what is left of it when it has been given a signature. -/
structure Library.Defining (extra : ScopeId → Prop) (scopes : Scopes Value) (formals body : Value)
    (captured : Option ScopeId) : Prop where
  /-- It waits for its last formals. -/
  waiting : ∃ items, items <:+ definer.formals.map .symbol ∧ formals = .qexpr items
  /-- It has the body of the function. -/
  bodied : body = .qexpr definer.body
  /-- It captured a scope from which none of some scopes is seen. -/
  apart : ∃ s, captured = some s ∧ scopes.Made s ∧ scopes.Avoids extra s

namespace Value

mutual

/-- No symbol in a value names a formal of `fun`, but in functions that satisfy a rule. -/
def Hygienic (rule : FunctionRule) : Value → Prop
  | .symbol name => name ∉ definer.formals
  | .lambda formals body captured =>
    rule formals body captured ∨ formals.Hygienic rule ∧ body.Hygienic rule
  | .list _ items => HygienicAll rule items
  | _ => True

/-- No symbol in values names a formal of `fun`, but in functions that satisfy a rule. -/
def HygienicAll (rule : FunctionRule) : List Value → Prop
  | [] => True
  | v :: rest => v.Hygienic rule ∧ HygienicAll rule rest

end

mutual

/-- An expression that is hygienic but for symbols that are evaluated on the spot, if that is allowed. -/
def Evaluable (rule : FunctionRule) (allowed : Prop) : Value → Prop
  | .symbol name => name ∈ definer.formals → allowed
  | .list .sexpr items => EvaluableAll rule allowed items
  | v => v.Hygienic rule

/-- Expressions that are hygienic but for symbols that are evaluated on the spot, if that is allowed. -/
def EvaluableAll (rule : FunctionRule) (allowed : Prop) : List Value → Prop
  | [] => True
  | v :: rest => v.Evaluable rule allowed ∧ EvaluableAll rule allowed rest

end

variable {rule rule' : FunctionRule} {allowed : Prop} {v : Value} {values : List Value}

/-- Values are hygienic together when each is. -/
theorem hygienicAll_iff : HygienicAll rule values ↔ ∀ v ∈ values, v.Hygienic rule := by
  induction values with
  | nil => simp [HygienicAll]
  | cons v rest ih => simp [HygienicAll, ih]

/-- A list is hygienic when its elements are. -/
theorem hygienic_list {kind : ListKind} {items : List Value} :
    (Value.list kind items).Hygienic rule ↔ ∀ v ∈ items, v.Hygienic rule := by
  rw [Hygienic, hygienicAll_iff]

/-- Expressions may be evaluated together when each may. -/
theorem evaluableAll_iff : EvaluableAll rule allowed values ↔ ∀ v ∈ values, v.Evaluable rule allowed := by
  induction values with
  | nil => simp [EvaluableAll]
  | cons v rest ih => simp [EvaluableAll, ih]

namespace Hygienic

/-- The elements of a hygienic value are hygienic. -/
theorem items (hygienic : v.Hygienic rule) : ∀ t ∈ v.items, t.Hygienic rule := by
  cases v with
  | list kind items => exact hygienic_list.mp hygienic
  | _ => simp [Value.items]

/-- A list of some of its elements is hygienic. -/
theorem withItems (hygienic : v.Hygienic rule) {items : List Value} (fewer : items ⊆ v.items) :
    (v.withItems items).Hygienic rule := by
  cases v with
  | list kind all => exact hygienic_list.mpr fun t member => hygienic.items t (fewer member)
  | _ => exact hygienic

/-- A hygienic value stays so when it is unquoted. -/
theorem unquote (hygienic : v.Hygienic rule) : v.unquote.Hygienic rule := by
  unfold Value.unquote
  split
  · exact hygienic_list.mpr hygienic.items
  · exact hygienic

end Hygienic

/-- What is made of hygienic arguments is hygienic. -/
theorem MadeOf.hygienic (made : MadeOf values v) (hygienic : ∀ t ∈ values, t.Hygienic rule) :
    v.Hygienic rule := by
  cases made with
  | list parts =>
    refine hygienic_list.mpr fun t member => ?_
    rcases parts t member with here | ⟨a, here, inside⟩
    · exact hygienic t here
    · exact (hygienic a here).items t inside
  | _ => trivial

mutual

/-- A hygienic value is so under every weaker rule. -/
theorem Hygienic.mono {v : Value} (hygienic : v.Hygienic rule)
    (weaker : ∀ formals body captured, rule formals body captured → rule' formals body captured) :
    v.Hygienic rule' := by
  cases v with
  | lambda formals body captured =>
    exact hygienic.imp (weaker _ _ _) fun parts => ⟨parts.1.mono weaker, parts.2.mono weaker⟩
  | list kind items => exact HygienicAll.mono hygienic weaker
  | symbol name => exact hygienic
  | _ => trivial

/-- Hygienic values are so under every weaker rule. -/
theorem HygienicAll.mono {values : List Value} (hygienic : HygienicAll rule values)
    (weaker : ∀ formals body captured, rule formals body captured → rule' formals body captured) :
    HygienicAll rule' values := by
  cases values with
  | nil => trivial
  | cons v rest => exact ⟨Hygienic.mono hygienic.1 weaker, HygienicAll.mono hygienic.2 weaker⟩

end

mutual

/-- A hygienic value may be evaluated. -/
theorem Hygienic.evaluable {v : Value} (hygienic : v.Hygienic rule) : v.Evaluable rule allowed := by
  cases v with
  | symbol name => exact fun inside => absurd inside hygienic
  | list kind items =>
    cases kind with
    | sexpr => exact HygienicAll.evaluable hygienic
    | qexpr => exact hygienic
  | _ => exact hygienic

/-- Hygienic values may be evaluated. -/
theorem HygienicAll.evaluable {values : List Value} (hygienic : HygienicAll rule values) :
    EvaluableAll rule allowed values := by
  cases values with
  | nil => trivial
  | cons v rest => exact ⟨Hygienic.evaluable hygienic.1, HygienicAll.evaluable hygienic.2⟩

end

mutual

/-- What may be evaluated may be so under every weaker rule, and where more is allowed. -/
theorem Evaluable.mono {allowed' : Prop} {v : Value} (evaluable : v.Evaluable rule allowed)
    (weaker : ∀ formals body captured, rule formals body captured → rule' formals body captured)
    (more : allowed → allowed') : v.Evaluable rule' allowed' := by
  cases v with
  | symbol name => exact fun inside => more (evaluable inside)
  | list kind items =>
    cases kind with
    -- Only the elements of a list in round brackets are evaluated; all else is merely held.
    | sexpr => exact EvaluableAll.mono evaluable weaker more
    | qexpr => exact Hygienic.mono evaluable weaker
  | lambda formals body captured => exact Hygienic.mono evaluable weaker
  | _ => trivial

/-- What may be evaluated together may be so under every weaker rule, and where more is allowed. -/
theorem EvaluableAll.mono {allowed' : Prop} {values : List Value}
    (evaluable : EvaluableAll rule allowed values)
    (weaker : ∀ formals body captured, rule formals body captured → rule' formals body captured)
    (more : allowed → allowed') : EvaluableAll rule' allowed' values := by
  cases values with
  | nil => trivial
  | cons v rest => exact ⟨Evaluable.mono evaluable.1 weaker more, EvaluableAll.mono evaluable.2 weaker more⟩

end

/-- The body of `fun` may be evaluated where the names that it keeps to itself are allowed. -/
theorem evaluable_definer (seen : allowed) : (Value.sexpr definer.body).Evaluable rule allowed := by
  simp [definer, sexpr, primitive, Evaluable, EvaluableAll, Hygienic, seen]

mutual

/-- A value without symbols that name formals of `fun` is hygienic. -/
theorem hygienic_of_symbols (v : Value) (free : ∀ name ∈ definer.formals, name ∉ v.symbols) :
    v.Hygienic rule := by
  -- A function is hygienic when its formals and its body are, whatever it has captured.
  cases v with
  | symbol name => exact fun inside => free name inside List.mem_cons_self
  | lambda formals body captured =>
    simp only [symbols, List.mem_append, not_or] at free
    exact .inr ⟨hygienic_of_symbols formals fun name inside => (free name inside).1,
      hygienic_of_symbols body fun name inside => (free name inside).2⟩
  | list kind items => exact hygienicAll_of_symbols items free
  | _ => trivial

/-- Values without symbols that name formals of `fun` are hygienic. -/
theorem hygienicAll_of_symbols (values : List Value)
    (free : ∀ name ∈ definer.formals, name ∉ symbolsAll values) : HygienicAll rule values := by
  cases values with
  | nil => trivial
  | cons v rest =>
    simp only [symbolsAll, List.mem_append, not_or] at free
    exact ⟨hygienic_of_symbols v fun name inside => (free name inside).1,
      hygienicAll_of_symbols rest fun name inside => (free name inside).2⟩

end

end Value
end QLisp
