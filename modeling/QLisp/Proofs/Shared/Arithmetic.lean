import QLisp.Proofs.Number.Remainder
import QLisp.Proofs.Shared.FollowScalar
import QLisp.Proofs.Shared.Given

/-!
What arithmetic gives.

The operands are all checked before any is used, so a value that is no number is reported in preference
to a division by zero in front of it. On numbers the result is a fold from the left that a divisor of
zero stops, and the remainders of numbers inside the range of a machine word are exact.
-/

namespace QLisp

namespace Primitive

variable {p : Primitive} {x y : Number} {operands : List Number}

/-- What an arithmetic operation computes of two numbers. -/
def operation (p : Primitive) : Number → Number → Number :=
  match p with
  | .add => .add
  | .sub => .sub
  | .mul => .mul
  | .div => .div
  | .rem => .rem
  | _ => fun x _ => x

/-- A number is a divisor of zero: zero itself for the quotient, and less than one for the remainder. -/
def DividesByZero (p : Primitive) (y : Number) : Prop :=
  p = .div ∧ y.magnitude = 0 ∨ p = .rem ∧ y.whole = 0

/-- A step of arithmetic fails on a divisor of zero. -/
theorem combine_of_divides (zero : p.DividesByZero y) : p.combine x y = .error .divisionByZero := by
  rcases zero with ⟨rfl, zero⟩ | ⟨rfl, zero⟩
  · exact if_pos zero
  · exact if_pos (y.truncate_eq_zero.mpr zero)

/-- A step of arithmetic computes the operation on any other number. -/
theorem combine_of_not_divides (nonzero : ¬ p.DividesByZero y) :
    p.combine x y = .ok (p.operation x y) := by
  cases p with
  | div => exact if_neg fun zero => nonzero (.inl ⟨rfl, zero⟩)
  | rem => exact if_neg fun zero => nonzero (.inr ⟨rfl, y.truncate_eq_zero.mp zero⟩)
  | _ => rfl

/-- Only a number less than one is a divisor of zero for the remainder. -/
theorem dividesByZero_rem : Primitive.rem.DividesByZero y ↔ y.whole = 0 := by
  simp [DividesByZero]

/-- Steps in order fail when there is a divisor of zero among the operands. -/
theorem foldlM_combine_of_divides (zero : ∃ y ∈ operands, p.DividesByZero y) :
    operands.foldlM p.combine x = .error .divisionByZero := by
  -- The steps in front of the first such divisor succeed.
  induction operands generalizing x with
  | nil => simp at zero
  | cons y rest ih =>
    rw [List.foldlM_cons]
    by_cases here : p.DividesByZero y
    · rw [combine_of_divides here]
      rfl
    · rw [combine_of_not_divides here]
      apply ih
      simpa [here] using zero

/-- Steps in order are a fold of the operation when there is none. -/
theorem foldlM_combine_of_not_divides (nonzero : ∀ y ∈ operands, ¬ p.DividesByZero y) :
    operands.foldlM p.combine x = .ok (operands.foldl p.operation x) := by
  induction operands generalizing x with
  | nil => rfl
  | cons y rest ih =>
    obtain ⟨here, others⟩ := List.forall_mem_cons.mp nonzero
    rw [List.foldlM_cons, combine_of_not_divides here]
    exact ih others

end Primitive

namespace Shared

variable {h : Heap} {m : Machine} {arguments : Handle} {p : Primitive}

/-- A glance shows the kind of a handle. -/
theorem Heap.kind_glance (h : Heap) (v : Handle) : (h.glance v).kind = v.kind := by
  cases v <;> rfl

/-- A value that is no number is no operand. -/
theorem operand_of_kind {t : Value} (other : t.kind ≠ .number) :
    p.operand t = .error (.wrongType p.name .number t.kind) := by
  cases t with
  | number x => exact absurd rfl other
  | _ => rfl

/-- A handle of the kind of numbers is a number. -/
theorem exists_number {v : Handle} (kind : v.kind = .number) : ∃ x, v = .number x := by
  cases v with
  | number x => exact ⟨x, rfl⟩
  | bare tag => cases tag <;> cases kind
  | _ => cases kind

/-- Elements are numbers exactly when none of another kind is found among them. -/
theorem find?_other_eq_none {elements : List Handle} :
    elements.find? (·.kind ≠ .number) = none ↔
      ∃ operands : List Number, elements = operands.map .number := by
  rw [List.find?_eq_none]
  constructor
  · intro numbers
    -- By induction on the elements, of which each has to be a number.
    induction elements with
    | nil => exact ⟨[], rfl⟩
    | cons v rest ih =>
      obtain ⟨here, others⟩ := List.forall_mem_cons.mp numbers
      obtain ⟨x, rfl⟩ := exists_number (by simpa using here)
      obtain ⟨operands, rfl⟩ := ih others
      exact ⟨x :: operands, rfl⟩
  · rintro ⟨operands, rfl⟩ v member
    obtain ⟨x, _, rfl⟩ := List.mem_map.mp member
    simp [Handle.kind]

/-- The first operand that is no number is reported. -/
theorem operands_error {elements : List Handle} {v : Handle}
    (found : elements.find? (·.kind ≠ .number) = some v) :
    (elements.map h.glance).mapM p.operand = .error (.wrongType p.name .number v.kind) := by
  -- The operands in front of it are numbers.
  induction elements with
  | nil => cases found
  | cons u rest ih =>
    rw [List.map_cons, List.mapM_cons]
    -- The first that is no number is this one, or among the others.
    by_cases number : u.kind = .number
    · rw [List.find?_cons_of_neg (by simpa using number)] at found
      obtain ⟨x, rfl⟩ := exists_number number
      rw [ih found]
      rfl
    -- What it is told of is its kind, which a glance shows.
    · rw [List.find?_cons_of_pos (by simpa using number), Option.some.injEq] at found
      have other : (h.glance u).kind ≠ .number := by
        rw [Heap.kind_glance]
        exact number
      rw [operand_of_kind other, Heap.kind_glance, found]
      rfl

/-- Numbers pass the check of operands. -/
theorem operands_ok (p : Primitive) (operands : List Number) :
    ((operands.map Handle.number).map h.glance).mapM p.operand = .ok operands := by
  induction operands with
  | nil => rfl
  | cons x rest ih =>
    rw [List.map_cons, List.map_cons, List.mapM_cons, ih]
    rfl

namespace Act

/-- Arithmetic starts with the check of its operands, if there are any. -/
theorem arithmetic_checked (present : m.heap.elements arguments ≠ []) :
    arithmetic p arguments m =
      orFail (((m.heap.elements arguments).map m.heap.glance).mapM p.operand) (fun _ => do
        let first ← ListOp.popFront arguments
        let rest ← ListOp.elements arguments
        if p = .sub && rest.isEmpty then return .number first.numeral.neg
        orFail (← combineAll p first.numeral (rest.map (·.numeral))) fun x => return .number x) m := by
  have some : ¬ (m.heap.elements arguments).length = 0 := by
    intro none
    exact present (List.length_eq_zero_iff.mp none)
  rw [arithmetic, elements_bind, expectSome, if_neg some, orFail_ok]
  exact glances_bind _ _

/-- Arithmetic reports the first operand that is no number, and leaves the machine alone. -/
theorem arithmetic_error {v : Handle}
    (found : (m.heap.elements arguments).find? (·.kind ≠ .number) = some v) :
    arithmetic p arguments m = .ok (.error (.wrongType p.name .number v.kind)) m := by
  have present : m.heap.elements arguments ≠ [] := by
    intro none
    rw [none] at found
    cases found
  rw [arithmetic_checked present, operands_error found, orFail_error]

/-- Arithmetic on numbers negates a lone operand of the difference, and folds any others. -/
theorem arithmetic_numbers {x : Number} {rest : List Number}
    (given : m.heap.elements arguments = (x :: rest).map .number) :
    ∃ h', arithmetic p arguments m =
      (if p = .sub && rest.isEmpty then pure (.number x.neg)
      else orFail (rest.foldlM p.combine x) fun z => pure (.number z) : Act Handle)
        { m with heap := h' } := by
  -- The list of operands is there, since it is not empty.
  have present : m.heap.elements arguments ≠ [] := by simp [given]
  obtain ⟨kind, id, rfl, made⟩ := Heap.made_of_elements present
  obtain ⟨h', popped, _, left⟩ := ListOp.popFront_ok made given kind
  refine ⟨h', ?_⟩
  -- The first operand is taken off the list, and the others are what is left on it.
  have numerals : (rest.map Handle.number).map (·.numeral) = rest :=
    List.map_map.trans (List.map_id rest)
  -- All operands are checked before the first one is taken off.
  rw [arithmetic_checked present, given, operands_ok, orFail_ok, bind_ok (lift_ok popped),
    elements_bind, Heap.elements_list, left, numerals, List.isEmpty_map]
  -- A lone operand of a subtraction is negated, and otherwise the operands are combined.
  by_cases lone : (p = .sub && rest.isEmpty) = true
  · rw [if_pos lone, if_pos lone]
    rfl
  · rw [if_neg lone, if_neg lone]
    exact bind_ok (combineAll_run p rest x) _

/-- Arithmetic on numbers fails on a divisor of zero behind the first operand, and folds any others. -/
theorem arithmetic_result {x : Number} {rest : List Number}
    (given : m.heap.elements arguments = (x :: rest).map .number) :
    ∃ result h', arithmetic p arguments m = .ok result { m with heap := h' } ∧
      (result = .error .divisionByZero ↔ ∃ y ∈ rest, p.DividesByZero y) ∧
      ((∀ y ∈ rest, ¬ p.DividesByZero y) → result =
        .number (if p = .sub ∧ rest = [] then x.neg else rest.foldl p.operation x)) := by
  obtain ⟨h', ran⟩ := arithmetic_numbers (p := p) given
  by_cases zero : ∃ y ∈ rest, p.DividesByZero y
  · -- A lone operand has no divisor behind it.
    have more : rest.isEmpty = false := by
      obtain ⟨y, member, _⟩ := zero
      exact List.isEmpty_eq_false_iff.mpr (List.ne_nil_of_mem member)
    -- The error is the result, whatever other operands there are.
    refine ⟨.error .divisionByZero, h', ran.trans ?_, iff_of_true rfl zero, fun nonzero => ?_⟩
    · rw [more, Bool.and_false, if_neg Bool.false_ne_true, Primitive.foldlM_combine_of_divides zero]
      rfl
    · obtain ⟨y, member, here⟩ := zero
      exact absurd here (nonzero y member)
  -- Without a divisor of zero the fold goes through; a lone operand is negated by subtraction.
  · have nonzero : ∀ y ∈ rest, ¬ p.DividesByZero y := fun y member here => zero ⟨y, member, here⟩
    refine ⟨_, h', ran.trans ?_, iff_of_false (by simp) zero, fun _ => rfl⟩
    rw [Primitive.foldlM_combine_of_not_divides nonzero]
    by_cases lone : p = .sub ∧ rest = []
    -- The operand is alone, so it is what is subtracted from zero.
    · rw [if_pos lone, if_pos (by simp [lone])]
      rfl
    · rw [if_neg lone, if_neg (by simpa using lone)]
      rfl

/-- An operation of arithmetic does arithmetic on its arguments. -/
theorem call_arithmetic (ev : Evaluator) (scope : ScopeId)
    (arithmetical : p ∈ [Primitive.add, .sub, .mul, .div, .rem]) :
    call ev scope (.builtin (.primitive p)) arguments = arithmetic p arguments := by
  cases p <;> first | rfl | exact absurd arithmetical (by decide)

/--
What arithmetic gives on any arguments.

A value that is no number is reported, the first one if there are several. Among numbers, a divisor of
zero behind the first operand is reported. Otherwise the result is the fold of the operation from the
left, or the negation of a lone operand of the difference. The remainders of numbers inside the range
of a machine word are exact at every step.
-/
theorem arithmetic_outcome (ev : Evaluator) (scope : ScopeId)
    (arithmetical : p ∈ [Primitive.add, .sub, .mul, .div, .rem])
    (present : m.heap.elements arguments ≠ []) :
    ∃ result h', call ev scope (.builtin (.primitive p)) arguments m =
        .ok result { m with heap := h' } ∧
      (∀ v, (m.heap.elements arguments).find? (·.kind ≠ .number) = some v →
        result = .error (.wrongType p.name .number v.kind)) ∧
      ∀ x rest, m.heap.elements arguments = (x :: rest).map .number →
        (result = .error .divisionByZero ↔ ∃ y ∈ rest, p.DividesByZero y) ∧
        ((∀ y ∈ rest, ¬ p.DividesByZero y) → result =
          .number (if p = .sub ∧ rest = [] then x.neg else rest.foldl p.operation x)) ∧
        (p = .rem → rest ≠ [] → (∀ y ∈ x :: rest, y.InWord) → (∀ y ∈ rest, y.whole ≠ 0) →
          result = .number (rest.foldl Number.rem x) ∧
          ∀ divisors, divisors ≠ [] → divisors <+: rest →
            x.Remainder divisors (divisors.foldl Number.rem x)) := by
  rw [call_arithmetic ev scope arithmetical]
  cases found : (m.heap.elements arguments).find? (·.kind ≠ .number) with
  | some v =>
    -- The check fails before any operand is used.
    refine ⟨_, m.heap, arithmetic_error found, ?_, ?_⟩
    · intro w same
      rw [Option.some.inj same]
    · intro x rest given
      -- Among numbers there is no value of another kind.
      rw [find?_other_eq_none.mpr ⟨x :: rest, given⟩] at found
      cases found
  | none =>
    obtain ⟨operands, all⟩ := find?_other_eq_none.mp found
    have given : operands ≠ [] := by
      rintro rfl
      exact present all
    obtain ⟨x, rest, rfl⟩ := List.exists_cons_of_ne_nil given
    -- All are numbers, so the result is that of the operations on them.
    obtain ⟨result, h', ran, fails, folds⟩ := arithmetic_result (p := p) all
    refine ⟨result, h', ran, fun v other => absurd other (by simp), ?_⟩
    intro x' rest' given
    -- The operands are those that are given, since numbers are told apart.
    obtain ⟨rfl, rfl⟩ : x = x' ∧ rest = rest' := by
      have same := List.map_inj_right (fun _ _ => Handle.number.inj) |>.mp (all.symm.trans given)
      exact List.cons.inj same
    refine ⟨fails, folds, ?_⟩
    rintro rfl _ inside nonzero
    -- Among the divisors that are not zero no remainder is refused.
    have exact : ∀ y ∈ rest, ¬ Primitive.rem.DividesByZero y := by
      intro y member zero
      exact nonzero y member (Primitive.dividesByZero_rem.mp zero)
    refine ⟨folds exact, ?_⟩
    -- A step is reached with some of the divisors, and they are as good as all of them.
    intro divisors some taken
    obtain ⟨here, others⟩ := List.forall_mem_cons.mp inside
    apply Number.remainder_foldl
    · exact List.forall_mem_cons.mpr ⟨here, fun y member => others y (taken.subset member)⟩
    · intro y member
      exact nonzero y (taken.subset member)
    · exact some

/-- The remainder of the least machine word by ten to the sixteenth is exact. -/
theorem arithmetic_outcome_least_word :
    let m : Machine := { Machine.initial (fun _ => .error .missing) with
      heap := ⟨#[.ofList [.number (.ofInt (-2 ^ 63)), .number (.ofInt (10 ^ 16))]]⟩ }
    ∃ h', call evaluate Scopes.global (.builtin (.primitive .rem)) (.list .sexpr ⟨0⟩) m =
        .ok (.number (.ofInt (-3372036854775808))) { m with heap := h' } ∧
      (Number.ofInt (-2 ^ 63)).Remainder [.ofInt (10 ^ 16)] (.ofInt (-3372036854775808)) := by
  intro m
  -- Both operands have few significant digits, so they are kept whole.
  have first : Number.IsWord (-2 ^ 63) := ⟨by decide, 1, 63, by decide, by decide⟩
  have second : Number.IsWord (10 ^ 16) := ⟨by decide, 5 ^ 16, 16, by decide, by decide⟩
  have present : m.heap.elements (.list .sexpr ⟨0⟩) ≠ [] := by decide
  obtain ⟨result, h', ran, _, numbers⟩ :=
    arithmetic_outcome (p := .rem) evaluate Scopes.global (by decide) present
  have some : (Number.ofInt (10 ^ 16)).whole ≠ 0 := by
    rw [second.whole_ofInt]
    decide
  -- Both are words, and the divisor is not zero.
  obtain ⟨given, exact⟩ := (numbers (.ofInt (-2 ^ 63)) [.ofInt (10 ^ 16)] rfl).2.2 rfl (by simp)
    (List.forall_mem_cons.mpr ⟨first.inWord, List.forall_mem_singleton.mpr second.inWord⟩)
    (List.forall_mem_singleton.mpr some)
  -- The remainder is that of the machine words themselves.
  have left : (Number.ofInt (-2 ^ 63)).rem (.ofInt (10 ^ 16)) = .ofInt (-3372036854775808) := by
    rw [first.inWord.rem_eq second.inWord, first.whole_ofInt, second.whole_ofInt]
    rfl
  have remainder := exact [.ofInt (10 ^ 16)] (by simp) (List.prefix_refl _)
  -- The result is the remainder, and each step has it within its bound.
  rw [List.foldl_cons, List.foldl_nil, left] at given remainder
  exact ⟨h', given ▸ ran, remainder⟩

end Act

end Shared
end QLisp
