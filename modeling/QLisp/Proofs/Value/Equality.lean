import QLisp.Proofs.Number.Order
import QLisp.Value.Basic

/-!
Equality of values.

Two values are the same when they have the same structure and the same atoms in it. This is symmetric
and transitive, and a value is the same as itself unless a NaN is inside it. The texts of values that
are the same differ in nothing but the signs of zeros.
-/

namespace QLisp

namespace Value

mutual

/-- The numbers inside a value: in the elements of lists and in the formals and bodies of functions. -/
def numbers : Value → List Number
  | .number x => [x]
  | .lambda formals body _ => formals.numbers ++ body.numbers
  | .list _ items => numbersAll items
  | _ => []

/-- The numbers inside values. -/
def numbersAll : List Value → List Number
  | [] => []
  | v :: rest => v.numbers ++ numbersAll rest

end

mutual

/-- Whether two values are the same does not depend on which comes first. -/
theorem same_comm (v v' : Value) : v.same v' = v'.same v := by
  -- Values of different kinds are the same in neither order.
  cases v with
  | lambda formals body scope =>
    cases v' with
    | lambda formals' body' scope' =>
      rw [same, same, same_comm formals formals', same_comm body body']
    | _ => rfl
  | list kind items =>
    cases v' with
    | list kind' items' =>
      rw [same, same, sameAll_comm items items', Bool.beq_comm]
    | _ => rfl
  | number x =>
    cases v' with
    | number y => exact x.equal_comm y
    | _ => rfl
  | _ => cases v' <;> first | rfl | exact Bool.beq_comm

/-- Whether the values of two lists are the same does not depend on which list comes first. -/
theorem sameAll_comm (values values' : List Value) :
    sameAll values values' = sameAll values' values := by
  cases values with
  | nil => cases values' <;> rfl
  | cons v rest =>
    cases values' with
    | nil => rfl
    | cons v' rest' => rw [sameAll, sameAll, same_comm v v', sameAll_comm rest rest']

end

mutual

/-- Values that are the same as one value are the same. -/
theorem same_trans {v v' v'' : Value} (first : v.same v') (second : v'.same v'') : v.same v'' := by
  -- All three are of one kind; the parts of a function and the elements of a list are followed.
  cases v with
  | lambda formals body scope =>
    cases v' with
    | lambda formals' body' scope' =>
      cases v'' with
      | lambda formals'' body'' scope'' =>
        simp only [same, Bool.and_eq_true] at first second ⊢
        exact ⟨same_trans first.1 second.1, same_trans first.2 second.2⟩
      | _ => cases second
    | _ => cases first
  | list kind items =>
    cases v' with
    | list kind' items' =>
      cases v'' with
      | list kind'' items'' =>
        simp only [same, Bool.and_eq_true, beq_iff_eq] at first second ⊢
        exact ⟨first.1.trans second.1, sameAll_trans first.2 second.2⟩
      | _ => cases second
    | _ => cases first
  | number x =>
    cases v' with
    | number y =>
      cases v'' with
      | number z => exact Number.equal_trans first second
      | _ => cases second
    | _ => cases first
  | _ =>
    -- Other values are the same only if they are one.
    cases v' <;> first
      | cases first
      | (simp only [same, beq_iff_eq] at first
         subst first
         exact second)

/-- Lists whose values are the same as those of one list hold the same values. -/
theorem sameAll_trans {values values' values'' : List Value} (first : sameAll values values')
    (second : sameAll values' values'') : sameAll values values'' := by
  -- The lists are as long as each other, so they are taken apart together.
  cases values with
  | nil =>
    cases values' with
    | nil => exact second
    | cons => cases first
  | cons v rest =>
    cases values' with
    | nil => cases first
    | cons v' rest' =>
      cases values'' with
      | nil => cases second
      | cons v'' rest'' =>
        -- The elements at each place are the same, and so is what is the same as both.
        simp only [sameAll, Bool.and_eq_true] at first second ⊢
        exact ⟨same_trans first.1 second.1, sameAll_trans first.2 second.2⟩

end

mutual

/-- A value is the same as itself exactly when no NaN is inside it. -/
theorem same_self_iff (v : Value) : v.same v ↔ ∀ x ∈ v.numbers, x.isNaN = false := by
  -- Of all atoms only a NaN differs from itself.
  cases v with
  | lambda formals body scope =>
    simp only [same, numbers, Bool.and_eq_true, List.forall_mem_append, same_self_iff formals,
      same_self_iff body]
  | list kind items =>
    simp only [same, numbers, Bool.and_eq_true, beq_self_eq_true, true_and, sameAll_self_iff items]
  | number x => simp [same, numbers, Number.equal_self]
  | _ => simp [same, numbers]

/-- Values are the same as themselves exactly when no NaN is inside them. -/
theorem sameAll_self_iff (values : List Value) :
    sameAll values values ↔ ∀ x ∈ numbersAll values, x.isNaN = false := by
  cases values with
  | nil => simp [sameAll, numbersAll]
  | cons v rest =>
    simp only [sameAll, numbersAll, Bool.and_eq_true, List.forall_mem_append, same_self_iff v,
      sameAll_self_iff rest]

end

mutual

/-- Values that are the same have one spelling, unless a zero is inside them. -/
theorem spell_of_same {v v' : Value} (alike : v.same v') (nonzero : ∀ x ∈ v.numbers, x.magnitude ≠ 0)
    (rest : Text.Bytes) : v.spell rest = v'.spell rest := by
  -- Only the zeros are the same without being one, and the scope of a function is not spelled.
  cases v with
  | lambda formals body scope =>
    cases v' with
    | lambda formals' body' scope' =>
      -- Both parts of a function have the same text.
      simp only [same, Bool.and_eq_true] at alike
      simp only [numbers, List.forall_mem_append] at nonzero
      rw [spell, spell, spell_of_same alike.2 nonzero.2, spell_of_same alike.1 nonzero.1]
    | _ => cases alike
  | list kind items =>
    cases v' with
    | list kind' items' =>
      simp only [same, Bool.and_eq_true, beq_iff_eq] at alike
      obtain ⟨rfl, inside⟩ := alike
      rw [spell, spell, spellAll_of_same inside nonzero]
    | _ => cases alike
  | number x =>
    cases v' with
    | number y => rw [Number.eq_of_equal alike (nonzero x (by simp [numbers]))]
    | _ => cases alike
  | _ =>
    cases v' <;> first
      | cases alike
      | (simp only [same, beq_iff_eq] at alike
         rw [alike])

/-- Values that are the same have one spelling in order, unless a zero is inside them. -/
theorem spellAll_of_same {values values' : List Value} (alike : sameAll values values')
    (nonzero : ∀ x ∈ numbersAll values, x.magnitude ≠ 0) (rest : Text.Bytes) :
    spellAll values rest = spellAll values' rest := by
  cases values with
  | nil =>
    cases values' with
    | nil => rfl
    | cons => cases alike
  | cons v others =>
    cases values' with
    | nil => cases alike
    | cons v' others' =>
      simp only [sameAll, Bool.and_eq_true] at alike
      simp only [numbersAll, List.forall_mem_append] at nonzero
      have inside := spellAll_of_same alike.2 nonzero.2 rest
      -- A value is followed by a space only when others come after it.
      cases others with
      | nil =>
        cases others' with
        | nil => exact spell_of_same alike.1 nonzero.1 rest
        | cons => cases alike.2
      | cons w more =>
        cases others' with
        | nil => cases alike.2
        | cons w' more' =>
          -- So the texts go on alike after the space.
          have first := spell_of_same alike.1 nonzero.1 (Text.encode " " ++ spellAll (w :: more) rest)
          exact first.trans (congrArg (fun bytes => v'.spell (Text.encode " " ++ bytes)) inside)

end

end Value
end QLisp
