import QLisp.Eval.Apply

/-!
Values that are the same in every detail.

A program takes some values for the same that are not equal, such as the two zeros. Values without
functions can also be compared in every detail, so that one that has been computed is recognised.
-/

namespace QLisp

namespace Value

mutual

/-- Whether two values without functions are the same in every detail. -/
def identical : Value → Value → Bool
  | .number x, .number y => x = y
  | .symbol a, .symbol b => a = b
  | .string a, .string b => a = b
  | .bool a, .bool b => a = b
  | .builtin f, .builtin g => f = g
  | .list kind items, .list kind' items' => kind = kind' && identicalAll items items'
  | .error e, .error e' => e = e'
  | _, _ => false

/-- Whether two lists hold values without functions that are the same in every detail. -/
def identicalAll : List Value → List Value → Bool
  | [], [] => true
  | v :: rest, v' :: rest' => v.identical v' && identicalAll rest rest'
  | _, _ => false

end

mutual

/-- Values that are the same in every detail are equal. -/
theorem eq_of_identical {v v' : Value} (same : v.identical v') : v = v' := by
  cases v <;> cases v' <;> simp only [identical, Bool.and_eq_true, decide_eq_true_eq,
    Bool.false_eq_true] at same
  case list.list => rw [same.1, eq_of_identicalAll same.2]
  all_goals rw [same]

/-- Lists of values that are the same in every detail are equal. -/
theorem eq_of_identicalAll {values values' : List Value} (same : identicalAll values values') :
    values = values' := by
  cases values <;> cases values' <;> simp only [identicalAll, Bool.and_eq_true,
    Bool.false_eq_true] at same
  case nil.nil => rfl
  case cons.cons => rw [eq_of_identical same.1, eq_of_identicalAll same.2]

end

end Value

end QLisp
