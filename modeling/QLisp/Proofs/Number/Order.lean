import Mathlib.Data.List.Basic
import QLisp.Number.Basic

/-!
The order of numbers.

Numbers are ordered by their places on the line, and every NaN has one place below all others. So the
order is total, and two numbers stand at the same place exactly when they are equal, unless both are
NaN: a NaN is equal to nothing, itself included.
-/

namespace QLisp.Number

/-- The place of a number in the order; a NaN has no place on the line and comes first. -/
def key (x : Number) : Option Int :=
  if x.isNaN then none else some x.rank

variable {x y z : Number}

/-- Numbers are ordered by their keys. -/
theorem order_eq_compare (x y : Number) : x.order y = compare x.key y.key := by
  -- A missing key stands below every other one, as a NaN does.
  unfold order key
  cases x.isNaN <;> cases y.isNaN <;> rfl

/-- The order of numbers is a total preorder. -/
instance : Std.TransCmp order where
  eq_swap {x y} := by
    rw [order_eq_compare, order_eq_compare y]
    exact Std.OrientedCmp.eq_swap
  isLE_trans {x y z} first second := by
    rw [order_eq_compare] at first second ⊢
    exact Std.TransCmp.isLE_trans first second

/-- Two numbers are equal exactly when they stand at one place and are not both NaN. -/
theorem equal_eq (x y : Number) : x.equal y = (x.order y == .eq && !(x.isNaN && y.isNaN)) := by
  -- Only of two numbers on the line are the places compared.
  unfold equal order
  cases x.isNaN <;> cases y.isNaN
  · rw [Bool.eq_iff_iff]
    simp
  all_goals rfl

/-! ### Equality -/

/-- Equality of numbers is symmetric. -/
theorem equal_comm (x y : Number) : x.equal y = y.equal x := by
  rw [equal, equal, Bool.and_comm (!x.isNaN), Bool.beq_comm]

/-- Equality of numbers is transitive. -/
theorem equal_trans (first : x.equal y) (second : y.equal z) : x.equal z := by
  simp only [equal, Bool.and_eq_true, Bool.not_eq_true', beq_iff_eq] at first second ⊢
  exact ⟨⟨first.1.1, second.1.2⟩, first.2.trans second.2⟩

/-- A number is equal to itself unless it is a NaN. -/
theorem equal_self (x : Number) : x.equal x = !x.isNaN := by
  simp [equal]

/-- Numbers that are equal are one number, unless they are zeros. -/
theorem eq_of_equal (same : x.equal y) (nonzero : x.magnitude ≠ 0) : x = y := by
  simp only [equal, Bool.and_eq_true, Bool.not_eq_true', beq_iff_eq] at same
  have place : x.rank = y.rank := same.2
  -- Away from zero the place tells the sign and the magnitude.
  have bits : x.bits.toNat = y.bits.toNat := by
    unfold rank magnitude negative at *
    have limit : signWeight = 2 ^ 63 := rfl
    have low := x.bits.toNat_lt
    have low' := y.bits.toNat_lt
    simp only [limit] at *
    split at place <;> split at place <;> simp only [decide_eq_true_eq] at * <;> omega
  -- Two numbers with the same place have the same bits.
  obtain ⟨bits⟩ := x
  obtain ⟨bits'⟩ := y
  exact congrArg Number.mk (UInt64.toNat_inj.mp bits)

end QLisp.Number
