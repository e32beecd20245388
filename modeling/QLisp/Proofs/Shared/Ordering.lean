import QLisp.Proofs.Number.Order
import QLisp.Proofs.Shared.Given

/-!
The comparison operations agree with one another.

Equality is decided apart from the order: by what two values hold, not by where they stand. On strings
and on numbers both decide alike, except that a NaN is not equal to itself, while no NaN stands above or
below another one.
-/

namespace QLisp

/-- An operation decides a question about two values, whatever machine and scope it is applied in. -/
def Primitive.Decides (p : Primitive) (v v' : Shared.Handle) (answer : Bool) : Prop :=
  ∀ ev scope arguments (m : Shared.Machine), m.heap.elements arguments = [v, v'] →
    Shared.Act.call ev scope (.builtin (.primitive p)) arguments m = .ok (.bool answer) m

namespace Shared

namespace Handle

/-- Two values of a kind that has an order: two numbers or two strings. -/
inductive Ordered : Handle → Handle → Prop where
  | numbers (x y : Number) : Ordered (.number x) (.number y)
  | strings (a b : Text.Bytes) : Ordered (.string a) (.string b)

/-- How two numbers or two strings are ordered. -/
def order : Handle → Handle → Ordering
  | .number x, .number y => x.order y
  | .string a, .string b => compare a b
  | _, _ => .eq

/-- Whether a value is a NaN. -/
def isNaN : Handle → Bool
  | .number x => x.isNaN
  | _ => false

/-- Whether two values are equal: they stand at the same place, and are not both NaN. -/
def equal (v v' : Handle) : Bool :=
  v.order v' == .eq && !(v.isNaN && v'.isNaN)

variable {v v' v'' : Handle}

/-- Values of one kind stay so when they change places. -/
theorem Ordered.symm (ordered : Ordered v v') : Ordered v' v := by
  cases ordered with
  | numbers x y => exact .numbers y x
  | strings a b => exact .strings b a

/-- The values before and after one of their kind are of that kind. -/
theorem Ordered.trans (ordered : Ordered v v') (ordered' : Ordered v' v'') : Ordered v v'' := by
  cases ordered with
  | numbers x y =>
    cases ordered' with
    | numbers _ z => exact .numbers x z
  | strings a b =>
    cases ordered' with
    | strings _ c => exact .strings a c

/-- Two values stand the other way round when they change places. -/
theorem Ordered.swap (ordered : Ordered v v') : v'.order v = (v.order v').swap := by
  cases ordered with
  | numbers x y =>
    have swapped : y.order x = (x.order y).swap := Std.OrientedCmp.eq_swap
    exact swapped
  | strings a b =>
    have swapped : compare b a = (compare a b).swap := Std.OrientedCmp.eq_swap
    exact swapped

/-- A value below a second one that is below a third is below the third. -/
theorem Ordered.lt_trans (ordered : Ordered v v') (ordered' : Ordered v' v'')
    (first : v.order v' = .lt) (second : v'.order v'' = .lt) : v.order v'' = .lt := by
  -- Both orders are of one kind, and each of the two kinds is transitive.
  cases ordered with
  | numbers x y =>
    -- Numbers are compared with numbers only.
    cases ordered' with
    | numbers _ z =>
      have first : x.order y = .lt := first
      have second : y.order z = .lt := second
      have both : x.order z = .lt := Std.TransCmp.lt_trans first second
      exact both
  | strings a b =>
    cases ordered' with
    | strings _ c =>
      have first : compare a b = .lt := first
      have second : compare b c = .lt := second
      have both : compare a c = .lt := Std.TransCmp.lt_trans first second
      exact both

/-- Whether two values are the same is decided by their order, NaN apart. -/
theorem Ordered.same (ordered : Ordered v v') (h : Heap) : h.same v v' = some (v.equal v') := by
  -- Numbers are compared as numbers, and strings by the order of their bytes.
  cases ordered with
  | numbers x y => exact congrArg some (x.equal_eq y)
  | strings a b =>
    have place : (a == b) = (compare a b == .eq) := by
      rw [Bool.eq_iff_iff]
      simp
    show some (a == b) = some (compare a b == .eq && !(false && false))
    rw [place]
    simp

end Handle

open Handle (Ordered)

namespace Act

variable {m : Machine} {arguments v v' : Handle}

/-- A comparison of two values by their order answers whether the order satisfies it. -/
theorem compareOrder_run (p : Primitive) (ordered : Ordered v v') :
    compareOrder p v v' m = .ok (.bool (p.holds (v.order v'))) m := by
  -- A glance shows the whole of a number or a string.
  cases ordered <;> rfl

/-- Comparing two values for equality answers whether they are equal. -/
theorem same_run_ordered (ordered : Ordered v v') :
    (liftM (ListOp.same v v') : Act Bool) m = .ok (v.equal v') m := by
  have answered : ListOp.same v v' m.heap = .ok (v.equal v') m.heap := by
    rw [ListOp.same_run, ordered.same]
  exact lift_ok answered

end Act

end Shared

namespace Primitive

open Shared (Handle)
open Shared.Handle (Ordered)

variable {p : Primitive} {v v' v'' : Handle} {answer : Bool}

/-- What a comparison operation answers about two numbers or two strings. -/
def verdict (p : Primitive) (v v' : Handle) : Bool :=
  match p with
  | .equal => v.equal v'
  | .unequal => !v.equal v'
  | p => p.holds (v.order v')

/-- The operations that compare two values. -/
def comparisons : List Primitive :=
  [.less, .equal, .greater, .lessEq, .greaterEq, .unequal]

/-- Every comparison operation decides its question. -/
theorem decides_verdict (compares : p ∈ comparisons) (ordered : Ordered v v') :
    p.Decides v v' (p.verdict v v') := by
  intro ev scope arguments m given
  have same := Shared.Act.same_run_ordered (m := m) ordered
  -- Each is applied to both arguments, by their order or by what they hold.
  simp only [comparisons, List.mem_cons, List.not_mem_nil, or_false] at compares
  rcases compares with rfl | rfl | rfl | rfl | rfl | rfl
  -- Equality compares what is held, and the others compare by order.
  case inr.inl =>
    refine (Shared.Act.onTwo_given .equal given _).trans ?_
    exact Shared.Act.bind_ok same _
  case inr.inr.inr.inr.inr =>
    refine (Shared.Act.onTwo_given .unequal given _).trans ?_
    exact Shared.Act.bind_ok same _
  all_goals
    refine (Shared.Act.onTwo_given _ given _).trans ?_
    exact Shared.Act.compareOrder_run _ ordered

/-- What an operation decides is its verdict, and nothing else. -/
theorem decides_iff (compares : p ∈ comparisons) (ordered : Ordered v v') :
    p.Decides v v' answer ↔ p.verdict v v' = answer := by
  have decides := decides_verdict compares ordered
  constructor
  · intro decided
    -- Both are what the operation answers on one machine that holds the two values.
    let fresh : Shared.Machine := .initial fun _ => .error .missing
    let m : Shared.Machine := { fresh with heap := ⟨#[.ofList [v, v']]⟩ }
    have given : m.heap.elements (.list .sexpr ⟨0⟩) = [v, v'] := rfl
    have answers := decides (fun _ v => pure v) Scopes.global _ m given
    cases answers.symm.trans (decided (fun _ v => pure v) Scopes.global _ m given)
    rfl
  · rintro rfl
    exact decides

/-- The questions of which at most one has the answer yes. -/
def trichotomy : List Primitive :=
  [.less, .equal, .greater]

/-- Of two values that are not both NaN exactly one is less than, equal to or greater than the other. -/
theorem verdict_one (number : ¬ (v.isNaN ∧ v'.isNaN)) :
    ∃ p ∈ trichotomy, p.verdict v v' = true ∧ ∀ q ∈ trichotomy, q ≠ p → q.verdict v v' = false := by
  have told : (v.isNaN && v'.isNaN) = false := by simpa using number
  -- The three places that one value can have are those that the questions ask for.
  cases place : v.order v' with
  | lt => exact ⟨.less, by simp [trichotomy, verdict, holds, Handle.equal, place]⟩
  | eq => exact ⟨.equal, by simp [trichotomy, verdict, holds, Handle.equal, place, told]⟩
  | gt => exact ⟨.greater, by simp [trichotomy, verdict, holds, Handle.equal, place]⟩

/-- Two NaN stand at one place. -/
theorem order_isNaN (ordered : Ordered v v') (nan : v.isNaN) (nan' : v'.isNaN) :
    v.order v' = .eq := by
  cases ordered with
  | strings a b => cases nan
  | numbers x y =>
    have absent : x.isNaN = true := nan
    have absent' : y.isNaN = true := nan'
    show x.order y = .eq
    rw [Number.order, absent, absent']

/--
The comparison operations agree with one another on numbers and on strings, except on a pair of NaN.

Each of them decides its question about two numbers or two strings. Unless both are NaN, exactly one of
less, equal and greater holds, and less or equal and greater or equal hold when one of their parts does.
Of two NaN none of the three holds, and yet the other two do. In every case unequal is the negation of
equal, less is greater with the values changed over, and less leads from one value to the next.
-/
theorem comparisons_consistent (ordered : Ordered v v') :
    (∀ p ∈ comparisons, ∃ answer, p.Decides v v' answer) ∧
    (¬ (v.isNaN ∧ v'.isNaN) →
      (∃ p ∈ trichotomy, p.Decides v v' true ∧ ∀ q ∈ trichotomy, q ≠ p → q.Decides v v' false) ∧
      (lessEq.Decides v v' true ↔ less.Decides v v' true ∨ equal.Decides v v' true) ∧
      (greaterEq.Decides v v' true ↔ greater.Decides v v' true ∨ equal.Decides v v' true)) ∧
    (v.isNaN → v'.isNaN → (∀ p ∈ trichotomy, p.Decides v v' false) ∧
      lessEq.Decides v v' true ∧ greaterEq.Decides v v' true) ∧
    (∀ answer, unequal.Decides v v' answer ↔ equal.Decides v v' (!answer)) ∧
    (∀ answer, less.Decides v v' answer ↔ greater.Decides v' v answer) ∧
    ∀ v'', Ordered v' v'' → less.Decides v v' true → less.Decides v' v'' true →
      less.Decides v v'' true := by
  have decides : ∀ {p : Primitive} {answer : Bool}, p ∈ comparisons →
      (p.Decides v v' answer ↔ p.verdict v v' = answer) := fun compares =>
    decides_iff compares ordered
  have among : ∀ p ∈ trichotomy, p ∈ comparisons := by decide
  -- Every part is a statement about verdicts, since the verdict is what is decided.
  refine ⟨fun p compares => ⟨_, decides_verdict compares ordered⟩, ?_, ?_, ?_, ?_, ?_⟩
  · intro number
    refine ⟨?_, ?_, ?_⟩
    -- Of the three exactly one holds, unless both values are NaN.
    · obtain ⟨p, member, holds, others⟩ := verdict_one number
      refine ⟨p, member, (decides (among p member)).mpr holds, ?_⟩
      intro q member' other
      exact (decides (among q member')).mpr (others q member' other)
    -- With one NaN at most, each verdict follows from the place of the values.
    all_goals
      have told : (v.isNaN && v'.isNaN) = false := by simpa using number
      rw [decides (by decide), decides (by decide), decides (by decide)]
      cases place : v.order v' <;> simp [verdict, holds, Handle.equal, place, told]
  -- Two NaN have one place in the order, and are not equal all the same.
  · intro nan nan'
    have place := order_isNaN ordered nan nan'
    refine ⟨?_, ?_, ?_⟩
    · intro p member
      rw [decides (among p member)]
      simp only [trichotomy, List.mem_cons, List.not_mem_nil, or_false] at member
      rcases member with rfl | rfl | rfl <;> simp [verdict, holds, Handle.equal, place, nan, nan']
    all_goals
      rw [decides (by decide)]
      simp [verdict, holds, place]
  -- Inequality is what equality is not.
  · intro answer
    rw [decides (by decide), decides (by decide)]
    simp [verdict]
  · intro answer
    -- The values change places, and so do below and above.
    rw [decides (by decide), decides_iff (by decide) ordered.symm]
    simp only [verdict, holds, ordered.swap]
    cases v.order v' <;> rfl
  -- What is below a value that is below a third is below that.
  · intro v'' ordered' first second
    rw [decides (by decide)] at first
    rw [decides_iff (by decide) ordered'] at second
    rw [decides_iff (by decide) (ordered.trans ordered')]
    simp only [verdict, holds, decide_eq_true_eq] at first second ⊢
    exact ordered.lt_trans ordered' first second

/-- The zeros are equal, whatever their signs, and neither is below the other. -/
theorem comparisons_consistent_zeros :
    equal.Decides (.number Number.zero.neg) (.number .zero) true ∧
      lessEq.Decides (.number Number.zero.neg) (.number .zero) true ∧
      unequal.Decides (.number Number.zero.neg) (.number .zero) false := by
  have ordered : Ordered (.number Number.zero.neg) (.number .zero) := .numbers _ _
  have same : equal.Decides (.number Number.zero.neg) (.number .zero) true :=
    (decides_iff (by decide) ordered).mpr (by decide)
  obtain ⟨_, consistent, _, negation, _⟩ := comparisons_consistent ordered
  obtain ⟨_, lessOrEqual, _⟩ := consistent (by decide)
  exact ⟨same, lessOrEqual.mpr (.inr same), (negation false).mpr same⟩

/-- A NaN, which infinite products differ by, is neither less than, equal to nor greater than itself. -/
theorem comparisons_inconsistent_nan :
    let large := Number.ofMagnitude false (Number.infiniteMagnitude - 1)
    let nan := (large.mul large).sub (large.mul large)
    large.isFinite ∧ (∀ p ∈ trichotomy, ¬ p.Decides (.number nan) (.number nan) true) ∧
      lessEq.Decides (.number nan) (.number nan) true := by
  intro large nan
  -- The product of two large numbers is infinite, and the difference of that to itself is no
  -- number.
  have infinite : large.mul large = .infinity false := by decide +kernel
  have computed : nan = .nan := by
    show (large.mul large).sub (large.mul large) = .nan
    rw [infinite]
    decide +kernel
  rw [computed]
  have ordered : Ordered (.number .nan) (.number .nan) := .numbers _ _
  refine ⟨by decide +kernel, ?_, (decides_iff (by decide) ordered).mpr (by decide)⟩
  intro p member
  rw [decides_iff (List.mem_of_mem_take (show p ∈ comparisons.take 3 from member)) ordered]
  revert p
  decide

end Primitive
end QLisp
