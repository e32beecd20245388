import QLisp.Proofs.Shared.Act
import QLisp.Proofs.Shared.Edit

/-!
Operators on the arguments that they are given.

What an operator finds in its argument list is read off the heap. This needs nothing of the machine but
that the elements are there, so it says what an operator does at any moment of any run.
-/

namespace QLisp.Shared

/-- A handle with elements is a list in a container that has been made. -/
theorem Heap.made_of_elements {h : Heap} {arguments : Handle}
    (present : h.elements arguments ≠ []) :
    ∃ kind id, arguments = .list kind id ∧ h.Made id := by
  cases arguments with
  | list kind id =>
    refine ⟨kind, id, rfl, Nat.lt_of_not_le fun unmade => present ?_⟩
    -- Nothing is in a container that has not been made.
    rw [Heap.elements, Heap.items, Heap.container, Array.getD_eq_getD_getElem?,
      Array.getElem?_eq_none unmade]
    rfl
  | _ => exact absurd rfl present

namespace Act

variable {m : Machine} {arguments v v' : Handle} (p : Primitive)

/-- A computation goes on after a check that passes. -/
theorem orFail_ok {α : Type} (a : α) (next : α → Act Handle) : orFail (.ok a) next = next a := rfl

/-- A computation ends with the failure of a check. -/
theorem orFail_error {α : Type} (failure : Failure) (next : α → Act Handle) :
    orFail (.error failure) next m = .ok (.error failure) m := rfl

/-- An operation on its only argument is given the only element. -/
theorem onOne_given (given : m.heap.elements arguments = [v]) (f : Handle → Act Handle) :
    onOne p arguments f m = f v m := by
  have first : ListOp.element arguments 0 m.heap = .ok v m.heap :=
    ListOp.element_ok (by simp [given])
  rw [onOne, elements_bind, given]
  exact bind_ok (lift_ok first) f

/-- An operation on two arguments is given both elements in order. -/
theorem onTwo_given (given : m.heap.elements arguments = [v, v']) (f : Handle → Handle → Act Handle) :
    onTwo p arguments f m = f v v' m := by
  have first : ListOp.element arguments 0 m.heap = .ok v m.heap :=
    ListOp.element_ok (by simp [given])
  have second : ListOp.element arguments 1 m.heap = .ok v' m.heap :=
    ListOp.element_ok (by simp [given])
  rw [onTwo, elements_bind, given]
  refine (bind_ok (lift_ok first) fun v => do f v (← ListOp.element arguments 1)).trans ?_
  exact bind_ok (lift_ok second) (f v)

end Act

end QLisp.Shared
