import QLisp.Proofs.Guarding
import QLisp.Proofs.Shared.NormalForms

/-!
The names of operations cannot be bound.

Evaluation in place follows evaluation of values, where no program has a symbol with the name of an
operation. So nothing binds such a name, neither where the operation is bound nor in front of that.
-/

namespace QLisp.Shared

variable {mine store : CellId → Prop} {m : Machine} {w : World Value}

/-- A source is answered with values without symbols that have the name of an operation. -/
theorem Mirrors.guards_source (mirrors : Mirrors True mine store m w) (idle : m.depth = 0)
    (intact : w.Intact) (source : Source) :
    ∃ answer m', Act.evaluateSource source m = .ok answer m' ∧
      ∀ handles, answer = .ok handles → ∀ v ∈ handles, (m'.heap.view v).Unreserved := by
  have ready : Ready m.world.limit 0 m Scopes.global := ⟨mirrors.global, rfl, idle⟩
  obtain ⟨answer, m', _, evaluated, _, _, good⟩ :=
    (Act.follows_evaluateSource mirrors ready source).ok
  exact ⟨answer, m', evaluated, good.all (Run.guards_evaluateSource intact source).good⟩

/--
The names of operations keep their meaning.

Any requests to a session are carried out without a fault. On the machine that they leave the global
scope binds the name of each operation to that operation, and no other scope binds it. No symbol has
such a name that is anywhere in a binding, in a function's formals or body too, and no symbol in what
any further source is answered with.
-/
theorem operations_keep_names (files : Files) (requests : List Request) :
    ∃ m, requests.forM Act.perform (Machine.standard files) = .ok () m ∧
      (∀ p : Primitive, m.binding? Scopes.global p.name = some (.primitive p)) ∧
      (∀ id, id ≠ Scopes.global → ∀ p : Primitive, m.binding? id p.name = none) ∧
      (∀ id name t, m.binding? id name = some t → ∀ p : Primitive, p.name ∉ t.symbols) ∧
      ∀ source, ∃ answer m', Act.evaluateSource source m = .ok answer m' ∧
        ∀ handles, answer = .ok handles → ∀ v ∈ handles,
          ∀ p : Primitive, p.name ∉ (m'.heap.view v).symbols := by
  -- No request binds an operation or makes a symbol with the name of one, so the world stays
  -- intact.
  obtain ⟨_, _, mirrors, idle⟩ := mirrors_standard files
  obtain ⟨m, store, ran, mirrors, idle⟩ := mirrors.session requests idle
  have intact := (World.intact_standard files).session requests
  refine ⟨m, ran, ?_, ?_, ?_, mirrors.guards_source idle intact⟩
  · intro p
    rw [mirrors.binding?]
    exact intact.original p
  · intro id apart p
    rw [mirrors.binding?]
    exact intact.elsewhere id p apart
  · intro id name t bound
    rw [mirrors.binding?] at bound
    exact intact.unreserved id name t bound

end QLisp.Shared
