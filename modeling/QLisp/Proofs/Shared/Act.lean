import QLisp.Proofs.Scope
import QLisp.Shared.Reduce

/-! How computations on a machine run: sequencing, and the steps that only read. -/

namespace QLisp.Shared

namespace ListOp

/-- The value of a handle is read without a change, unless the way down is endless. -/
theorem view_run (v : Handle) (h : Heap) :
    view v h = if h.ends v then .ok (h.view v) h else .error .unending h := by
  show (if h.ends v then pure (h.view v) else throw .unending : ListOp Value) h = _
  split <;> rfl

/-- A handle is copied by placing its value. -/
theorem copy_run (v : Handle) (h : Heap) :
    copy v h = if h.ends v then .ok (h.place (h.view v)).1 (h.place (h.view v)).2
      else .error .unending h := by
  simp only [copy, Bind.bind, EStateM.bind, view_run]
  cases h.ends v <;> rfl

/-- Two handles are compared without a change, unless the comparison does not end. -/
theorem same_run (v v' : Handle) (h : Heap) :
    same v v' h = match h.same v v' with
      | some answer => .ok answer h
      | none => .error .unending h := by
  show (match h.same v v' with
    | some answer => pure answer
    | none => throw .unending : ListOp Bool) h = _
  cases h.same v v' <;> rfl

end ListOp

namespace Act

variable {α β : Type} {m m' : Machine}

/-- A computation goes on after a result. -/
theorem bind_ok {act : Act α} {a : α} (ran : act m = .ok a m') (next : α → Act β) :
    (act >>= next) m = next a m' := by
  simp only [Bind.bind, EStateM.bind, ran]

/-- A computation does not go on after a fault. -/
theorem bind_error {act : Act α} {fault : Fault} (ran : act m = .error fault m')
    (next : α → Act β) : (act >>= next) m = .error fault m' := by
  simp only [Bind.bind, EStateM.bind, ran]

/-- A computation with a result had one before it went on. -/
theorem of_bind_ok {act : Act α} {next : α → Act β} {b : β} (ran : (act >>= next) m = .ok b m') :
    ∃ a m₁, act m = .ok a m₁ ∧ next a m₁ = .ok b m' := by
  cases first : act m with
  | ok a m₁ =>
    rw [bind_ok first] at ran
    exact ⟨a, m₁, rfl, ran⟩
  | error fault m₁ =>
    rw [bind_error first] at ran
    cases ran

/-- Reading the machine goes on with it as it is. -/
theorem get_bind (next : Machine → Act β) : ((get : Act Machine) >>= next) m = next m m := rfl

/-- A list operation runs on the heap of the machine. -/
theorem lift_run (op : ListOp α) :
    (liftM op : Act α) m = match op m.heap with
      | .ok a h => .ok a { m with heap := h }
      | .error fault h => .error fault { m with heap := h } := rfl

/-- A list operation with a result leaves the machine with its heap. -/
theorem lift_ok {op : ListOp α} {a : α} {h : Heap} (ran : op m.heap = .ok a h) :
    (liftM op : Act α) m = .ok a { m with heap := h } := by
  rw [lift_run, ran]

/-- A list operation that faults does so on the machine with its heap. -/
theorem lift_error {op : ListOp α} {fault : Fault} {h : Heap} (ran : op m.heap = .error fault h) :
    (liftM op : Act α) m = .error fault { m with heap := h } := by
  rw [lift_run, ran]

/-- A list operation in two steps is two list operations. -/
theorem lift_bind (op : ListOp α) (next : α → ListOp β) :
    (liftM (op >>= next) : Act β) = (liftM op >>= fun a => liftM (next a)) := by
  -- The second step runs on the heap of the first, or not at all.
  funext m
  show (match (op >>= next) m.heap with
    | .ok b h => .ok b { m with heap := h }
    | .error fault h => .error fault { m with heap := h } : EStateM.Result Fault Machine β) = _
  simp only [Bind.bind, EStateM.bind, lift_run]
  cases op m.heap <;> rfl

/-- Reading the elements of a list goes on with the machine as it is. -/
theorem elements_bind (v : Handle) (next : List Handle → Act β) :
    (liftM (ListOp.elements v) >>= next) m = next (m.heap.elements v) m := rfl

/-- Reading a handle's value goes on with the machine as it is, unless the way down is endless. -/
theorem view_bind (v : Handle) (next : Value → Act β) :
    (liftM (ListOp.view v) >>= next) m =
      (if m.heap.ends v then next (m.heap.view v) else throw .unending : Act β) m := by
  simp only [Bind.bind, EStateM.bind, lift_run, ListOp.view_run]
  cases m.heap.ends v <;> rfl

/-- Copying a handle's value goes on with the copy, unless the way down is endless. -/
theorem copy_bind (v : Handle) (next : Handle → Act β) :
    (liftM (ListOp.copy v) >>= next) m =
      if m.heap.ends v then next (m.heap.place (m.heap.view v)).1
        { m with heap := (m.heap.place (m.heap.view v)).2 }
      else .error .unending m := by
  simp only [Bind.bind, EStateM.bind, lift_run, ListOp.copy_run]
  cases m.heap.ends v <;> rfl

/-- Glancing at a handle's value goes on with the machine as it is. -/
theorem glance_bind (v : Handle) (next : Value → Act β) :
    (liftM (ListOp.glance v) >>= next) m = next (m.heap.glance v) m := rfl

/-- Comparing two handles goes on with the machine as it is, unless it does not end. -/
theorem same_bind (v v' : Handle) (next : Bool → Act β) :
    (liftM (ListOp.same v v') >>= next) m =
      (match m.heap.same v v' with
        | some answer => next answer
        | none => throw .unending : Act β) m := by
  simp only [Bind.bind, EStateM.bind, lift_run, ListOp.same_run]
  cases m.heap.same v v' <;> rfl

/-- A name that is bound is seen as a copy of its value. -/
theorem lookup_some {scope : ScopeId} {name : String} {v : Handle}
    (found : m.world.scopes.lookup? scope name = some v) :
    lookup scope name m = (liftM (ListOp.copy v) : Act Handle) m := by
  unfold lookup
  rw [get_bind, found]

/-- A name that is not bound is seen as the failure to find it. -/
theorem lookup_none {scope : ScopeId} {name : String}
    (found : m.world.scopes.lookup? scope name = none) :
    lookup scope name m = .ok (.error (.unbound name)) m := by
  unfold lookup
  rw [get_bind, found]
  rfl

/-- The values of handles are read without a change, unless a way down is endless. -/
theorem views_run (handles : List Handle) :
    views handles m = if handles.all m.heap.ends then .ok (handles.map m.heap.view) m
      else .error .unending m := by
  -- The handles are read in order, up to the first that leads on for ever.
  rw [views]
  induction handles with
  | nil => rfl
  | cons v rest ih =>
    rw [List.mapM_cons, view_bind]
    -- A handle that leads on for ever stops the run, and any other is seen.
    cases ends : m.heap.ends v with
    | false =>
      rw [List.all_cons, ends]
      rfl
    | true =>
      simp only [if_true, Bind.bind, EStateM.bind, ih, List.all_cons, ends, Bool.true_and]
      cases rest.all m.heap.ends <;> rfl

/-- Glancing at the values of handles goes on with the machine as it is. -/
theorem glances_bind (handles : List Handle) (next : List Value → Act β) :
    (glances handles >>= next) m = next (handles.map m.heap.glance) m := rfl

/-- A scope that has been made is there. -/
theorem expectScope_made {scope : ScopeId} (made : m.world.scopes.Made scope) :
    expectScope scope m = .ok () m := by
  have there : (m.world.scopes.get? scope).isNone = false := by
    rw [Option.isNone_eq_false_iff, Option.isSome_iff_ne_none]
    exact fun missing => Scopes.get?_eq_none_iff.mp missing made
  show (if (m.world.scopes.get? scope).isNone then throw .noScope else pure () : Act Unit) m = _
  rw [there]
  rfl

/-- A scope that has not been made is missed. -/
theorem expectScope_missing {scope : ScopeId} (missing : ¬ m.world.scopes.Made scope) :
    expectScope scope m = .error .noScope m := by
  show (if (m.world.scopes.get? scope).isNone then throw .noScope else pure () : Act Unit) m = _
  rw [Scopes.get?_eq_none_iff.mpr missing]
  rfl

/-- The outermost scope of a chain is found without a change. -/
theorem root_made {scope : ScopeId} (made : m.world.scopes.Made scope) :
    root scope m = .ok (m.world.scopes.root scope) m := by
  rw [root, bind_ok (expectScope_made made)]
  rfl

/-- Binding a name places a copy of the value and writes the name. -/
theorem bind_made {scope : ScopeId} (made : m.world.scopes.Made scope) (name : String)
    {v : Handle} (ends : m.heap.ends v) :
    bind scope name v m = .ok () { m with
      world.scopes := m.world.scopes.bind scope name (m.heap.place (m.heap.view v)).1
      heap := (m.heap.place (m.heap.view v)).2 } := by
  rw [bind, bind_ok (expectScope_made made), copy_bind, if_pos ends]
  rfl

/-- Without a scope, or with a value whose way down is endless, nothing is bound at all. -/
theorem bind_missed {scope : ScopeId} (name : String) {v : Handle}
    (missed : ¬ (m.world.scopes.Made scope ∧ m.heap.ends v)) :
    ∃ fault, bind scope name v m = .error fault m := by
  by_cases made : m.world.scopes.Made scope
  · refine ⟨.unending, ?_⟩
    rw [bind, bind_ok (expectScope_made made), copy_bind, if_neg fun ends => missed ⟨made, ends⟩]
  · refine ⟨.noScope, ?_⟩
    simp only [bind, Bind.bind, EStateM.bind, expectScope_missing made]

/-- A fresh scope is made at the end. -/
theorem enter_run (parent : Option ScopeId) :
    enter parent m = .ok m.world.scopes.next
      { m with world.scopes := m.world.scopes.extend parent } := rfl

/-- A computation runs as one more reduction in progress. -/
theorem nested_ok {act : Act α} {a : α} (ran : act { m with depth := m.depth + 1 } = .ok a m') :
    nested act m = .ok a { m' with depth := m'.depth - 1 } := by
  simp only [nested, ran]

/-- A computation that faults as one more reduction in progress faults. -/
theorem nested_error {act : Act α} {fault : Fault}
    (ran : act { m with depth := m.depth + 1 } = .error fault m') :
    nested act m = .error fault { m' with depth := m'.depth - 1 } := by
  simp only [nested, ran]

/-- A reduction is carried out, or gives up when as many as the limit are in progress. -/
theorem guarded_run (act : Act Handle) :
    guarded act m = (if m.world.limit ≤ m.depth then pure (.error (.tooDeep m.world.limit))
      else nested act : Act Handle) m := rfl

/-- A reduction that the limit allows is carried out. -/
theorem guarded_allowed {act : Act Handle} (allowed : m.depth < m.world.limit) :
    guarded act m = nested act m := by
  rw [guarded_run, if_neg (Nat.not_le.mpr allowed)]

/-- Evaluation takes as much room as the limit leaves. -/
theorem evaluate_run (scope : ScopeId) (v : Handle) :
    evaluate scope v m = eval (m.world.limit - m.depth) scope v m := rfl

/-- An operator is applied with as much room for evaluations as the limit leaves. -/
theorem apply_run (scope : ScopeId) (operator arguments : Handle) :
    apply scope operator arguments m =
      call (eval (m.world.limit - m.depth)) scope operator arguments m := rfl

end Act

end QLisp.Shared
