import QLisp.Proofs.Shared.Frame

/-!
Binding the arguments of a call.

A call makes a scope, a child of the one that its function captured, and binds names in it. Each is
bound to a copy, so all that was there stays as it is, but for the list that the arguments are taken
from.
-/

namespace QLisp

namespace Matched

variable {α : Type}

/-- The variadic name with the arguments that it takes. -/
def rest : Matched α → Option (String × List α)
  | .full _ rest => rest
  | _ => none

/-- What is bound to names, in order, given the value of each argument. -/
def bindings (value : α → Value) (matched : Matched α) : List (String × Value) :=
  (matched.bound.map fun (name, a) => (name, value a)) ++
    matched.rest.toList.map fun (name, rest) => (name, .qexpr (rest.map value))

end Matched

namespace Shared

/--
A machine on which a call has made its scope and bound names in it.

The scope is a new child of the captured one, and a repeated name has its last value. Every scope that
was there is as it was, what it binds is seen as before, and no container but that of the arguments
has been changed.
-/
structure Machine.Entered (m : Machine) (captured : Option ScopeId)
    (bindings : List (String × Value)) (a : CellId) (m' : Machine) : Prop where
  /-- Nothing but scopes and containers has changed. -/
  rest : m' = ⟨{ m.world with scopes := m'.world.scopes }, m'.heap, m.depth⟩
  /-- One scope has been made. -/
  size : m'.world.scopes.made.size = m.world.scopes.made.size + 1
  /-- The new scope is a child of the captured one. -/
  parent : m'.world.scopes.parent? m.world.scopes.next = captured
  /-- The new scope binds the names. -/
  bound : ∀ name, m'.binding? m.world.scopes.next name = bindings.reverse.lookup name
  /-- The other scopes are as they were. -/
  others : ∀ s, m.world.scopes.Made s → m'.world.scopes.get? s = m.world.scopes.get? s
  /-- The values in the other scopes are as they were. -/
  values : ∀ s, m.world.scopes.Made s → ∀ name, m'.binding? s name = m.binding? s name
  /-- No container has been changed but that of the arguments. -/
  edits : Edits [a] m.heap m'.heap

variable {kept kept₁ kept₂ : CellId → Prop} {m m₁ m₂ : Machine} {captured : Option ScopeId}
  {bindings : List (String × Value)} {a : CellId}

/-- A machine on which a call has begun to bind names, with bindings isolated. -/
structure Entering (kept : CellId → Prop) (m : Machine) (captured : Option ScopeId)
    (bindings : List (String × Value)) (a : CellId) (kept₁ : CellId → Prop) (m₁ : Machine) :
    Prop where
  /-- The names have been bound. -/
  entered : m.Entered captured bindings a m₁
  /-- Names have been written in no scope that was there. -/
  step : Step (fun _ => False) kept m kept₁ m₁

/-- The new scope of a call has been made. -/
theorem Machine.Entered.made (entered : m.Entered captured bindings a m₁) :
    m₁.world.scopes.Made m.world.scopes.next := by
  simp [Scopes.Made, entered.size, Scopes.next]

/-- A call begins with a scope that binds nothing. -/
theorem entering_enter (isolated : Isolated kept m)
    (made : ∀ s ∈ captured, m.world.scopes.Made s) :
    Entering kept m captured [] a kept
      { m with world.scopes := m.world.scopes.extend captured } where
  entered := {
    rest := rfl
    size := Scopes.size_extend _ _
    parent := by simp [Scopes.parent?_extend]
    -- Nothing is bound in a scope that has not been made.
    bound := fun name => by
      have none : m.world.scopes.local? m.world.scopes.next name = none := by
        rw [Scopes.local?, Scopes.get?_eq_none_iff.mpr (Scopes.not_made_next _), Option.bind_none]
      simp [Machine.binding?, none]
    -- The scopes that were there are the same ones.
    others := fun s there => by rw [Scopes.get?_extend, if_neg there.ne_next]
    values := fun s there name => by simp [Machine.binding?]
    edits := .refl [a] m.heap }
  step := isolated.step_extend made rfl rfl

namespace Entering

/-- Changing the container of the arguments leaves the names bound. -/
theorem edit (entering : Entering kept m captured bindings a kept₁ m₁) {h : Heap}
    (edits : Edits [a] m₁.heap h)
    (step : Step (fun _ => False) kept₁ m₁ kept₂ { m₁ with heap := h }) :
    Entering kept m captured bindings a kept₂ { m₁ with heap := h } where
  entered := by
    -- The step leaves every binding with its value.
    have same : ∀ s name, Machine.binding? { m₁ with heap := h } s name = m₁.binding? s name :=
      fun s name => step.binding? entering.step.isolated rfl
    obtain ⟨rest, size, parent, bound, others, values, before⟩ := entering.entered
    refine ⟨by rw [rest], size, parent, fun name => (same _ name).trans (bound name), others,
      fun s there name => (same s name).trans (values s there name), before.trans edits ?_⟩
    exact fun c member => .inl member
  step := entering.step.trans step fun _ never => never.elim

/-- Binding a name adds it to those that are bound. -/
theorem bind (entering : Entering kept m captured bindings a kept₁ m₁) (name : String) {v : Handle}
    (loose : Loose kept₁ m₁ v) (ends : m₁.heap.ends v) :
    ∃ kept₂ m₂, Act.bind m.world.scopes.next name v m₁ = .ok () m₂ ∧
      Entering kept m captured (bindings ++ [(name, m₁.heap.view v)]) a kept₂ m₂ ∧
      Step (· = m.world.scopes.next) kept₁ m₁ kept₂ m₂ ∧ Edits [] m₁.heap m₂.heap := by
  obtain ⟨entered, before⟩ := entering
  -- The value is placed anew, and the binding keeps the copy.
  have ran := Act.bind_made entered.made name ends
  obtain ⟨kept₂, step, _⟩ := (Act.isolating_bindOwn before.isolated name loose).ok ran
  refine ⟨kept₂, _, ran, ⟨?_, before.trans step fun id same there => ?_⟩, step,
    .of_keeps (Heap.keeps_place _ _)⟩
  · -- Only the name in the new scope has another value than before.
    have elsewhere : ∀ s key, ¬ (s = m.world.scopes.next ∧ key = name) →
        Machine.binding? { m₁ with
          world.scopes := m₁.world.scopes.bind m.world.scopes.next name
            (m₁.heap.place (m₁.heap.view v)).1
          heap := (m₁.heap.place (m₁.heap.view v)).2 } s key = m₁.binding? s key := by
      refine fun s key apart => step.binding? before.isolated ?_
      rw [Scopes.local?_bind, if_neg fun same => apart ⟨same.1, same.2.1⟩]
    -- The parts of what has been entered are taken one by one, and only two of them change.
    have made := entered.made
    obtain ⟨rest, size, parent, bound, others, values, edits⟩ := entered
    refine ⟨by rw [rest], by simpa using size, by simpa using parent, fun key => ?_,
      fun s there => ?_, fun s there key => ?_, edits.trans (.of_keeps (Heap.keeps_place _ _)) ?_⟩
    -- In the new scope the latest binding of a name is the one that is found.
    · rw [List.reverse_append, List.reverse_singleton, List.singleton_append, List.lookup_cons]
      by_cases same : key = name
      · subst same
        rw [Machine.binding?, Scopes.local?_bind, if_pos ⟨rfl, rfl, made⟩]
        simp [Heap.view_place]
      · rw [elsewhere _ _ fun other => same other.2, bound]
        rw [beq_false_of_ne same]
    -- Older scopes, and what they bind, are as they were.
    · rw [Scopes.get?_bind, if_neg there.ne_next, others s there]
    · rw [elsewhere _ _ fun other => there.ne_next other.1, values s there]
    · simp
  -- The new scope had not been made before, so nothing that was there has changed.
  · exact absurd there (same ▸ Scopes.not_made_next _)

/--
Taking arguments off their list in order, each bound to a name before the next is taken, adds the names
to those that are bound.
-/
theorem bindTaken (isolated : Isolated kept m) {kind : ListKind} (loose : Loose kept m (.list kind a))
    (ends : m.heap.ends (.list kind a)) {left : List Handle} (bound : List (String × Handle)) :
    ∀ {bindings kept₁ m₁}, Entering kept m captured bindings a kept₁ m₁ →
      m₁.heap.items a = bound.map (·.2) ++ left → (∀ b ∈ bound, b.2 ∈ m.heap.items a) →
      ∃ kept₂ m₂, Act.bindTaken m.world.scopes.next (.list kind a) (bound.map (·.1)) m₁ = .ok () m₂ ∧
        Entering kept m captured (bindings ++ bound.map fun (name, v) => (name, m.heap.view v)) a
          kept₂ m₂ ∧ m₂.heap.items a = left := by
  -- By induction on the names. Only the list of arguments is changed, and none of them leads to it, so
  -- each is seen as before the call when its turn comes.
  induction bound with
  | nil =>
    intro bindings kept₁ m₁ entering items _
    exact ⟨kept₁, m₁, rfl, by simpa using entering, items⟩
  | cons b rest ih =>
    intro bindings kept₁ m₁ entering items members
    obtain ⟨name, v⟩ := b
    have out := loose.step entering.step
    -- The argument is taken off the list, which then begins with the next one.
    obtain ⟨h, ran, edits, items₂⟩ := ListOp.popFront_ok (outside_list.mp out).1 items kind
    obtain ⟨kept₂, step, taken⟩ := (Act.isolating_lift_loose entering.step.isolated
      (ListOp.harmless_popFront entering.step.isolated.apart out)).ok (Act.lift_ok ran)
    have entering₂ := entering.edit edits step
    have member : v ∈ m.heap.items a := members _ List.mem_cons_self
    have made : ∀ path c, m.heap.LeadsTo v path c → m.heap.Made c := fun path c leads =>
      (isolated.apart.leadsTo path (isolated.apart.elements loose member) leads).1
    -- Nothing in the argument leads to the list, so it shows what it did before the call.
    obtain ⟨ends₂, viewed⟩ := entering₂.entered.edits.view (Heap.ends_element ends member made)
      fun path c leads => ⟨made path c leads, fun here =>
        Heap.not_leadsTo_self ends member path (List.mem_singleton.mp here ▸ leads)⟩
    obtain ⟨kept₃, m₃, ran', entering₃, _, edits₃⟩ := entering₂.bind name taken ends₂
    -- Binding the argument makes a copy, which leaves the list as it is.
    have items₃ : m₃.heap.items a = rest.map (·.2) ++ left :=
      (edits₃.items (edits.made (outside_list.mp out).1) List.not_mem_nil).trans items₂
    rw [viewed] at entering₃
    obtain ⟨kept₄, m₄, ran'', entering₄, items₄⟩ := ih entering₃ items₃ fun b member =>
      members b (List.mem_cons_of_mem _ member)
    refine ⟨kept₄, m₄, ?_, by simpa using entering₄, items₄⟩
    -- Both steps have been made, and the rest of the names follows.
    rw [List.map_cons, Act.bindTaken, Act.bind_ok (Act.lift_ok ran), Act.bind_ok ran', ran'']

end Entering

/-- Binding a variadic name to the arguments that are left adds it to the names that are bound. -/
theorem Entering.bindRest (entering : Entering kept m captured bindings a kept₁ m₁)
    {kind : ListKind} (isolated : Isolated kept m) (loose : Loose kept m (.list kind a))
    (ends : m.heap.ends (.list kind a)) {rest : Option (String × List Handle)}
    (left : ∀ r ∈ rest, m₁.heap.items a = r.2) (fewer : ∀ r ∈ rest, ∀ v ∈ r.2, v ∈ m.heap.items a) :
    ∃ kept₂ m₂, Act.bindRest m.world.scopes.next (.list kind a) rest m₁ = .ok () m₂ ∧
      Entering kept m captured (bindings ++ rest.toList.map fun (name, rest) =>
        (name, .qexpr (rest.map m.heap.view))) a kept₂ m₂ := by
  -- Without a variadic name nothing is bound, and otherwise some arguments are left or none.
  rcases rest with _ | ⟨name, _ | ⟨v, vs⟩⟩
  · exact ⟨kept₁, m₁, rfl, by simpa using entering⟩
  · -- No argument is left, and the name is bound to a fresh empty list.
    obtain ⟨h, ran, edits, there, items⟩ := ListOp.make_ok m₁.heap .qexpr []
    have safe : Act.Isolating (fun _ => False) kept₁ m₁ (liftM (ListOp.make .qexpr [])) Loose :=
      Act.isolating_lift_loose entering.step.isolated
        (ListOp.harmless_make entering.step.isolated.apart (by simp))
    obtain ⟨kept₂, step, out⟩ := safe.ok (Act.lift_ok ran)
    have entering₂ := entering.edit (edits.mono nofun) step
    obtain ⟨ends', viewed⟩ := Heap.view_empty there items .qexpr
    obtain ⟨kept₃, m₃, ran', entering₃, _, _⟩ := entering₂.bind name out ends'
    refine ⟨kept₃, m₃, ?_, ?_⟩
    · rw [Act.bindRest, Act.bind_ok (Act.lift_ok ran), ran']
    -- The list is seen as empty, which is what the name is bound to.
    · rw [viewed] at entering₃
      exact entering₃
  · -- The list of arguments is seen as a quoted list of what is left in it.
    have items : m₁.heap.items a = v :: vs := left _ rfl
    have out : Loose kept₁ m₁ (.list .qexpr a) :=
      outside_list.mpr (outside_list.mp (loose.step entering.step))
    obtain ⟨ends', viewed⟩ := entering.entered.edits.view_list ends
      (fun path c leads => (isolated.apart.leadsTo path loose leads).1)
      (fun u member => fewer _ rfl u (items ▸ member)) .qexpr
    obtain ⟨kept₃, m₃, ran', entering₃, _, _⟩ := entering.bind name out ends'
    refine ⟨kept₃, m₃, ran', ?_⟩
    -- The name is bound to the arguments that are left.
    rw [viewed, items] at entering₃
    exact entering₃

namespace Act

/-- Makes the scope of a call and binds the arguments in it, taking them off their list. -/
def bindArguments (captured : Option ScopeId) (matched : Matched Handle) (arguments : Handle) :
    Act ScopeId := do
  let own ← enter captured
  bindTaken own arguments (matched.bound.map (·.1))
  bindRest own arguments matched.rest
  return own

/-- What a call does in its scope once the arguments are bound. -/
def proceed (ev : Evaluator) (shape : Value) (body : Handle) (given : Nat)
    (matched : Matched Handle) (own : ScopeId) : Act Handle :=
  match matched with
  | .full .. => do ev own (← ListOp.retag .sexpr (← ListOp.copy body))
  | .short _ waiting => do
    return .lambda (← ListOp.place (shape.withItems waiting)) body (some own)
  | .excess _ => return .error (.wrongCount "lambda" shape.items.length given)
  | .malformed _ => return .error .malformedVariadic

/-- A call binds its arguments first. -/
theorem applyLambda_run (ev : Evaluator) {formals : Handle} (body : Handle)
    (captured : Option ScopeId) (kind : ListKind) (a : CellId) (ends : m.heap.ends formals) :
    applyLambda ev formals body captured (.list kind a) m = (do
      let own ← bindArguments captured
        (matchFormals (m.heap.view formals).items (m.heap.items a)) (.list kind a)
      proceed ev (m.heap.view formals) body (m.heap.items a).length
        (matchFormals (m.heap.view formals).items (m.heap.items a)) own : Act Handle) m := by
  rw [applyLambda, view_bind, if_pos ends, elements_bind, Heap.elements_list]
  simp only [bindArguments, bind_assoc, pure_bind]
  cases matchFormals (m.heap.view formals).items (m.heap.items a) <;>
    simp only [proceed, Matched.rest, bindRest, pure_bind]

/-- Binding the arguments ends, and has bound what was matched. -/
theorem entering_bindArguments (isolated : Isolated kept m)
    (captures : ∀ s ∈ captured, m.world.scopes.Made s) {kind : ListKind}
    (loose : Loose kept m (.list kind a)) (ends : m.heap.ends (.list kind a))
    (formals : List Value) :
    ∃ kept₁ m₁, bindArguments captured (matchFormals formals (m.heap.items a)) (.list kind a) m =
        .ok m.world.scopes.next m₁ ∧
      Entering kept m captured ((matchFormals formals (m.heap.items a)).bindings m.heap.view) a
        kept₁ m₁ := by
  -- The arguments that are bound come first on their list.
  have whole : m.heap.items a = (matchFormals formals (m.heap.items a)).bound.map (·.2) ++
      (m.heap.items a).drop (matchFormals formals (m.heap.items a)).bound.length := by
    rw [bound_matchFormals, List.take_append_drop]
  -- Those are taken off and bound one by one.
  obtain ⟨kept₁, m₁, ran₁, entering₁, items₁⟩ := Entering.bindTaken isolated loose ends
    (matchFormals formals (m.heap.items a)).bound (entering_enter (a := a) isolated captures) whole
    fun b member => mem_of_mem_bound member
  -- Only a full match has a rest, and that is what follows the arguments that were bound.
  have rest : ∀ r ∈ (matchFormals formals (m.heap.items a)).rest, m₁.heap.items a = r.2 := by
    intro r member
    rw [items₁]
    cases found : matchFormals formals (m.heap.items a) with
    | full bound rest =>
      rw [found] at member
      obtain rfl : rest = some r := member
      exact (rest_matchFormals found).symm
    | _ =>
      rw [found] at member
      cases member
  -- The variadic name is bound to what is left on the list.
  obtain ⟨kept₂, m₂, ran₂, entering₂⟩ := entering₁.bindRest isolated loose ends rest
    fun r member v inside => by
      rw [← rest r member, items₁] at inside
      exact List.mem_of_mem_drop inside
  refine ⟨kept₂, m₂, ?_, entering₂⟩
  rw [bindArguments, bind_ok (enter_run captured), bind_ok ran₁, bind_ok ran₂]
  rfl

/-- A copy of a list is made in containers that nobody else leads to, and is taken as a call. -/
theorem retag_copy {v : Handle} {kind : ListKind} {items : List Value} (ends : m.heap.ends v)
    (listed : m.heap.view v = .list kind items) :
    ∃ id h, (do ListOp.retag .sexpr (← ListOp.copy v) : ListOp Handle) m.heap =
        .ok (.list .sexpr id) h ∧ Edits [] m.heap h ∧ h.view (.list .sexpr id) = .sexpr items ∧
      ∀ path c, h.LeadsTo (.list .sexpr id) path c → ¬ m.heap.Made c := by
  obtain ⟨_, ids, holds, once, fresh⟩ := exists_placed m.heap (.list kind items)
  -- Only the kind of the copy is changed, so it is on the same containers.
  obtain ⟨id, same⟩ : ∃ id, (m.heap.place (.list kind items)).1 = .list kind id := ⟨_, rfl⟩
  rw [same] at holds
  have viewed := holds.view once fun c member => (fresh c member).2
  refine ⟨id, (m.heap.place (.list kind items)).2, ?_, .of_keeps (Heap.keeps_place _ _), ?_,
    fun path c leads => ?_⟩
  · have copied := ListOp.copy_run v m.heap
    rw [if_pos ends, listed, same] at copied
    simp only [Bind.bind, EStateM.bind, copied]
    rfl
  -- The copy is seen as the list in brackets, and leads to new containers only.
  · exact congrArg (fun t => Value.sexpr t.items) viewed
  · have inside := holds.mem_of_leadsTo (Heap.leadsTo_list.mpr (Heap.leadsTo_list.mp leads))
    exact (fresh c inside).1

end Act

/-- Once names are bound, a value can be placed in fresh containers. -/
theorem Entering.place (entering : Entering kept m captured bindings a kept₁ m₁) {t : Value}
    (obeys : t.Obeys m₁.captures) :
    ∃ v m₂, (liftM (ListOp.place t) : Act Handle) m₁ = .ok v m₂ ∧
      m.Entered captured bindings a m₂ ∧ m₂.heap.view v = t := by
  have apart := entering.step.isolated.apart
  -- The value is made of new containers, so no old one is edited.
  have placed : ListOp.place t m₁.heap = .ok (m₁.heap.place t).1 (m₁.heap.place t).2 := rfl
  have safe : Act.Isolating (fun _ => False) kept₁ m₁ (liftM (ListOp.place t)) Loose :=
    Act.isolating_lift_loose entering.step.isolated (ListOp.harmless_place apart obeys)
  obtain ⟨kept₂, step, _⟩ := safe.ok (Act.lift_ok placed)
  have kept : Edits [] m₁.heap (m₁.heap.place t).2 := .of_keeps (Heap.keeps_place m₁.heap t)
  exact ⟨_, _, Act.lift_ok placed, (entering.edit (kept.mono nofun) step).entered,
    Heap.view_place m₁.heap t⟩

/-- Once names are bound, a fresh copy of a body is evaluated as a call. -/
theorem Entering.evaluate (entering : Entering kept m captured bindings a kept₁ m₁) {body : Handle}
    (loose : Loose kept₁ m₁ body) (ends : m₁.heap.ends body) {kind : ListKind} {items : List Value}
    (listed : m₁.heap.view body = .list kind items) :
    ∃ id m₂, (∀ (ev : Evaluator) (own : ScopeId),
        (do ev own (← ListOp.retag .sexpr (← ListOp.copy body)) : Act Handle) m₁ =
          ev own (.list .sexpr id) m₂) ∧
      m.Entered captured bindings a m₂ ∧ m₂.heap.view (.list .sexpr id) = .sexpr items ∧
      ∀ path c, m₂.heap.LeadsTo (.list .sexpr id) path c → ¬ m.heap.Made c := by
  have apart := entering.step.isolated.apart
  -- A copy leads to new containers only, as a list in brackets.
  obtain ⟨id, h, copied, edits, seen, fresh⟩ := Act.retag_copy ends listed
  have safe : Act.Isolating (fun _ => False) kept₁ m₁
      (liftM (do ListOp.retag .sexpr (← ListOp.copy body) : ListOp Handle)) Loose :=
    Act.isolating_lift_loose entering.step.isolated
      ((ListOp.harmless_copy apart (apart.obeys_view loose)).bind fun _ _ next out =>
        ListOp.harmless_retag next.apart out .sexpr)
  -- Copying keeps all containers that there were.
  obtain ⟨kept₂, step, _⟩ := safe.ok (Act.lift_ok copied)
  refine ⟨id, { m₁ with heap := h }, fun ev own => ?_,
    (entering.edit (edits.mono nofun) step).entered, seen, fun path c leads there =>
      (fresh path c leads) (entering.entered.edits.made there)⟩
  -- The body is copied first, and the copy is handed to the evaluator.
  have taken := Act.lift_ok copied
  rw [Act.lift_bind] at taken
  have next := Act.bind_ok taken (fun v => ev own v)
  rw [bind_assoc] at next
  exact next

/-- Every container that has been made may be kept. -/
theorem Isolated.keepAll (isolated : Isolated kept m) : Isolated m.heap.Made m where
  apart := ⟨fun _ made => made, fun _ made free => absurd made free⟩
  global := isolated.global
  ordered := isolated.ordered
  owned := fun id name v bound => by
    obtain ⟨t, ids, holds, once, held⟩ := isolated.owned id name v bound
    exact ⟨t, ids, holds, once, fun c member => isolated.apart.made c (held c member)⟩
  separate := isolated.separate

/-- Once the arguments are bound, a call changes no container that has been made. -/
theorem Act.isolating_proceed {ev : Evaluator} (safe : IsolatingEvaluator ev)
    (isolated : Isolated kept m) {own : ScopeId} (made : m.world.scopes.Made own) {shape : Value}
    {body : Handle} (loose : Loose kept m body) (given : Nat) {matched : Matched Handle}
    (obeys : ∀ bound waiting, matched = .short bound waiting →
      (shape.withItems waiting).Obeys m.captures) :
    Isolating (· = own) m.heap.Made m (proceed ev shape body given matched own)
      fun _ _ _ => True := by
  have all := isolated.keepAll
  -- Every container is kept, so only new ones may be edited.
  cases matched with
  | full bound rest =>
    have copied : Isolating (· = own) m.heap.Made m (liftM (ListOp.copy body)) Loose :=
      isolating_lift_loose all (ListOp.harmless_copy all.apart (isolated.apart.obeys_view loose))
    have evaluated := copied.bind fun kept' m' v step out =>
      isolating_evalRetagged safe step.isolated (step.made made) out
    exact evaluated.imp fun _ _ _ _ _ => trivial
  -- With too few arguments the formals that wait are placed anew.
  | short bound waiting =>
    have placed : Isolating (· = own) m.heap.Made m
        (liftM (ListOp.place (shape.withItems waiting))) Loose :=
      isolating_lift_loose all (ListOp.harmless_place all.apart (obeys bound waiting rfl))
    exact placed.bind fun _ _ _ step _ => isolating_pure step.isolated trivial
  | excess bound => exact isolating_pure all trivial
  | malformed bound => exact isolating_pure all trivial

end Shared
end QLisp
