import QLisp.Proofs.Caller
import QLisp.Proofs.Shared.FollowLambda

/-!
Evaluation in place follows evaluation of values.

A list is reduced inside its own container. Its elements stand on containers apart from that one and
from each other, so evaluating one of them leaves the slots and the other elements as they are.
-/

namespace QLisp.Shared

variable {proper : Prop} {mine store : CellId → Prop} {m : Machine} {w : World Value} {id : CellId}
  {span : Span}
  {done rest : List Handle} {rs ts : List Value} {ids ids' : List CellId} {limit depth : Nat}
  {scope : ScopeId}

/-- A list in its container, with some elements evaluated and the others still as they were. -/
structure Halfway (proper : Prop) (mine store : CellId → Prop) (m : Machine) (id : CellId)
    (span : Span)
    (done : List Handle) (rs : List Value) (ids : List CellId) (rest : List Handle)
    (ts : List Value)
    (ids' : List CellId) : Prop where
  /-- The evaluated elements come first. -/
  items : m.heap.items id = done ++ rest
  /-- The elements are in the slots that they were in at first. -/
  span : m.heap.span id = span
  /-- The evaluated elements stand for results. -/
  finished : HoldsAll m.heap (m.sound proper) done rs ids
  /-- The others stand for expressions. -/
  waiting : HoldsAll m.heap (m.sound proper) rest ts ids'
  /-- All containers are owned. -/
  free : Free mine store m.heap (ids' ++ id :: ids)

namespace Act

/-- A way of applying operators, given an evaluator. -/
abbrev Caller := Evaluator → ScopeId → Handle → Handle → Act Handle

/-- Reduces the list in a container, with a given way of applying operators. -/
def reduceVia (caller : Caller) (ev : Evaluator) (scope : ScopeId) (id : CellId) : Act Handle := do
  let list := Handle.list .sexpr id
  let span ← ListOp.span id
  evalSlots ev scope span 0 span.length
  match ← findError? span 0 span.length with
  | some index => ListOp.take list index
  | none =>
    match ← ListOp.items id with
    | [] => return list
    | [_] => do ev scope (← ListOp.take list 0)
    | _ => do
      let operator ← ListOp.popFront list
      caller ev scope operator list

/-- Evaluates a handle, with a given way of applying operators. -/
def evalVia (caller : Caller) : Nat → Evaluator
  | 0 => evalWith fun _ => throw .unending
  | room + 1 => fun scope => evalWith (reduceVia caller (evalVia caller room) scope) scope

/-- Evaluates a handle in a scope, with a given way of applying operators. -/
def evaluateVia (caller : Caller) (scope : ScopeId) (v : Handle) : Act Handle := do
  evalVia caller (← room) scope v

/-- Evaluation applies operators in the one way there is. -/
theorem evalVia_call (room : Nat) : evalVia call room = eval room := by
  -- The two are the same but for the evaluator that is handed on.
  induction room with
  | zero => rfl
  | succ room ih =>
    rw [evalVia, eval, ih]
    rfl

/-- Evaluation in a scope applies operators in the one way there is. -/
theorem evaluateVia_call : evaluateVia call = evaluate := by
  funext scope v
  simp only [evaluateVia, evaluate, evalVia_call]

/-- A way of applying operators in place follows one of applying them to values. -/
def Follow (proper : Prop) (caller : Caller) (caller' : Run.Caller) : Prop :=
  ∀ {mine store : CellId → Prop} {m : Machine} {w : World Value} {limit depth : Nat}
    {scope : ScopeId} {ev : Evaluator} {ev' : QLisp.Evaluator} {operator : Handle}
    {operator' : Value} {a : CellId} {ts : List Value} {ids ids' : List CellId},
    Simulates proper limit depth ev ev' → Mirrors proper mine store m w → Ready limit depth m scope →
    Holds m.heap (m.sound proper) operator operator' ids' → Arguments proper mine store m a ts ids →
    Free mine store m.heap (ids' ++ a :: ids) →
    Follows proper mine store m w (caller ev scope operator (.list .sexpr a))
      (caller' ev' scope operator' ts) (Yields proper mine)

variable {ev : Evaluator} {ev' : QLisp.Evaluator} {caller : Caller} {caller' : Run.Caller}

/-- Evaluating the next slot follows evaluating the next expression. -/
theorem follows_slot {t : Value} (sim : Simulates proper limit depth ev ev')
    (mirrors : Mirrors proper mine store m w)
    (ready : Ready limit depth m scope)
    (halfway : Halfway proper mine store m id span done rs ids rest (t :: ts) ids') :
    Follows proper mine store m w (do
        let result ← ev scope (← ListOp.slot span done.length)
        ListOp.put span done.length result)
      (ev' scope t) fun store' m' _ r => ∃ v rest' ids₁ ids₂,
        Halfway proper mine store' m' id span (done ++ [v]) (rs ++ [r]) ids₁ rest' ts ids₂ := by
  obtain ⟨items, slots, finished, waiting, free⟩ := halfway
  -- The expression is the first of those that wait.
  obtain ⟨v, vs, ids₃, ids₄, rfl, rfl, head, tail⟩ := waiting.eq_cons
  -- The next expression is in the slot behind those that are done.
  have inside : done.length < (m.heap.items id).length := by simp [items]
  have read : m.heap.slot span done.length = v := by
    rw [← slots, ListOp.slot_present inside, items]
    simp
  have loaded : ListOp.slot span done.length m.heap = .ok v m.heap := by
    rw [← read]
    rfl
  refine .congr ?_ (bind_ok (lift_ok loaded) _)
  -- The expression may change its own containers only.
  rw [List.append_assoc] at free
  have apart : ∀ c ∈ ids₄ ++ id :: ids, c ∉ ids₃ := fun c here there => free.disjoint there here
  have safe := Machine.not_only free.right.made apart
  have own : id ∈ ids₄ ++ id :: ids := List.mem_append_right _ List.mem_cons_self
  have wider := mirrors.only ids₃ free.left.mine
  show Follows proper mine store m w _ (ev' scope t >>= pure) _
  -- It is evaluated, and what it leaves is held apart from all others.
  refine (sim (mirrors.narrow ids₃) ready ⟨ids₃, head, free.left.only⟩).bindWithin wider
    fun store₁ m₁ u mirrors₁ moves ⟨ids₅, holds, free₅⟩ => ?_
  -- The container of the list was not changed, so it is found as it was.
  have there := moves.made (free.right.made id own)
  have whole : m₁.heap.container id = m.heap.container id :=
    moves.frame id (free.right.made id own) (safe id own)
  have items₁ : m₁.heap.items id = done ++ v :: vs := by rw [Heap.items, whole, ← items, Heap.items]
  have slots₁ : m₁.heap.span id = span := by rw [Heap.span, whole, ← slots, Heap.span]
  have inside₁ : done.length < (m₁.heap.items id).length := by simp [items₁]
  obtain ⟨items₂, slots₂, edits⟩ := ListOp.put_present there inside₁ u
  -- The result is put where the expression was, so the list holds as many as before.
  have free₁ : Free mine store₁ m₁.heap (ids₄ ++ id :: (ids ++ ids₅)) := by
    simpa using free.right.later apart free₅ (moves.free free.right) wider
  -- The container of the list is inside none of its elements.
  have outer : id ∉ ids₄ ++ (ids ++ ids₅) :=
    (List.nodup_cons.mp (free₁.perm List.perm_middle).once).1
  simp only [List.mem_append, not_or] at outer
  have finished₁ := moves.holdsAll finished (fun c member => free.right.made c (by simp [member]))
    fun c member => safe c (by simp [member])
  have tail₁ := moves.holdsAll tail (fun c member => free.right.made c (by simp [member]))
    fun c member => safe c (by simp [member])
  have ran : ListOp.put span done.length u m₁.heap = .ok () (m₁.heap.put span done.length u) := rfl
  rw [← slots₁] at ran ⊢
  -- The result is put where the expression was, and what is waiting has not changed.
  refine follows_lift ran mirrors₁ edits (fun c member => ?_) ⟨u, vs, ids ++ ids₅, ids₄, ?_⟩
  · obtain rfl := List.mem_singleton.mp member
    exact ⟨free₁.mine c (by simp), free₁.outside c (by simp)⟩
  · refine ⟨?_, slots₂, ?_, ?_, free₁.edit edits⟩
    · show (m₁.heap.put (m₁.heap.span id) done.length u).items id = done ++ [u] ++ vs
      rw [items₂, items₁]
      simp
    · have inner := free₁.right.sublist (List.sublist_cons_self id (ids ++ ids₅))
      refine (finished₁.append holds.single).edit edits inner.made ?_
      exact notMem_singleton (by simpa using outer.2)
    · exact tail₁.edit edits free₁.left.made (notMem_singleton outer.1)

/-- The first of some slots is evaluated before the others. -/
theorem evalSlots_succ (ev : Evaluator) (scope : ScopeId) (span : Span) (index count : Nat) :
    evalSlots ev scope span index (count + 1) = ((do
        let result ← ev scope (← ListOp.slot span index)
        ListOp.put span index result) >>= fun _ => evalSlots ev scope span (index + 1) count) := by
  simp only [evalSlots, bind_assoc]

/-- Evaluating the slots of a list in order follows evaluating its elements in order. -/
theorem follows_evalSlots (sim : Simulates proper limit depth ev ev')
    (mirrors : Mirrors proper mine store m w)
    (ready : Ready limit depth m scope)
    (halfway : Halfway proper mine store m id span done rs ids rest ts ids') :
    Follows proper mine store m w (evalSlots ev scope span done.length rest.length)
      (Run.each ev' scope ts) fun store' m' _ results => ∃ ids,
        Arguments proper mine store' m' id (rs ++ results) ids ∧ m'.heap.span id = span := by
  -- The induction is on the expressions that wait; one slot after the other is filled.
  induction ts generalizing store m w done rs ids rest ids' with
  | nil =>
    obtain ⟨items, slots, finished, waiting, free⟩ := halfway
    obtain ⟨rfl, rfl⟩ := waiting.eq_nil
    refine follows_pure mirrors ⟨ids, ⟨?_, free⟩, slots⟩
    rw [items, List.append_nil]
    simpa using finished
  | cons t ts ih =>
    rw [halfway.waiting.length_eq, List.length_cons, evalSlots_succ, Run.each, List.mapM_cons]
    refine (follows_slot sim mirrors ready halfway).bind fun store₁ m₁ _ mirrors₁ moves filled => ?_
    obtain ⟨v, rest', ids₁, ids₂, halfway₁⟩ := filled
    have count : ts.length = rest'.length := halfway₁.waiting.length_eq.symm
    have index : done.length + 1 = (done ++ [v]).length := by simp
    rw [count, index]
    refine (ih mirrors₁ (ready.move moves) halfway₁).mapRun fun store₂ m₂ _ results evaluated => ?_
    rw [List.append_assoc] at evaluated
    exact evaluated

/-- What the search for an error in slots has found among values. -/
def Found (all rest : List Value) : Option Nat → Prop
  | none => rest.find? (·.isError) = none
  | some index => ∃ t, rest.find? (·.isError) = some t ∧ all[index]? = some t

/-- The first slot with an error holds the first error among the values. -/
theorem findError?_run {h : Heap} {rule : HandleRule} (items : h.items id = done ++ rest)
    (holds : HoldsAll h rule rest ts ids) (all : List Value) (suffix : all.drop done.length = ts) :
    ∃ found, findError? (h.span id) done.length rest.length h = .ok found h ∧ Found all ts found := by
  -- The induction is on the slots that have not been looked at.
  induction rest generalizing done ts ids with
  | nil =>
    cases holds
    exact ⟨none, rfl, rfl⟩
  | cons v rest ih =>
    cases holds with
    | cons head tail =>
      rename_i t ts ids₁ ids₂
      have inside : done.length < (h.items id).length := by simp [items]
      have read : h.slot (h.span id) done.length = v := by
        rw [ListOp.slot_present inside, items]
        simp
      have step : findError? (h.span id) done.length (rest.length + 1) h =
          (if (h.slot (h.span id) done.length).isError then pure (some done.length)
            else findError? (h.span id) (done.length + 1) rest.length : ListOp (Option Nat)) h := rfl
      rw [List.length_cons, step, read]
      -- An error in this slot is the first one.
      by_cases failed : v.isError
      · have there : all[done.length]? = some t := by
          rw [← List.head?_drop, suffix]
          rfl
        refine ⟨some done.length, by rw [if_pos failed]; rfl, t, ?_, there⟩
        rw [List.find?_cons, ← head.isError, failed]
      · have shorter : all.drop (done ++ [v]).length = ts := by
          rw [List.length_append, ← List.drop_drop, suffix]
          rfl
        have next : h.items id = (done ++ [v]) ++ rest := by simpa using items
        obtain ⟨found, ran, result⟩ := ih next tail shorter
        rw [List.length_append] at ran
        refine ⟨found, by rw [if_neg failed]; exact ran, ?_⟩
        -- The value that is passed over is no error either.
        have passed : (t :: ts).find? (·.isError) = ts.find? (·.isError) := by
          rw [List.find?_cons, ← head.isError, Bool.eq_false_iff.mpr failed]
        cases found with
        | none => exact passed.trans result
        | some index =>
          obtain ⟨t', first, there⟩ := result
          exact ⟨t', passed.trans first, there⟩

/-- What is done with the evaluated elements of a list follows what is done with their values. -/
theorem follows_finish (calls : Follow proper caller caller')
    (sim : Simulates proper limit depth ev ev')
    (mirrors : Mirrors proper mine store m w)
    (ready : Ready limit depth m scope) : Arguments proper mine store m id rs ids →
    Follows proper mine store m w (do
        match ← findError? (m.heap.span id) 0 (m.heap.items id).length with
        | some index => ListOp.take (.list .sexpr id) index
        | none =>
          match ← ListOp.items id with
          | [] => return .list .sexpr id
          | [_] => do ev scope (← ListOp.take (.list .sexpr id) 0)
          | _ => do
            let operator ← ListOp.popFront (.list .sexpr id)
            caller ev scope operator (.list .sexpr id))
      (match rs.find? (·.isError) with
        | some failed => return failed
        | none =>
          match rs with
          | [] => return .unit
          | [v] => ev' scope v
          | operator :: arguments => caller' ev' scope operator arguments) (Yields proper mine) := by
  intro values
  have whole : m.heap.items id = [] ++ m.heap.items id := rfl
  obtain ⟨found, ran, result⟩ := findError?_run whole values.inside rs rfl
  refine .congr ?_ (bind_ok (lift_ok ran) _)
  cases found with
  | some index =>
    -- The first error is the result.
    obtain ⟨t, first, there⟩ := result
    rw [first]
    -- It is taken out of the list, which is given up.
    obtain ⟨v, h', taken, edits, yields⟩ := take_argument .sexpr values there
    exact follows_lift taken mirrors edits values.own yields
  | none =>
    rw [show rs.find? (·.isError) = none from result]
    have read : ListOp.items id m.heap = .ok (m.heap.items id) m.heap := rfl
    refine .congr ?_ (bind_ok (lift_ok read) _)
    have inside := values.inside
    -- With no error left, the number of values decides.
    rcases rs with _ | ⟨r, _ | ⟨r', rest⟩⟩
    · obtain ⟨none, _⟩ := inside.eq_nil
      rw [none]
      exact follows_pure mirrors (values.yields .sexpr)
    · -- A lone element leaves its list and is evaluated once more.
      obtain ⟨v, vs, _, _, single, _, _, tail⟩ := inside.eq_cons
      obtain ⟨rfl, _⟩ := tail.eq_nil
      rw [single]
      have there : [r][0]? = some r := rfl
      obtain ⟨u, h', taken, edits, yields⟩ := take_argument .sexpr values there
      refine .edit taken mirrors edits values.own fun mirrors => ?_
      exact sim mirrors ready.edit yields
    · -- The first of several elements is applied to the others.
      obtain ⟨v, vs, _, _, several, _, _, tail⟩ := inside.eq_cons
      obtain ⟨v', vs', _, _, rfl, _, _, _⟩ := tail.eq_cons
      rw [several]
      refine .pop mirrors values .sexpr fun u h' ids₁ ids₂ _ _ mirrors head remaining free => ?_
      exact calls sim mirrors ready.edit head remaining free

/-- Reducing a list inside its container follows reducing the list of its elements. -/
theorem follows_reduceVia (calls : Follow proper caller caller')
    (sim : Simulates proper limit depth ev ev')
    (mirrors : Mirrors proper mine store m w)
    (ready : Ready limit depth m scope) (list : Arguments proper mine store m id ts ids) :
    Follows proper mine store m w (reduceVia caller ev scope id)
      (Run.reduceVia caller' ev' scope ts)
      (Yields proper mine) := by
  have read : ListOp.span id m.heap = .ok (m.heap.span id) m.heap := rfl
  refine .congr ?_ (bind_ok (lift_ok read) _)
  have halfway : Halfway proper mine store m id (m.heap.span id) [] [] [] (m.heap.items id) ts ids :=
    ⟨rfl, rfl, .nil, list.inside, list.free.perm (List.perm_append_singleton id ids).symm⟩
  refine (follows_evalSlots sim mirrors ready halfway).bind
    fun store₁ m₁ _ mirrors₁ moves evaluated => ?_
  obtain ⟨ids₁, values, slots⟩ := evaluated
  -- The elements are still in the slots that were evaluated.
  rw [← slots]
  exact follows_finish calls sim mirrors₁ (ready.move moves) values

/-- A computation as one more reduction in progress follows what it does there. -/
theorem follows_nested {act : Act Handle} {run : Run Value}
    (inner : Follows proper mine store { m with depth := m.depth + 1 } w act run (Yields proper mine)) :
    Follows proper mine store m w (nested act) run (Yields proper mine) := by
  rcases inner with ⟨v, m', store', ran, mirrors, moves, yields⟩ | ⟨improper, fault, m', ran, ends⟩
  case inr => exact follows_fault improper (nested_error ran) ends
  have depth : m'.depth - 1 = m.depth := by
    rw [moves.depth]
    exact Nat.add_sub_cancel m.depth 1
  exact .inl ⟨v, { m' with depth := m'.depth - 1 }, store', nested_ok ran, mirrors.atDepth _,
    { moves with depth := depth }, yields⟩

/-- A handle is evaluated as its value is, when the list in a container is reduced as its elements. -/
theorem follows_evalWith {reduce : CellId → Act Handle} {reduce' : List Value → Run Value}
    (mirrors : Mirrors proper mine store m w) {v : Handle} {t : Value}
    (yields : Yields proper mine store m v t)
    (reduces : ∀ {id items ids}, Arguments proper mine store m id items ids →
      Follows proper mine store m w (guarded (reduce id)) (reduce' items) (Yields proper mine))
    (bare : ¬ proper →
      Follows proper mine store m w (guarded (pure (.bareList .sexpr))) (reduce' [])
        (Yields proper mine)) :
    Follows proper mine store m w (evalWith reduce scope v) (Run.evalWith reduce' scope t)
      (Yields proper mine) := by
  -- A value that stands for itself is given back on its own containers.
  have whole := yields
  obtain ⟨ids, holds, free⟩ := yields
  cases holds with
  | atom same =>
    cases v <;> simp only [Handle.atom?, Option.some.injEq, reduceCtorEq] at same <;> subst same
    case symbol name => exact follows_lookup mirrors scope name
    all_goals exact follows_pure mirrors whole
  | lambda => exact follows_pure mirrors whole
  | @list kind id items inner inside =>
    cases kind with
    | qexpr => exact follows_pure mirrors whole
    | sexpr => exact reduces ⟨inside, free⟩
  | @bareList kind improper =>
    cases kind with
    | qexpr => exact follows_pure mirrors whole
    | sexpr => exact bare improper

/-- Below the limit a list is reduced like its elements, with one more reduction in progress. -/
theorem simulates_evalWith (calls : Follow proper caller caller')
    (sim : Simulates proper limit (depth + 1) ev ev') (allowed : depth < limit) :
    Simulates proper limit depth (fun scope => evalWith (reduceVia caller ev scope) scope)
      (fun scope => Run.evalWith (Run.reduceVia caller' ev' scope) scope) := by
  intro mine store m w scope v t mirrors ready yields
  -- There is room, so the list is entered at one level more.
  have more : m.depth < m.world.limit := by rwa [ready.limit, ready.depth]
  have enters : ∀ {act : Act Handle} {run : Run Value},
      Follows proper mine store { m with depth := m.depth + 1 } w act run (Yields proper mine) →
      Follows proper mine store m w (guarded act) run (Yields proper mine) := fun inner =>
    (follows_nested inner).congr (guarded_allowed more)
  have deep := mirrors.atDepth (m.depth + 1)
  have deeper : Ready limit (depth + 1) { m with depth := m.depth + 1 } scope :=
    ⟨ready.made, ready.limit, congrArg (· + 1) ready.depth⟩
  refine follows_evalWith mirrors yields (fun list => enters ?_) fun improper => enters ?_
  · exact follows_reduceVia calls sim deep deeper ⟨list.inside, list.free⟩
  · -- A list without a container has nothing to reduce.
    have empty : Yields proper mine store { m with depth := m.depth + 1 } (.bareList .sexpr) .unit :=
      ⟨[], .bareList improper, .nil⟩
    exact follows_pure deep empty

/--
Evaluation in place follows evaluation of values.

The room for further reductions is what the limit leaves, so both give up at the same one.
-/
theorem simulates_evalVia (calls : Follow proper caller caller') {room : Nat}
    (left : limit - depth = room) :
    Simulates proper limit depth (evalVia caller room) (Run.evalVia caller' room) := by
  -- By induction on the room, which is used up when the limit is reached.
  induction room generalizing depth with
  | zero =>
    intro mine store m w scope v t mirrors ready yields
    -- Without room the machine has reached its limit.
    have full : m.world.limit ≤ m.depth := by
      rw [ready.limit, ready.depth]
      omega
    have stops : ∀ act : Act Handle, Follows proper mine store m w (guarded act)
        (do return .error (.tooDeep (← get).limit)) (Yields proper mine) := fun act => by
      refine .congr ?_ (guarded_run _)
      rw [if_pos full, mirrors.limit]
      exact follows_atom mirrors rfl
    exact follows_evalWith mirrors yields (fun _ => stops _) fun _ => stops _
  | succ room ih => exact simulates_evalWith calls (ih (by omega)) (by omega)

/-- Evaluation with no reduction in progress follows evaluation of values. -/
theorem simulates_evaluateVia (calls : Follow proper caller caller') :
    Simulates proper limit 0 (evaluateVia caller) (Run.evaluateVia caller') := by
  intro mine store m w scope v t mirrors ready yields
  -- Both have the whole limit as their room.
  have here : evaluateVia caller scope v m = evalVia caller limit scope v m := by
    show evalVia caller (m.world.limit - m.depth) scope v m = _
    rw [ready.limit, ready.depth, Nat.sub_zero]
  have there : Run.evaluateVia caller' scope t w = Run.evalVia caller' limit scope t w := by
    show Run.evalVia caller' w.limit scope t w = _
    rw [← mirrors.limit, ready.limit]
  have evaluated := simulates_evalVia calls (Nat.sub_zero limit) mirrors ready yields
  exact (evaluated.congr here).congrRun there

/-- Applying operators as they are applied in place follows applying them to values. -/
theorem follow_call : Follow proper call Run.call :=
  fun sim mirrors ready head remaining free => follows_call sim mirrors ready head remaining free

/-- Evaluation in place with the room that is left follows evaluation of values with that room. -/
theorem simulates_eval (limit depth : Nat) :
    Simulates proper limit depth (eval (limit - depth)) (Run.eval (limit - depth)) := by
  rw [← evalVia_call, ← Run.evalVia_call]
  exact simulates_evalVia follow_call rfl

/-- Evaluation in place follows evaluation of values, when both apply operators as they are. -/
theorem simulates_evaluate : Simulates proper limit 0 evaluate Run.evaluate := by
  rw [← evaluateVia_call, ← Run.evaluateVia_call]
  exact simulates_evaluateVia follow_call

end Act

end QLisp.Shared
