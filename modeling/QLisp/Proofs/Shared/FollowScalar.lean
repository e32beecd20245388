import QLisp.Proofs.Shared.FollowStore
import QLisp.Proofs.Shared.Glance

/-!
Operators that give an atom, applied in place, follow their results on values.

An operator owns the list of its arguments and everything in it, so it may take them apart and build
its result from the pieces.
-/

namespace QLisp.Shared

variable {proper : Prop} {mine mine' store store' : CellId → Prop} {m m' : Machine}
  {w : World Value} {a : CellId}
  {ts : List Value} {ids : List CellId}

/-- A list of arguments in a container, all on owned containers. -/
structure Arguments (proper : Prop) (mine store : CellId → Prop) (m : Machine) (a : CellId)
    (ts : List Value)
    (ids : List CellId) : Prop where
  /-- The elements stand for the arguments. -/
  inside : HoldsAll m.heap (m.sound proper) (m.heap.items a) ts ids
  /-- The container and those of the elements are owned. -/
  free : Free mine store m.heap (a :: ids)

namespace Arguments

/-- The container of the arguments has been made. -/
theorem made (arguments : Arguments proper mine store m a ts ids) : m.heap.Made a :=
  arguments.free.made a List.mem_cons_self

/-- The containers of the arguments themselves are owned. -/
theorem inner (arguments : Arguments proper mine store m a ts ids) : Free mine store m.heap ids :=
  arguments.free.sublist (List.sublist_cons_self a ids)

/-- The container of the arguments is changed by nobody else. -/
theorem own (arguments : Arguments proper mine store m a ts ids) :
    ∀ c ∈ [a], mine c ∧ ¬ store c := by
  intro c member
  have inside : c ∈ a :: ids := by simp_all
  exact ⟨arguments.free.mine c inside, arguments.free.outside c inside⟩

/-- There are as many elements as arguments. -/
theorem length (arguments : Arguments proper mine store m a ts ids) (kind : ListKind) :
    (m.heap.elements (.list kind a)).length = ts.length :=
  arguments.inside.length_eq

/-- Where there is an argument, the container has an element. -/
theorem exists_cons {t : Value} (arguments : Arguments proper mine store m a (t :: ts) ids) :
    ∃ v vs, m.heap.items a = v :: vs := by
  obtain ⟨v, vs, _, _, found, _⟩ := arguments.inside.eq_cons
  exact ⟨v, vs, found⟩

/-- Arguments stay what they are while other containers are changed. -/
theorem move (arguments : Arguments proper mine store m a ts ids)
    (moves : Moves mine' store m store' m')
    (other : ∀ c ∈ a :: ids, ¬ mine' c) : Arguments proper mine store' m' a ts ids := by
  have same : m'.heap.items a = m.heap.items a := by
    simp [Heap.items, moves.frame a arguments.made (other a List.mem_cons_self)]
  refine ⟨?_, moves.free arguments.free⟩
  rw [same]
  exact moves.holdsAll arguments.inside arguments.inner.made fun c member =>
    other c (List.mem_cons_of_mem _ member)

/-- Arguments stay what they are while containers elsewhere are edited. -/
theorem edit (arguments : Arguments proper mine store m a ts ids) {h' : Heap} {edited : List CellId}
    (edits : Edits edited m.heap h') (other : ∀ c ∈ a :: ids, c ∉ edited) :
    Arguments proper mine store { m with heap := h' } a ts ids := by
  have same : ∀ c ∈ a :: ids, h'.items c = m.heap.items c := fun c member =>
    edits.items (arguments.free.made c member) (other c member)
  refine ⟨?_, arguments.free.edit edits⟩
  show HoldsAll h' (m.sound proper) (h'.items a) ts ids
  rw [same a List.mem_cons_self]
  exact arguments.inside.transport (fun c member => same c (List.mem_cons_of_mem _ member))
    fun _ _ _ => id

end Arguments

/-- A list of owned arguments stands for the list of their values. -/
theorem Arguments.yields (arguments : Arguments proper mine store m a ts ids) (kind : ListKind) :
    Yields proper mine store m (.list kind a) (.list kind ts) :=
  ⟨a :: ids, .list arguments.inside, arguments.free⟩

/-- The first argument is taken off the list, and both are owned. -/
theorem Arguments.pop {t : Value} (arguments : Arguments proper mine store m a (t :: ts) ids)
    (kind : ListKind) : ∃ v h' ids₁ ids₂, ListOp.popFront (.list kind a) m.heap = .ok v h' ∧
      Edits [a] m.heap h' ∧ ids = ids₁ ++ ids₂ ∧ Holds h' (m.sound proper) v t ids₁ ∧
      Arguments proper mine store { m with heap := h' } a ts ids₂ ∧
      Free mine store h' (ids₁ ++ a :: ids₂) := by
  have owned := arguments.free
  obtain ⟨v, vs, ids₁, ids₂, found, rfl, head, tail⟩ := arguments.inside.eq_cons
  obtain ⟨h', ran, edits, items⟩ := ListOp.popFront_ok arguments.made found kind
  -- Only the container of the arguments is changed.
  have outer := (List.nodup_cons.mp owned.once).1
  have same : ∀ c ∈ ids₁ ++ ids₂, h'.items c = m.heap.items c := fun c member =>
    edits.items (owned.made c (List.mem_cons_of_mem _ member)) fun here =>
      outer (List.mem_singleton.mp here ▸ member)
  refine ⟨v, h', ids₁, ids₂, ran, edits, rfl, ?_, ⟨?_, ?_⟩, ?_⟩
  -- The first element leaves the list, and the others stay in it.
  · exact head.transport (fun c member => same c (by simp [member])) fun _ _ _ => id
  · show HoldsAll h' (m.sound proper) (h'.items a) ts ids₂
    rw [items]
    exact tail.transport (fun c member => same c (by simp [member])) fun _ _ _ => id
  · exact (owned.edit edits).sublist ((List.sublist_append_right ids₁ ids₂).cons_cons a)
  · exact (owned.edit edits).perm List.perm_middle.symm

namespace Act

/-- Taking the first argument off is a step that the run does not see. -/
theorem Follows.pop {t : Value} {β γ : Type} (mirrors : Mirrors proper mine store m w)
    (arguments : Arguments proper mine store m a (t :: ts) ids) (kind : ListKind)
    {next : Handle → Act β} {run : Run γ} {good : (CellId → Prop) → Machine → β → γ → Prop}
    (later : ∀ v h' ids₁ ids₂, ids = ids₁ ++ ids₂ → Edits [a] m.heap h' →
      Mirrors proper mine store { m with heap := h' } w → Holds h' (m.sound proper) v t ids₁ →
      Arguments proper mine store { m with heap := h' } a ts ids₂ →
      Free mine store h' (ids₁ ++ a :: ids₂) →
      Follows proper mine store { m with heap := h' } w (next v) run good) :
    Follows proper mine store m w (liftM (ListOp.popFront (.list kind a)) >>= next) run good := by
  obtain ⟨v, h', ids₁, ids₂, ran, edits, split, head, remaining, free⟩ := arguments.pop kind
  exact .edit ran mirrors edits arguments.own fun mirrors =>
    later v h' ids₁ ids₂ split edits mirrors head remaining free

variable {kind : ListKind} (p : Primitive)

/-- A requirement on the number of arguments is the same on handles and on values. -/
theorem follows_count (mirrors : Mirrors proper mine store m w)
    (arguments : Arguments proper mine store m a ts ids) (count : Nat) {next : Unit → Act Handle}
    {run : Run Value}
    (wrong : ts.length ≠ count → run = pure (.error (.wrongCount p.name count ts.length)))
    (right : ts.length = count → Follows proper mine store m w (next ()) run (Yields proper mine)) :
    Follows proper mine store m w (do
      orFail (expectCount p.name count (← ListOp.elements (.list kind a)).length) next) run
      (Yields proper mine) := by
  refine .congr ?_ (elements_bind _ _)
  rw [arguments.length kind]
  by_cases same : ts.length = count
  · rw [expectCount, if_pos same]
    exact right same
  · rw [expectCount, if_neg same, wrong same]
    exact follows_atom mirrors rfl

/-- One argument is required. -/
theorem onOne_of_ne {f : Value → Except Failure Value} {ts : List Value} (wrong : ts.length ≠ 1) :
    p.onOne f ts = .error (.wrongCount p.name 1 ts.length) := by
  rcases ts with _ | ⟨t, _ | ⟨t', rest⟩⟩
  · rfl
  · exact absurd rfl wrong
  · rfl

/-- An operation on the only argument follows one on its value. -/
theorem follows_onOne (mirrors : Mirrors proper mine store m w)
    (arguments : Arguments proper mine store m a ts ids) {f : Handle → Act Handle}
    {g : Value → Run Value}
    (safe : ∀ v t, Holds m.heap (m.sound proper) v t ids → Free mine store m.heap ids →
      Follows proper mine store m w (f v) (g t) (Yields proper mine)) :
    Follows proper mine store m w (onOne p (.list kind a) f) (Run.orFail (p.onOne .ok ts) g)
      (Yields proper mine) := by
  -- With another number of arguments both fail, with the same number in the failure.
  refine follows_count p mirrors arguments 1 (fun wrong => ?_) fun one => ?_
  · rw [onOne_of_ne p wrong]
    rfl
  · obtain ⟨t, rfl⟩ := List.length_eq_one_iff.mp one
    obtain ⟨v, vs, ids₁, ids₂, found, rfl, head, tail⟩ := arguments.inside.eq_cons
    obtain ⟨rfl, rfl⟩ := tail.eq_nil
    have read : ListOp.element (.list kind a) 0 m.heap = .ok v m.heap :=
      ListOp.element_ok (show (m.heap.items a)[0]? = some v by simp [found])
    refine .congr ?_ (bind_ok (lift_ok read) _)
    exact safe v t (by simpa using head) arguments.inner

/-- Two arguments are required. -/
theorem onTwo_of_ne {f : Value → Value → Except Failure Value} {ts : List Value}
    (wrong : ts.length ≠ 2) : p.onTwo f ts = .error (.wrongCount p.name 2 ts.length) := by
  rcases ts with _ | ⟨t, _ | ⟨t', _ | ⟨t'', rest⟩⟩⟩
  · rfl
  · rfl
  · exact absurd rfl wrong
  · rfl

/-- An operation on two arguments follows one on their values. -/
theorem follows_onTwo (mirrors : Mirrors proper mine store m w)
    (arguments : Arguments proper mine store m a ts ids) {f : Handle → Handle → Act Handle}
    {g : Value → Value → Except Failure Value}
    (safe : ∀ v v' t t' ids₁ ids₂, Holds m.heap (m.sound proper) v t ids₁ →
      Holds m.heap (m.sound proper) v' t' ids₂ →
      Free mine store m.heap (ids₁ ++ ids₂) →
      Follows proper mine store m w (f v v') (pure (.ofExcept (g t t'))) (Yields proper mine)) :
    Follows proper mine store m w (onTwo p (.list kind a) f) (pure (.ofExcept (p.onTwo g ts)))
      (Yields proper mine) := by
  -- The same for two arguments, which are read at their indices.
  refine follows_count p mirrors arguments 2 (fun wrong => ?_) fun two => ?_
  · rw [onTwo_of_ne p wrong]
    rfl
  · rcases ts with _ | ⟨t, _ | ⟨t', _ | ⟨t'', rest⟩⟩⟩ <;> simp at two
    obtain ⟨v, vs, ids₁, ids₂, found, rfl, head, tail⟩ := arguments.inside.eq_cons
    obtain ⟨v', vs', ids₃, ids₄, rfl, rfl, head', tail'⟩ := tail.eq_cons
    obtain ⟨rfl, rfl⟩ := tail'.eq_nil
    have read : ListOp.element (.list kind a) 0 m.heap = .ok v m.heap :=
      ListOp.element_ok (show (m.heap.items a)[0]? = some v by simp [found])
    have read' : ListOp.element (.list kind a) 1 m.heap = .ok v' m.heap :=
      ListOp.element_ok (show (m.heap.items a)[1]? = some v' by simp [found])
    refine .congr ?_ (bind_ok (lift_ok read) _)
    refine .congr (m := m) ?_ (bind_ok (lift_ok read') _)
    exact safe v v' t t' ids₁ ids₃ head head' (by simpa using arguments.inner)

/-- An operation on the only argument follows one whose result depends on its value alone. -/
theorem follows_onOne_pure (mirrors : Mirrors proper mine store m w)
    (arguments : Arguments proper mine store m a ts ids) {f : Handle → Act Handle}
    {g : Value → Except Failure Value}
    (safe : ∀ v t, Holds m.heap (m.sound proper) v t ids → Free mine store m.heap ids →
      Follows proper mine store m w (f v) (pure (.ofExcept (g t))) (Yields proper mine)) :
    Follows proper mine store m w (onOne p (.list kind a) f) (pure (.ofExcept (p.onOne g ts)))
      (Yields proper mine) := by
  -- Taking the argument first and working on its value afterwards is the same.
  have split : (pure (.ofExcept (p.onOne g ts)) : Run Value) =
      Run.orFail (p.onOne .ok ts) fun t => pure (.ofExcept (g t)) := by
    rcases ts with _ | ⟨t, _ | ⟨t', rest⟩⟩ <;> rfl
  rw [split]
  exact follows_onOne p mirrors arguments safe

/-- A result that is changed by a function follows the changed value. -/
theorem follows_map {α : Type} (mirrors : Mirrors proper mine store m w) {result : Except Failure α}
    {next : α → Act Handle} {f : α → Value}
    (safe : ∀ a, result = .ok a →
      Follows proper mine store m w (next a) (pure (f a)) (Yields proper mine)) :
    Follows proper mine store m w (orFail result next) (pure (.ofExcept (result.map f)))
      (Yields proper mine) := by
  cases result with
  | ok a => exact safe a rfl
  | error failure => exact follows_atom mirrors rfl

/-- A requirement of at least one argument is the same on handles and on values. -/
theorem follows_some (mirrors : Mirrors proper mine store m w)
    (arguments : Arguments proper mine store m a ts ids) {next : Act Handle}
    {f : Except Failure Value}
    (safe : ts ≠ [] → Follows proper mine store m w next (pure (.ofExcept f)) (Yields proper mine)) :
    Follows proper mine store m w
      (orFail (expectSome p.name (m.heap.elements (.list kind a)).length) fun _ => next)
      (pure (.ofExcept (expectSome p.name ts.length >>= fun _ => f))) (Yields proper mine) := by
  rw [arguments.length kind]
  refine follows_check mirrors fun _ checked => safe ?_
  rintro rfl
  simp [expectSome] at checked

/-- Arithmetic steps on handles never fault: a divisor of zero is noticed first. -/
theorem combine_run (x y : Number) : combine p x y m = .ok (p.combine x y) m := by
  -- Only the remainder has a divisor to be looked at here.
  cases p with
  | rem =>
    simp only [combine, Primitive.combine]
    by_cases zero : y.truncate = 0
    · rw [if_pos zero, if_pos zero]
      rfl
    · rw [if_neg zero, if_neg zero, remainder, if_neg zero]
      rfl
  | _ => rfl

/-- Arithmetic steps in order are those of a fold that may fail. -/
theorem combineAll_run (operands : List Number) :
    ∀ x, combineAll p x operands m = .ok (operands.foldlM p.combine x) m := by
  -- The induction is on the operands; a failure ends both sides.
  induction operands with
  | nil => exact fun _ => rfl
  | cons y rest ih =>
    intro x
    rw [combineAll, bind_ok (combine_run p x y)]
    rw [List.foldlM_cons]
    cases p.combine x y with
    | ok z => exact ih z
    | error failure => rfl

/-- Only a number stands for a number. -/
theorem eq_number {h : Heap} {rule : HandleRule} {v : Handle} {x : Number} {ids : List CellId}
    (holds : Holds h rule v (.number x) ids) : v = .number x := by
  cases holds with
  | atom same => cases v <;> simp_all [Handle.atom?]

/-- What is done to each element in order succeeds when it does on the first and on the others. -/
theorem mapM_cons_ok {α β : Type} {f : α → Except Failure β} {a : α} {rest : List α}
    {results : List β} (ran : (a :: rest).mapM f = .ok results) :
    ∃ b bs, f a = .ok b ∧ rest.mapM f = .ok bs ∧ results = b :: bs := by
  -- The first success is that of the first element.
  rw [List.mapM_cons] at ran
  cases first : f a with
  | error failure =>
    rw [first] at ran
    cases ran
  | ok b =>
    -- Where the others fail, the whole does.
    cases others : rest.mapM f with
    | error failure =>
      rw [first, others] at ran
      cases ran
    | ok bs =>
      rw [first, others] at ran
      cases ran
      exact ⟨b, bs, rfl, rfl, rfl⟩

/-- Operands are checked one by one, and only numbers pass. -/
theorem operands_cons {t : Value} {rest : List Value} {operands : List Number}
    (checked : (t :: rest).mapM p.operand = .ok operands) :
    ∃ x xs, t = .number x ∧ rest.mapM p.operand = .ok xs ∧ operands = x :: xs := by
  obtain ⟨x, xs, number, others, rfl⟩ := mapM_cons_ok checked
  cases t with
  | number y =>
    cases number
    exact ⟨x, xs, rfl, others, rfl⟩
  | _ => cases number

/-- Handles on operands are numbers. -/
theorem eq_numbers {h : Heap} {rule : HandleRule} {vs : List Handle} {ts : List Value}
    {ids : List CellId} (holds : HoldsAll h rule vs ts ids) {operands : List Number}
    (checked : ts.mapM p.operand = .ok operands) : vs.map (·.numeral) = operands := by
  -- By induction on the operands, each of which is a number.
  induction ts generalizing vs ids operands with
  | nil =>
    obtain ⟨rfl, _⟩ := holds.eq_nil
    cases checked
    rfl
  | cons t ts ih =>
    obtain ⟨v, us, ids₁, ids₂, rfl, _, head, tail⟩ := holds.eq_cons
    obtain ⟨x, xs, rfl, others, rfl⟩ := operands_cons p checked
    rw [List.map_cons, ih tail others, eq_number head]
    rfl

/-- The result of an arithmetic operation on operands that have been checked. -/
def folded : List Number → Except Failure Value
  | [] => .ok (.number .zero)
  | x :: xs =>
    if p = .sub && xs.isEmpty then .ok (.number x.neg) else (xs.foldlM p.combine x).map .number

/-- Arithmetic checks its operands and then folds them. -/
theorem arithmetic_eq (ts : List Value) :
    p.arithmetic ts = (expectSome p.name ts.length >>= fun _ =>
      ts.mapM p.operand >>= fun operands => folded p operands) := by
  simp only [Primitive.arithmetic]
  congr 1
  funext _
  congr 1
  funext operands
  -- Only the difference treats a lone operand in its own way.
  rcases operands with _ | ⟨x, xs⟩
  · cases p <;> rfl
  · cases p with
    | sub => cases xs <;> rfl
    | _ => rfl

/-- Arithmetic on handles follows arithmetic on values. -/
theorem follows_arithmetic (mirrors : Mirrors proper mine store m w)
    (arguments : Arguments proper mine store m a ts ids) :
    Follows proper mine store m w (arithmetic p (.list kind a)) (pure (.ofExcept (p.arithmetic ts)))
      (Yields proper mine) := by
  rw [arithmetic_eq]
  refine .congr (follows_some p mirrors arguments fun present => ?_) (elements_bind _ _)
  refine .congr ?_ (glances_bind _ _)
  -- The operands are looked at before the first one is taken off.
  rw [Heap.elements_list, arguments.inside.mapM_glance p.operand_glanced]
  refine follows_check mirrors fun operands checked => ?_
  obtain ⟨t, rest, rfl⟩ := List.exists_cons_of_ne_nil present
  obtain ⟨x, xs, rfl, others, rfl⟩ := operands_cons p checked
  refine .pop mirrors arguments kind fun v h' _ _ _ _ mirrors head remaining _ => ?_
  refine .congr ?_ (elements_bind _ _)
  -- The handles that are left are the operands that are left.
  have numerals : (h'.items a).map (·.numeral) = xs := eq_numbers p remaining.inside others
  have empty : (h'.items a).isEmpty = xs.isEmpty := by
    rw [← numerals, List.isEmpty_map]
  simp only [Heap.elements_list, eq_number head, numerals, empty, folded]
  -- A lone operand is negated by a subtraction, and otherwise they are combined.
  split
  · exact follows_atom mirrors rfl
  · refine .congr ?_ (bind_ok (combineAll_run p xs x) _)
    exact follows_map mirrors fun _ _ => follows_atom mirrors rfl

/-- Comparing two handles by their order follows comparing their values. -/
theorem follows_compareOrder (mirrors : Mirrors proper mine store m w) {v v' : Handle}
    {t t' : Value}
    {ids' : List CellId} (left : Holds m.heap (m.sound proper) v t ids)
    (right : Holds m.heap (m.sound proper) v' t' ids') :
    Follows proper mine store m w (compareOrder p v v')
      (pure (.ofExcept ((p.comparison t t').map fun o => .bool (p.holds o)))) (Yields proper mine) := by
  refine .congr ?_ (glance_bind _ _)
  refine .congr (m := m) ?_ (glance_bind _ _)
  rw [left.glance, right.glance, p.comparison_glanced]
  exact follows_map mirrors fun _ _ => follows_atom mirrors rfl

/-- Joining conditions of handles follows joining those of their values. -/
theorem follows_connective (mirrors : Mirrors proper mine store m w)
    (arguments : Arguments proper mine store m a ts ids) (join : List Bool → Bool) :
    Follows proper mine store m w (connective p join (.list kind a))
      (pure (.ofExcept (p.connective join ts))) (Yields proper mine) := by
  refine .congr (follows_some p mirrors arguments fun _ => ?_) (elements_bind _ _)
  refine .congr ?_ (glances_bind _ _)
  rw [Heap.elements_list, arguments.inside.mapM_glance p.condition_glanced]
  exact follows_check mirrors fun _ _ => follows_atom mirrors rfl

/-- Negating the condition of a handle follows negating that of its value. -/
theorem follows_negation (mirrors : Mirrors proper mine store m w) {v : Handle} {t : Value}
    (holds : Holds m.heap (m.sound proper) v t ids) :
    Follows proper mine store m w (do orFail (p.condition (← ListOp.glance v)) fun truth =>
      return .bool (!truth)) (pure (.ofExcept ((p.condition t).map fun b => .bool (!b))))
      (Yields proper mine) := by
  refine .congr ?_ (glance_bind _ _)
  rw [holds.glance, p.condition_glanced]
  exact follows_map mirrors fun _ _ => follows_atom mirrors rfl

/-- Raising a failure with the message of a handle follows raising one with that of its value. -/
theorem follows_raise (mirrors : Mirrors proper mine store m w) {v : Handle} {t : Value} :
    Holds m.heap (m.sound proper) v t ids →
    Follows proper mine store m w (raise p v) (pure (.ofExcept (match t with
      | .string message => .ok (.error (.raised message))
      | t => .error (.wrongType p.name .string t.kind)))) (Yields proper mine) := by
  intro holds
  cases holds with
  | atom same =>
    cases v <;> simp only [Handle.atom?, Option.some.injEq, reduceCtorEq] at same <;>
      subst same <;> exact follows_atom mirrors rfl
  | _ => exact follows_atom mirrors rfl

/-- Comparing two handles on owned containers follows comparing their values. -/
theorem follows_same (mirrors : Mirrors proper mine store m w) {v v' : Handle} {t t' : Value}
    {ids' : List CellId} (left : Holds m.heap (m.sound proper) v t ids)
    (right : Holds m.heap (m.sound proper) v' t' ids') (free : Free mine store m.heap ids)
    (decide : Bool → Bool) :
    Follows proper mine store m w (do return .bool (decide (← ListOp.same v v')))
      (pure (.bool (decide (t.same t')))) (Yields proper mine) := by
  refine .congr ?_ (same_bind _ _ _)
  rw [left.same right free.once free.made]
  exact follows_atom mirrors rfl

end Act

end QLisp.Shared
