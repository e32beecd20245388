import QLisp.Proofs.Shared.IsolatingStore

/-! Applying the operators that evaluate nothing keeps bindings isolated. -/

namespace QLisp.Shared.Act

variable {may : ScopeId → Prop} {kept : CellId → Prop} {m : Machine} {α : Type}

/-- A handle that names nothing is loose. -/
theorem loose_of_plain {v : Handle} (cells : v.cells = []) (scopes : v.scopes = []) :
    Loose kept m v :=
  outside_of_plain cells scopes

/-- Going on with a result or ending with a failure is isolating when going on is. -/
theorem isolating_orFail (isolated : Isolated kept m) {result : Except Failure α}
    {next : α → Act Handle} (safe : ∀ a, result = .ok a → Isolating may kept m (next a) Loose) :
    Isolating may kept m (orFail result next) Loose := by
  cases result with
  | ok a => exact safe a rfl
  | error failure => exact isolating_pure isolated (loose_of_plain rfl rfl)

/-- An operation on the only argument is isolating when it is on a loose handle. -/
theorem isolating_onOne (isolated : Isolated kept m) {p : Primitive} {arguments : Handle}
    (loose : Loose kept m arguments) {f : Handle → Act Handle}
    (safe : ∀ kept' m' v, Step may kept m kept' m' → Loose kept' m' v →
      Isolating may kept' m' (f v) Loose) :
    Isolating may kept m (onOne p arguments f) Loose := by
  refine .congr (isolating_orFail isolated fun _ _ => ?_) (elements_bind _ _)
  exact (isolating_lift_loose isolated (ListOp.harmless_element isolated.apart loose 0)).bind safe

/-- An operation on two arguments is isolating when it is on loose handles. -/
theorem isolating_onTwo (isolated : Isolated kept m) {p : Primitive} {arguments : Handle}
    (loose : Loose kept m arguments) {f : Handle → Handle → Act Handle}
    (safe : ∀ kept' m' v v', Step may kept m kept' m' → Loose kept' m' v → Loose kept' m' v' →
      Isolating may kept' m' (f v v') Loose) :
    Isolating may kept m (onTwo p arguments f) Loose := by
  refine .congr (isolating_orFail isolated fun _ _ => ?_) (elements_bind _ _)
  refine (isolating_lift_loose isolated (ListOp.harmless_element isolated.apart loose 0)).bind
    fun _ _ first step out => ?_
  -- Both arguments are read at their indices and stay where they are.
  refine (isolating_lift_loose step.isolated
    (ListOp.harmless_element step.isolated.apart (loose.step step) 1)).bind
    fun _ _ second step' out' => ?_
  exact safe _ _ first second (step.trans step' fun _ allowed _ => .inl allowed) (out.step step')
    out'

/-- An arithmetic step is isolating. -/
theorem isolating_combine (isolated : Isolated kept m) (p : Primitive) (x y : Number) :
    Isolating may kept m (combine p x y) fun _ _ _ => True := by
  cases p with
  | rem =>
    simp only [combine]
    -- A divisor of zero is noticed before the remainder is taken.
    split
    · exact isolating_pure isolated trivial
    · rename_i nonzero
      simp only [remainder, if_neg nonzero]
      exact isolating_pure isolated trivial
  | _ => exact isolating_pure isolated trivial

/-- Arithmetic steps are isolating. -/
theorem isolating_combineAll (p : Primitive) (operands : List Number) :
    ∀ {kept : CellId → Prop} {m : Machine} (x : Number), Isolated kept m →
      Isolating may kept m (combineAll p x operands) fun _ _ _ => True := by
  -- The induction is on the operands.
  induction operands with
  | nil => exact fun _ isolated => isolating_pure isolated trivial
  | cons y rest ih =>
    intro kept m x isolated
    refine (isolating_combine isolated p x y).bind fun _ _ result step _ => ?_
    cases result with
    | ok z => exact ih z step.isolated
    | error failure => exact isolating_pure step.isolated trivial

/-- Arithmetic is isolating. -/
theorem isolating_arithmetic (isolated : Isolated kept m) (p : Primitive) {arguments : Handle}
    (loose : Loose kept m arguments) : Isolating may kept m (arithmetic p arguments) Loose := by
  refine .congr (isolating_orFail isolated fun _ _ => ?_) (elements_bind _ _)
  refine .congr (isolating_orFail isolated fun _ _ => ?_) (glances_bind _ _)
  refine (isolating_lift_loose isolated (ListOp.harmless_popFront isolated.apart loose)).bind
    fun kept' m' first step _ => ?_
  refine .congr (m := m') ?_ (elements_bind _ _)
  -- A lone operand is negated, and otherwise the operands are combined in order.
  split
  · exact isolating_pure step.isolated (loose_of_plain rfl rfl)
  · refine (isolating_combineAll p _ _ step.isolated).bind fun _ _ result step' _ => ?_
    exact isolating_orFail step'.isolated fun _ _ =>
      isolating_pure step'.isolated (loose_of_plain rfl rfl)

/-- Comparing two arguments by their order is isolating. -/
theorem isolating_compareOrder (isolated : Isolated kept m) (p : Primitive) (v v' : Handle) :
    Isolating may kept m (compareOrder p v v') Loose :=
  isolating_orFail isolated fun _ _ => isolating_pure isolated (loose_of_plain rfl rfl)

/-- Joining conditions is isolating. -/
theorem isolating_connective (isolated : Isolated kept m) (p : Primitive)
    (join : List Bool → Bool) (arguments : Handle) :
    Isolating may kept m (connective p join arguments) Loose := by
  refine .congr (isolating_orFail isolated fun _ _ => ?_) (elements_bind _ _)
  exact .congr (isolating_orFail isolated fun _ _ =>
    isolating_pure isolated (loose_of_plain rfl rfl)) (glances_bind _ _)

/-- Raising a failure is isolating. -/
theorem isolating_raise (isolated : Isolated kept m) (p : Primitive) (v : Handle) :
    Isolating may kept m (raise p v) Loose := by
  cases v <;> exact isolating_pure isolated (loose_of_plain rfl rfl)

/-- Working in place on the only argument is isolating when the work is harmless. -/
theorem isolating_onItems (isolated : Isolated kept m) (p : Primitive) {arguments : Handle}
    (loose : Loose kept m arguments) {op : Handle → ListOp Handle}
    (safe : ∀ {kept : CellId → Prop} {known : ScopeId → Prop} {h : Heap} {v : Handle},
      Apart kept known h → Outside kept known h v →
      ListOp.Harmless kept known (op v) h fun h' w => Outside kept known h' w) :
    Isolating may kept m (onItems p op arguments) Loose := by
  refine isolating_onOne isolated loose fun kept' m' v step out => ?_
  obtain ⟨checked, ran⟩ := expectItems_reads p v
  refine .congr ?_ (bind_ok (lift_ok ran) _)
  refine isolating_orFail step.isolated fun _ _ => ?_
  refine (isolating_lift_loose step.isolated (safe step.isolated.apart out)).bind
    fun _ _ _ step' _ => isolating_pure step'.isolated (out.step step')

/-- Concatenating lists is isolating. -/
theorem isolating_concatenate (isolated : Isolated kept m) (p : Primitive) {arguments : Handle}
    (loose : Loose kept m arguments) : Isolating may kept m (concatenate p arguments) Loose := by
  refine .congr (isolating_orFail isolated fun _ _ => ?_) (elements_bind _ _)
  -- The arguments are checked before the first of them is changed.
  refine (isolating_lift isolated (harmless_expectAll isolated.apart
    (expectItems_reads p) _)).bind fun _ _ _ step _ => ?_
  refine isolating_orFail step.isolated fun _ _ => ?_
  refine (isolating_lift_loose step.isolated
    (ListOp.harmless_popFront step.isolated.apart (loose.step step))).bind
    fun _ _ first step' out => ?_
  exact isolating_lift_loose step'.isolated (harmless_joinAll _ step'.isolated.apart
    ((loose.step step).step step') out)

/-- Putting an argument in front of another is isolating. -/
theorem isolating_putInFront (isolated : Isolated kept m) (p : Primitive) {arguments : Handle}
    (loose : Loose kept m arguments) : Isolating may kept m (putInFront p arguments) Loose := by
  refine .congr (isolating_orFail isolated fun _ _ => ?_) (elements_bind _ _)
  -- Both are taken off the list before one is put in front of the other.
  refine (isolating_lift_loose isolated (ListOp.harmless_popFront isolated.apart loose)).bind
    fun _ _ v step out => ?_
  refine (isolating_lift_loose step.isolated
    (ListOp.harmless_popFront step.isolated.apart (loose.step step))).bind
    fun _ _ list step' out' => ?_
  exact isolating_orFail step'.isolated fun _ _ => isolating_lift_loose step'.isolated
    (ListOp.harmless_pushFront step'.isolated.apart out' (out.step step'))

/-- Binding names to arguments is isolating when each binding is. -/
theorem isolating_bindFrom {put : String → Handle → Act Unit} {arguments : Handle}
    (names : List String) :
    ∀ {kept : CellId → Prop} {m : Machine} (index : Nat), Isolated kept m →
      Loose kept m arguments →
      (∀ kept' m' name v, Step may kept m kept' m' → Loose kept' m' v →
        Isolating may kept' m' (put name v) fun _ _ _ => True) →
      Isolating may kept m (bindFrom put arguments index names) fun _ _ _ => True := by
  -- Each name takes the argument at the next index.
  induction names with
  | nil => exact fun _ isolated _ _ => isolating_pure isolated trivial
  | cons name rest ih =>
    intro kept m index isolated loose safe
    refine (isolating_lift_loose isolated
      (ListOp.harmless_element isolated.apart loose index)).bind fun kept₁ m₁ v step out => ?_
    refine (safe kept₁ m₁ name v step out).bind fun kept₂ m₂ _ step' _ => ?_
    have both := step.trans step' fun _ allowed _ => .inl allowed
    exact ih (index + 1) both.isolated (loose.step both) fun kept' m' name v later =>
      safe kept' m' name v (both.trans later fun _ allowed _ => .inl allowed)

/-- Binding the names of the first argument is isolating when each binding is. -/
theorem isolating_bindNames (isolated : Isolated kept m) {put : String → Handle → Act Unit}
    (p : Primitive) {arguments : Handle} (loose : Loose kept m arguments)
    (safe : ∀ kept' m' name v, Step may kept m kept' m' → Loose kept' m' v →
      Isolating may kept' m' (put name v) fun _ _ _ => True) :
    Isolating may kept m (bindNames put p arguments) Loose := by
  refine .congr (isolating_orFail isolated fun _ _ => ?_) (elements_bind _ _)
  -- The first argument is taken off, and read as the list of names.
  refine (isolating_lift_loose isolated (ListOp.harmless_popFront isolated.apart loose)).bind
    fun kept' m' names step _ => ?_
  refine .congr (isolating_orFail step.isolated fun names _ => ?_) (glance_bind _ _)
  refine .congr (m := m') ?_ (elements_bind _ _)
  -- The numbers of names and of values have to be the same.
  split
  · refine (isolating_bindFrom names 0 step.isolated (loose.step step)
      fun kept'' m'' name v later => safe kept'' m'' name v
        (step.trans later fun _ allowed _ => .inl allowed)).bind fun _ _ _ step' _ => ?_
    exact isolating_unit step'.isolated
  · exact isolating_pure step.isolated (loose_of_plain rfl rfl)

/-- Making a function is isolating. -/
theorem isolating_makeLambda (isolated : Isolated kept m) {scope : ScopeId}
    (made : m.world.scopes.Made scope) (p : Primitive) {arguments : Handle}
    (loose : Loose kept m arguments) :
    Isolating may kept m (makeLambda scope p arguments) Loose := by
  refine .congr (isolating_orFail isolated fun _ _ => ?_) (elements_bind _ _)
  refine (isolating_lift_loose isolated (ListOp.harmless_popFront isolated.apart loose)).bind
    fun _ _ formals step formal => ?_
  refine (isolating_lift_loose step.isolated
    (ListOp.harmless_popFront step.isolated.apart (loose.step step))).bind
    fun _ m' body step' bodied => ?_
  refine .congr (isolating_orFail step'.isolated fun _ _ => ?_) (glance_bind _ _)
  refine isolating_orFail step'.isolated fun _ _ => isolating_pure step'.isolated ?_
  refine outside_lambda.mpr ⟨formal.step step', bodied, fun s member => ?_⟩
  cases member
  exact step'.made (step.made made)

/-- Printing is isolating. -/
theorem isolating_print (isolated : Isolated kept m) (arguments : Handle) :
    Isolating may kept m (print arguments) Loose := by
  refine .congr ?_ (elements_bind _ _)
  refine (isolating_views isolated _).bind fun _ _ _ step _ => ?_
  exact (isolating_inWorld step.isolated rfl).bind fun _ _ _ step' _ => isolating_unit step'.isolated

/-- Giving the last argument is isolating. -/
theorem isolating_lastOf (isolated : Isolated kept m) {arguments : Handle}
    (loose : Loose kept m arguments) : Isolating may kept m (lastOf arguments) Loose := by
  refine .congr ?_ (elements_bind _ _)
  split
  · exact isolating_unit isolated
  · exact isolating_lift_loose isolated (ListOp.harmless_take isolated.apart loose _)

end QLisp.Shared.Act
