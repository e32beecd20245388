import QLisp.Proofs.Formals
import QLisp.Proofs.Shared.IsolatingApply

/-!
Evaluating handles keeps bindings isolated.

Whatever shares containers outside the bindings, an evaluation writes only in its own scope, in
outermost scopes and in scopes that it makes.
-/

namespace QLisp.Shared.Act

variable {may : ScopeId → Prop} {kept : CellId → Prop} {m : Machine} {ev : Evaluator}
  {scope : ScopeId}

/-- Evaluating a loose handle is isolating, with its scope the only one it may write in. -/
def IsolatingEvaluator (ev : Evaluator) : Prop :=
  ∀ kept m scope v, Isolated kept m → m.world.scopes.Made scope → Loose kept m v →
    Isolating (· = scope) kept m (ev scope v) Loose

/-- Evaluating the list in the container of a loose handle is isolating. -/
theorem isolating_evalRetagged (safe : IsolatingEvaluator ev) (isolated : Isolated kept m)
    (made : m.world.scopes.Made scope) {v : Handle} (loose : Loose kept m v) :
    Isolating (· = scope) kept m (do ev scope (← ListOp.retag .sexpr v)) Loose :=
  (isolating_lift_loose isolated (ListOp.harmless_retag isolated.apart loose .sexpr)).bind
    fun _ _ w step out => safe _ _ scope w step.isolated (step.made made) out

/-- Evaluating the only argument is isolating. -/
theorem isolating_evaluateOne (safe : IsolatingEvaluator ev) (isolated : Isolated kept m)
    (made : m.world.scopes.Made scope) (p : Primitive) {arguments : Handle}
    (loose : Loose kept m arguments) :
    Isolating (· = scope) kept m (evaluateOne ev scope p arguments) Loose := by
  refine .congr (isolating_orFail isolated fun _ _ => ?_) (elements_bind _ _)
  refine (isolating_lift_loose isolated (ListOp.harmless_popFront isolated.apart loose)).bind
    fun kept' m' v step out => ?_
  split
  · exact isolating_evalRetagged safe step.isolated (step.made made) out
  · exact safe _ _ scope v step.isolated (step.made made) out

/-- Evaluating the branch that a condition selects is isolating. -/
theorem isolating_branch (safe : IsolatingEvaluator ev) (isolated : Isolated kept m)
    (made : m.world.scopes.Made scope) (p : Primitive) {arguments : Handle}
    (loose : Loose kept m arguments) :
    Isolating (· = scope) kept m (branch ev scope p arguments) Loose := by
  refine .congr (isolating_orFail isolated fun _ _ => ?_) (elements_bind _ _)
  -- The condition is taken off the list of arguments.
  refine (isolating_lift_loose isolated (ListOp.harmless_popFront isolated.apart loose)).bind
    fun kept₁ m₁ test step₁ _ => ?_
  -- The condition has been taken off, so the branches are the first two elements that are left.
  have loose₁ := loose.step step₁
  refine .congr (isolating_orFail step₁.isolated fun chosen _ => ?_) (glance_bind _ _)
  refine .congr (isolating_orFail step₁.isolated fun _ _ => ?_) (elements_bind _ _)
  -- The branch that is not needed is looked at, but not taken.
  refine (isolating_lift_loose step₁.isolated
    (ListOp.harmless_element step₁.isolated.apart loose₁ 1)).bind
    fun kept₂ m₂ second step₂ out₂ => ?_
  have made₂ := step₂.made (step₁.made made)
  split
  · refine (isolating_lift_loose step₂.isolated
      (ListOp.harmless_element step₂.isolated.apart (loose₁.step step₂) 0)).bind
      fun kept₃ m₃ first step₃ out₃ => ?_
    exact isolating_evalRetagged safe step₃.isolated (step₃.made made₂) out₃
  · exact isolating_evalRetagged safe step₂.isolated made₂ out₂

/-- Evaluating forms in order is isolating. -/
theorem isolating_each (safe : IsolatingEvaluator ev) (expressions : List Value) :
    ∀ {kept : CellId → Prop} {m : Machine}, Isolated kept m → m.world.scopes.Made scope →
      (∀ t ∈ expressions, t.Obeys m.captures) →
      Isolating (· = scope) kept m (each ev scope expressions)
        fun kept' m' results => ∀ v ∈ results, Loose kept' m' v := by
  -- Results stay loose while the later forms are evaluated.
  induction expressions with
  | nil => exact fun isolated _ _ => isolating_pure isolated (by simp)
  | cons t rest ih =>
    intro kept m isolated made obey
    simp only [each, List.mapM_cons, bind_assoc]
    -- The form is placed in fresh containers, and evaluated there.
    refine (isolating_lift_loose isolated (ListOp.harmless_place isolated.apart
      (obey t (by simp)))).bind
      fun kept₁ m₁ v step₁ out₁ => ?_
    refine (safe kept₁ m₁ scope v step₁.isolated (step₁.made made) out₁).bind
      fun kept₂ m₂ result step₂ out₂ => ?_
    refine (ih step₂.isolated (step₂.made (step₁.made made)) fun other later =>
      (obey other (by simp [later])).mono fun _ _ _ captured s member =>
        step₂.made (step₁.made (captured s member))).bind
      fun kept₃ m₃ results step₃ out₃ => ?_
    -- The first result is loose still, after all the others.
    refine isolating_pure step₃.isolated fun w member => ?_
    rcases List.mem_cons.mp member with rfl | later
    · exact out₂.step step₃
    · exact out₃ w later

/-- Loading a file writes in no scope but outermost ones and those that it makes. -/
theorem isolating_load (safe : IsolatingEvaluator ev) (isolated : Isolated kept m)
    (made : m.world.scopes.Made scope) (path : Text.Bytes) :
    Isolating may kept m (load ev scope path) Loose := by
  have failed : ∀ {kept : CellId → Prop} {m : Machine} (failure : Failure), Isolated kept m →
      Isolating may kept m (pure (.error failure)) Loose := fun failure isolated =>
    isolating_pure isolated (loose_of_plain rfl rfl)
  -- Reading a file writes nothing that a scope could see.
  refine (isolating_inWorld isolated rfl).bind fun kept₁ m₁ contents step₁ _ => ?_
  cases contents with
  | error fault => exact failed _ step₁.isolated
  | ok bytes =>
    simp only
    cases Form.parse (withoutInterpreterLine bytes) with
    | error e => exact failed _ step₁.isolated
    | ok forms =>
      refine (isolating_root step₁.isolated (step₁.made made)).bind
        fun kept₂ m₂ outermost step₂ ⟨there, top⟩ => ?_
      -- The forms are evaluated in the outermost scope, which is always writable.
      have within := isolating_each safe (Form.toValues Primitive.all forms) step₂.isolated there
        fun _ => Form.obeys_of_mem_toValues
      refine (within.widen step₂.isolated fun id same _ => .inr (by rw [same]; exact top)).bind
        fun kept₃ m₃ results step₃ _ => ?_
      -- The errors are seen and written, and no scope changes by that.
      refine (isolating_views step₃.isolated _).bind fun _ _ _ step₄ _ => ?_
      exact (isolating_inWorld step₄.isolated rfl).bind fun _ _ _ step₅ _ =>
        isolating_unit step₅.isolated

/-- Loading a named file writes in no scope but outermost ones and those that it makes. -/
theorem isolating_loadNamed (safe : IsolatingEvaluator ev) (isolated : Isolated kept m)
    (made : m.world.scopes.Made scope) (p : Primitive) (v : Handle) :
    Isolating may kept m (loadNamed ev scope p v) Loose := by
  cases v with
  | string path => exact isolating_load safe isolated made path
  | _ => exact isolating_pure isolated (loose_of_plain rfl rfl)

/-- A block writes in no scope but outermost ones and those that it makes. -/
theorem isolating_block (safe : IsolatingEvaluator ev) (isolated : Isolated kept m)
    (made : m.world.scopes.Made scope) (p : Primitive) {body : Handle}
    (loose : Loose kept m body) : Isolating may kept m (block ev scope p body) Loose := by
  refine isolating_orFail isolated fun _ _ => ?_
  refine (isolating_lift_loose isolated
    (ListOp.harmless_retag isolated.apart loose .sexpr)).bind fun kept₁ m₁ list step₁ out₁ => ?_
  -- The scope of the block is made behind the one that the block stands in.
  have parent : ∀ s ∈ some scope, m₁.world.scopes.Made s := fun s member => by
    cases member
    exact step₁.made made
  refine (isolating_enter step₁.isolated parent).bindWithin (fun own => (· = own))
    fun kept₂ m₂ own step₂ ⟨there, new⟩ => ?_
  exact ⟨fun id same old => absurd (same ▸ old) new,
    safe _ _ own list step₂.isolated there (out₁.step step₂)⟩

/-- Trying clauses in order is isolating. -/
theorem isolating_selectFrom (safe : IsolatingEvaluator ev) {arguments : Handle} (count : Nat) :
    ∀ {kept : CellId → Prop} {m : Machine}, Isolated kept m → m.world.scopes.Made scope →
      Loose kept m arguments →
      Isolating (· = scope) kept m (selectFrom ev scope arguments count) Loose := by
  -- Each round takes one clause off and evaluates its condition.
  induction count with
  | zero => exact fun isolated _ _ => isolating_throw isolated
  | succ count ih =>
    intro kept m isolated made loose
    refine .congr ?_ (elements_bind _ _)
    split
    · exact isolating_pure isolated (loose_of_plain rfl rfl)
    -- The clause is taken off the arguments, and then the condition off the clause.
    refine (isolating_lift_loose isolated (ListOp.harmless_popFront isolated.apart loose)).bind
      fun kept₁ m₁ clause step₁ out₁ => ?_
    refine (isolating_lift_loose step₁.isolated
      (ListOp.harmless_popFront step₁.isolated.apart out₁)).bind fun kept₂ m₂ test step₂ out₂ => ?_
    have made₂ := step₂.made (step₁.made made)
    refine (safe _ _ scope test step₂.isolated made₂ out₂).bind
      fun kept₃ m₃ result step₃ out₃ => ?_
    -- The condition has failed, or it tells whether the result of its clause is evaluated.
    split
    · exact isolating_pure step₃.isolated out₃
    refine .congr (isolating_orFail step₃.isolated fun chosen _ => ?_) (glance_bind _ _)
    have made₃ := step₃.made made₂
    split
    -- The result of the clause is what is left in it.
    · refine (isolating_lift_loose step₃.isolated (ListOp.harmless_popFront step₃.isolated.apart
        ((out₁.step step₂).step step₃))).bind fun kept₄ m₄ v step₄ out₄ => ?_
      exact safe _ _ scope v step₄.isolated (step₄.made made₃) out₄
    · exact ih step₃.isolated made₃ (((loose.step step₁).step step₂).step step₃)

/-- Selecting is isolating. -/
theorem isolating_select (safe : IsolatingEvaluator ev) (isolated : Isolated kept m)
    (made : m.world.scopes.Made scope) (p : Primitive) {arguments : Handle}
    (loose : Loose kept m arguments) :
    Isolating (· = scope) kept m (select ev scope p arguments) Loose := by
  refine .congr ?_ (elements_bind _ _)
  refine (isolating_lift isolated (harmless_expectAll isolated.apart
    (expectClause_reads p) _)).bind fun _ _ _ step _ => ?_
  exact isolating_orFail step.isolated fun _ _ =>
    isolating_selectFrom safe _ step.isolated (step.made made) (loose.step step)

/-- Applying a primitive operation is isolating, with the caller's scope writable. -/
theorem isolating_applyPrimitive (safe : IsolatingEvaluator ev) (isolated : Isolated kept m)
    (made : m.world.scopes.Made scope) (p : Primitive) {arguments : Handle}
    (loose : Loose kept m arguments) :
    Isolating (· = scope) kept m (applyPrimitive ev scope p arguments) Loose := by
  -- Each operation has a lemma of its own, by what it does with its arguments.
  have truth : ∀ {kept : CellId → Prop} {m : Machine} (b : Bool), Isolated kept m →
      Isolating (· = scope) kept m (pure (.bool b)) Loose := fun b isolated =>
    isolating_pure isolated (loose_of_plain rfl rfl)
  have compared : ∀ {kept : CellId → Prop} {m : Machine} (v v' : Handle) (f : Bool → Bool),
      Isolated kept m → Isolating (· = scope) kept m
        (do return .bool (f (← ListOp.same v v'))) Loose := fun v v' f isolated =>
    (isolating_lift isolated (ListOp.harmless_same isolated.apart v v')).bind
      fun _ _ b step _ => truth (f b) step.isolated
  cases p with
  | add => exact isolating_arithmetic isolated _ loose
  | sub => exact isolating_arithmetic isolated _ loose
  | mul => exact isolating_arithmetic isolated _ loose
  | div => exact isolating_arithmetic isolated _ loose
  | rem => exact isolating_arithmetic isolated _ loose
  | list => exact isolating_lift_loose isolated (ListOp.harmless_retag isolated.apart loose _)
  | head =>
    exact isolating_onItems isolated _ loose fun apart out => ListOp.harmless_split apart out 1
  | tail => exact isolating_onItems isolated _ loose fun apart out => ListOp.harmless_popFront apart out
  | join => exact isolating_concatenate isolated _ loose
  | cons => exact isolating_putInFront isolated _ loose
  | eval => exact isolating_evaluateOne safe isolated made _ loose
  | define =>
    exact isolating_bindNames isolated _ loose fun _ _ name v step out =>
      isolating_bindRoot step.isolated (step.made made) name out
  | assign =>
    exact isolating_bindNames isolated _ loose fun _ _ name v step out =>
      isolating_bindOwn step.isolated name out
  | lambda => exact isolating_makeLambda isolated made _ loose
  | equal =>
    exact isolating_onTwo isolated loose fun _ _ v v' step _ _ => compared v v' id step.isolated
  | unequal =>
    exact isolating_onTwo isolated loose fun _ _ v v' step _ _ => compared v v' not step.isolated
  | greater | less | greaterEq | lessEq =>
    exact isolating_onTwo isolated loose fun _ _ v v' step _ _ =>
      isolating_compareOrder step.isolated _ v v'
  | cond => exact isolating_branch safe isolated made _ loose
  | not =>
    exact isolating_onOne isolated loose fun _ _ _ step _ =>
      isolating_orFail step.isolated fun _ _ => truth _ step.isolated
  | and => exact isolating_connective isolated _ _ _
  | or => exact isolating_connective isolated _ _ _
  | error => exact isolating_onOne isolated loose fun _ _ v step _ => isolating_raise step.isolated _ v
  | print => exact isolating_print isolated _
  | load =>
    exact isolating_onOne isolated loose fun _ _ v step _ =>
      isolating_loadNamed safe step.isolated (step.made made) _ v
  | sequence => exact isolating_lastOf isolated loose
  | block =>
    exact isolating_onOne isolated loose fun _ _ _ step out =>
      isolating_block safe step.isolated (step.made made) _ out
  | select => exact isolating_select safe isolated made _ loose

/-- Binding names to arguments as they are taken writes in the scope of the names only. -/
theorem isolating_bindTaken {arguments : Handle} (names : List String) :
    ∀ {kept : CellId → Prop} {m : Machine}, Isolated kept m → Loose kept m arguments →
      Isolating (· = scope) kept m (bindTaken scope arguments names) fun _ _ _ => True := by
  -- By induction on the names; what is taken out of a loose list is loose, and so is what stays.
  induction names with
  | nil => exact fun isolated _ => isolating_pure isolated trivial
  | cons name rest ih =>
    intro kept m isolated loose
    refine (isolating_lift_loose isolated (ListOp.harmless_popFront isolated.apart loose)).bind
      fun _ _ _ step taken => ?_
    refine (isolating_bindOwn step.isolated name taken).bind fun _ _ _ step' _ => ?_
    exact ih step'.isolated ((loose.step step).step step')

/-- Binding a variadic name writes in its scope only. -/
theorem isolating_bindRest (isolated : Isolated kept m) {arguments : Handle}
    (loose : Loose kept m arguments) (rest : Option (String × List Handle)) :
    Isolating (· = scope) kept m (bindRest scope arguments rest) fun _ _ _ => True := by
  -- A variadic name is bound to a fresh list or to the list of arguments itself.
  rcases rest with _ | ⟨name, _ | _⟩
  · exact isolating_pure isolated trivial
  · exact (isolating_lift_loose isolated
      (ListOp.harmless_make isolated.apart (by simp))).bind fun _ _ _ step out =>
        isolating_bindOwn step.isolated name out
  · exact (isolating_lift_loose isolated
      (ListOp.harmless_retag isolated.apart loose .qexpr)).bind fun _ _ _ step out =>
        isolating_bindOwn step.isolated name out

/-- Applying a function writes in no scope but outermost ones and those that it makes. -/
theorem isolating_applyLambda (safe : IsolatingEvaluator ev) (isolated : Isolated kept m)
    {formals body : Handle} {captured : Option ScopeId} {arguments : Handle}
    (function : Loose kept m (.lambda formals body captured)) (loose : Loose kept m arguments) :
    Isolating may kept m (applyLambda ev formals body captured arguments) Loose := by
  -- A function stands on its formals and its body, and both are loose.
  obtain ⟨formal, bodied, made⟩ := outside_lambda.mp function
  refine .congr ?_ (view_bind _ _)
  split
  case isFalse => exact isolating_throw isolated
  refine .congr (m := m) ?_ (elements_bind _ _)
  -- The scope of the call is new, so whatever is written there was bound nowhere before.
  refine (isolating_enter isolated made).bindWithin (fun own => (· = own))
    fun kept₁ m₁ own step₁ ⟨there, new⟩ => ⟨fun id same old => absurd (same ▸ old) new, ?_⟩
  -- The arguments are taken off and bound in the new scope.
  refine (isolating_bindTaken _ step₁.isolated (loose.step step₁)).bind
    fun kept₂ m₂ _ step₂ _ => ?_
  have loose₂ : ∀ {v}, Loose kept m v → Loose kept₂ m₂ v := fun out => (out.step step₁).step step₂
  have there₂ := step₂.made there
  -- The body is evaluated, the function waits for more arguments, or a failure is given.
  split
  · refine (isolating_bindRest step₂.isolated (loose₂ loose) _).bind fun kept₃ m₃ _ step₃ _ => ?_
    -- The body is copied before it is evaluated, so that nothing is written in the function.
    have obeys := step₃.isolated.apart.obeys_view ((loose₂ bodied).step step₃)
    refine (isolating_lift_loose step₃.isolated
      (ListOp.harmless_copy step₃.isolated.apart obeys)).bind fun kept₄ m₄ copied step₄ out₄ => ?_
    exact isolating_evalRetagged safe step₄.isolated (step₄.made (step₃.made there₂)) out₄
  -- The formals that wait are placed anew, and the body is shared.
  · have fewer := (isolated.apart.obeys_view formal).withItems (waiting_suffix ‹_›).subset
    refine (isolating_lift_loose step₂.isolated (ListOp.harmless_place step₂.isolated.apart
      (fewer.mono fun _ _ _ captured s member => step₂.made (step₁.made (captured s member))))).bind
      fun kept₃ m₃ waiting step₃ out₃ => ?_
    · refine isolating_pure step₃.isolated (outside_lambda.mpr ⟨out₃, (loose₂ bodied).step step₃, ?_⟩)
      intro s member
      cases member
      exact step₃.made there₂
  · exact isolating_pure step₂.isolated (loose_of_plain rfl rfl)
  · exact isolating_pure step₂.isolated (loose_of_plain rfl rfl)

/-- Applying an operator is isolating, with the caller's scope writable. -/
theorem isolating_call (safe : IsolatingEvaluator ev) (isolated : Isolated kept m)
    (made : m.world.scopes.Made scope) {operator arguments : Handle}
    (function : Loose kept m operator) (loose : Loose kept m arguments) :
    Isolating (· = scope) kept m (call ev scope operator arguments) Loose := by
  cases operator with
  | builtin operation =>
    cases operation with
    | primitive p => exact isolating_applyPrimitive safe isolated made p loose
    | foreign identity name => exact isolating_pure isolated (loose_of_plain rfl rfl)
  | lambda formals body captured => exact isolating_applyLambda safe isolated function loose
  | _ => exact isolating_pure isolated (loose_of_plain rfl rfl)

/-- Evaluating what is in slots of a container that is not kept is isolating. -/
theorem isolating_evalSlots (safe : IsolatingEvaluator ev) {span : Span} (count : Nat) :
    ∀ {kept : CellId → Prop} {m : Machine} (index : Nat), Isolated kept m →
      m.world.scopes.Made scope → Loose kept m (.list .sexpr span.container) →
      Isolating (· = scope) kept m (evalSlots ev scope span index count) fun _ _ _ => True := by
  -- A result goes back into the slot that its expression came from.
  induction count with
  | zero => exact fun _ isolated _ _ => isolating_pure isolated trivial
  | succ count ih =>
    intro kept m index isolated made loose
    obtain ⟨there, free⟩ := outside_list.mp loose
    -- The expression is read from its slot, which stays as it is while that is evaluated.
    refine (isolating_lift_loose isolated
      (ListOp.harmless_slot isolated.apart there free index)).bind fun kept₁ m₁ v step₁ out₁ => ?_
    have made₁ := step₁.made made
    refine (safe _ _ scope v step₁.isolated made₁ out₁).bind fun kept₂ m₂ result step₂ out₂ => ?_
    have loose₂ := (loose.step step₁).step step₂
    obtain ⟨there₂, free₂⟩ := outside_list.mp loose₂
    refine (isolating_lift step₂.isolated (ListOp.harmless_put step₂.isolated.apart there₂ free₂
      out₂ index)).bind fun kept₃ m₃ _ step₃ _ => ?_
    exact ih (index + 1) step₃.isolated (step₃.made (step₂.made made₁)) (loose₂.step step₃)

/-- Finding an error among slots only reads the heap. -/
theorem findError?_reads (span : Span) (h : Heap) (count : Nat) :
    ∀ index, ∃ found, findError? span index count h = .ok found h := by
  -- By induction on the number of slots that are left.
  induction count with
  | zero => exact fun index => ⟨none, rfl⟩
  | succ count ih =>
    intro index
    obtain ⟨found, ran⟩ := ih (index + 1)
    show ∃ found, (if (h.slot span index).isError then pure (some index)
      else findError? span (index + 1) count : ListOp (Option Nat)) h = .ok found h
    split
    · exact ⟨some index, rfl⟩
    · exact ⟨found, ran⟩

/-- Reducing the list in a container that is not kept is isolating. -/
theorem isolating_reduce (safe : IsolatingEvaluator ev) (isolated : Isolated kept m)
    (made : m.world.scopes.Made scope) {id : CellId} (loose : Loose kept m (.list .sexpr id)) :
    Isolating (· = scope) kept m (reduce ev scope id) Loose := by
  -- Whatever the elements do, nothing that is bound leads to the list they are in.
  have slots : Isolating (· = scope) kept m
      (evalSlots ev scope (m.heap.span id) 0 (m.heap.span id).length) fun _ _ _ => True :=
    isolating_evalSlots safe _ 0 isolated made loose
  refine slots.bind fun kept₁ m₁ _ step₁ _ => ?_
  have loose₁ := loose.step step₁
  have made₁ := step₁.made made
  obtain ⟨found, ran⟩ := findError?_reads (m.heap.span id) m₁.heap (m.heap.span id).length 0
  refine .congr ?_ (bind_ok (lift_ok ran) _)
  -- The first error is given, and otherwise the number of elements decides.
  cases found with
  | some index =>
    exact isolating_lift_loose step₁.isolated (ListOp.harmless_take step₁.isolated.apart loose₁ _)
  | none =>
    refine .congr (m := m₁) ?_ (elements_bind (.list .sexpr id) _)
    split
    · exact isolating_pure step₁.isolated loose₁
    · refine (isolating_lift_loose step₁.isolated
        (ListOp.harmless_take step₁.isolated.apart loose₁ 0)).bind fun _ _ v step₂ out₂ => ?_
      exact safe _ _ scope v step₂.isolated (step₂.made made₁) out₂
    · refine (isolating_lift_loose step₁.isolated
        (ListOp.harmless_popFront step₁.isolated.apart loose₁)).bind
        fun _ _ operator step₂ out₂ => ?_
      exact isolating_call safe step₂.isolated (step₂.made made₁) out₂ (loose₁.step step₂)

/-- Counting one more reduction changes nothing that isolation is about. -/
theorem isolating_nested (isolated : Isolated kept m) {act : Act Handle}
    (safe : ∀ m', Step may kept m kept m' → Isolating may kept m' act Loose) :
    Isolating may kept m (nested act) Loose := by
  have entered : Step may kept m kept { m with depth := m.depth + 1 } :=
    isolated.step_of_same rfl rfl
  obtain ⟨kept', ran⟩ := safe _ entered
  refine ⟨kept', ?_⟩
  -- The count goes up before and down afterwards, whether there is a result or a fault.
  simp only [nested]
  cases outcome : act { m with depth := m.depth + 1 } with
  | ok v m' =>
    -- A level less on the way out leaves the scopes as they are.
    simp only [outcome] at ran
    have left : Step may kept' m' kept' { m' with depth := m'.depth - 1 } :=
      ran.1.isolated.step_of_same rfl rfl
    have both := entered.trans ran.1 fun _ allowed _ => .inl allowed
    exact ⟨both.trans left fun _ allowed _ => .inl allowed, ran.2⟩
  | error fault m' =>
    simp only [outcome] at ran
    have left : Step may kept' m' kept' { m' with depth := m'.depth - 1 } :=
      ran.isolated.step_of_same rfl rfl
    have both := entered.trans ran fun _ allowed _ => .inl allowed
    exact both.trans left fun _ allowed _ => .inl allowed

/-- A reduction that the limit may forbid is isolating when carrying it out is. -/
theorem isolating_guarded (isolated : Isolated kept m) {act : Act Handle}
    (safe : ∀ m', Step may kept m kept m' → Isolating may kept m' act Loose) :
    Isolating may kept m (guarded act) Loose := by
  show Isolating may kept m (if m.world.limit ≤ m.depth then _ else nested act) Loose
  split
  · exact isolating_pure isolated (loose_of_plain rfl rfl)
  · exact isolating_nested isolated safe

/-- Evaluating is isolating when reducing the lists that are not kept is. -/
theorem isolating_evalWith (isolated : Isolated kept m) {reduce : CellId → Act Handle} {v : Handle}
    (loose : Loose kept m v)
    (safe : ∀ m' id, Step (· = scope) kept m kept m' → Loose kept m' (.list .sexpr id) →
      Isolating (· = scope) kept m' (reduce id) Loose) :
    Isolating (· = scope) kept m (evalWith reduce scope v) Loose := by
  -- Only lists in round brackets are reduced, and only symbols are looked up.
  cases v with
  | symbol name => exact isolating_lookup isolated scope name
  | list kind id =>
    cases kind with
    | sexpr => exact isolating_guarded isolated fun m' step => safe m' id step (loose.step step)
    | qexpr => exact isolating_pure isolated loose
  | bareList kind =>
    cases kind with
    | sexpr =>
      exact isolating_guarded isolated fun _ step => isolating_pure step.isolated (loose.step step)
    | qexpr => exact isolating_pure isolated loose
  | _ => exact isolating_pure isolated loose

/-- Evaluating with any room is isolating. -/
theorem isolatingEvaluator_eval (room : Nat) : IsolatingEvaluator (eval room) := by
  -- A reduction evaluates with one room less than it was given.
  induction room with
  | zero =>
    intro kept m scope v isolated made loose
    refine isolating_evalWith isolated loose fun m' _ step _ => ?_
    exact isolating_throw step.isolated
  | succ room ih =>
    intro kept m scope v isolated made loose
    refine isolating_evalWith isolated loose fun m' id step list => ?_
    exact isolating_reduce ih step.isolated (step.made made) list

/-- Evaluating is isolating, with its scope the only one it may write in. -/
theorem isolatingEvaluator_evaluate : IsolatingEvaluator evaluate :=
  fun kept m scope v isolated made loose =>
    isolatingEvaluator_eval (m.world.limit - m.depth) kept m scope v isolated made loose

/-- Applying an operator from outside is isolating, with the given scope writable. -/
theorem isolating_apply (isolated : Isolated kept m) (made : m.world.scopes.Made scope)
    {operator arguments : Handle} (function : Loose kept m operator)
    (loose : Loose kept m arguments) :
    Isolating (· = scope) kept m (apply scope operator arguments) Loose :=
  isolating_call (isolatingEvaluator_eval (m.world.limit - m.depth)) isolated made function loose

end QLisp.Shared.Act
