import QLisp.Proofs.Shared.FollowReduce

/-!
Where the code of a function runs.

The body of a function runs in the scope that its call makes, and a block in one of its own. Operators
hand what they evaluate on to the scope that they are applied in, so all code nested in a body or a
block runs there too, until a further call, block or file. An assignment in that code is therefore
carried out in a scope that was not there before.

To say so the evaluator is watched. While a body or a block runs, all scopes that were there when it
began are to be spared, and an assignment that is carried out in one of them raises an alarm instead.
-/

namespace QLisp.Shared.Act

variable {α β : Type} {m : Machine} {ev ev' : Evaluator} {scope : ScopeId}

/-! ### Operators evaluate where they are applied -/

/-- A computation evaluates only in scopes that it makes itself. -/
def EvaluatesInside (m : Machine) (act : Evaluator → Act Handle) : Prop :=
  ∀ ev ev', (∀ own, ¬ m.world.scopes.Made own → ev own = ev' own) → act ev m = act ev' m

/-- A function evaluates its body in the scope of its call. -/
theorem applyLambda_inside (m : Machine) (formals body : Handle) (captured : Option ScopeId)
    (arguments : Handle) :
    EvaluatesInside m fun ev => applyLambda ev formals body captured arguments := by
  intro ev ev' agree
  have own := agree m.world.scopes.next (Scopes.not_made_next _)
  simp only [applyLambda]
  rw [view_bind, view_bind]
  -- The arguments are bound and the body is evaluated in the scope that the call makes.
  split
  · rw [elements_bind, elements_bind, bind_ok (enter_run captured), bind_ok (enter_run captured),
      own]
  · rfl

/-- What follows a list operation may be compared on machines that differ in the heap alone. -/
theorem lift_bind_congr {op : ListOp α} {next next' : α → Act β}
    (same : ∀ a h, next a { m with heap := h } = next' a { m with heap := h }) :
    (liftM op >>= next) m = (liftM op >>= next') m := by
  simp only [Bind.bind, EStateM.bind, lift_run]
  cases op m.heap with
  | ok a h => exact same a h
  | error fault h => rfl

/-- What follows a check may be compared where the check succeeds. -/
theorem orFail_congr (result : Except Failure α) {next next' : α → Act Handle}
    (same : ∀ a, next a m = next' a m) : orFail result next m = orFail result next' m := by
  cases result with
  | ok a => exact same a
  | error failure => rfl

/-- A block evaluates its body in a scope of its own. -/
theorem block_inside (m : Machine) (scope : ScopeId) (arguments : Handle) :
    EvaluatesInside m fun ev => applyPrimitive ev scope .block arguments := by
  intro ev ev' agree
  have own := agree m.world.scopes.next (Scopes.not_made_next _)
  -- Only list operations and checks come before the scope is made.
  refine lift_bind_congr fun _ _ => orFail_congr _ fun _ => lift_bind_congr fun _ _ => ?_
  refine orFail_congr _ fun _ => lift_bind_congr fun list h => ?_
  rw [bind_ok (enter_run _), bind_ok (enter_run _), own]

/-- A selection evaluates its clauses in the scope that it is applied in. -/
theorem selectFrom_here (here : ev scope = ev' scope) (arguments : Handle) (count : Nat) :
    selectFrom ev scope arguments count = selectFrom ev' scope arguments count := by
  -- By induction on the rounds; a condition and a result are evaluated in the one scope.
  induction count with
  | zero => rfl
  | succ count ih => rw [selectFrom, selectFrom, here, ih]

/-- An operation that is neither a block nor loads a file evaluates in the scope that it is applied in. -/
theorem applyPrimitive_here {p : Primitive} (block : p ≠ .block) (load : p ≠ .load)
    (here : ev scope = ev' scope) (arguments : Handle) :
    applyPrimitive ev scope p arguments = applyPrimitive ev' scope p arguments := by
  cases p with
  | block => exact absurd rfl block
  | load => exact absurd rfl load
  -- Three operations evaluate something, and the others do not.
  | eval => simp only [applyPrimitive, evaluateOne, here]
  | cond => simp only [applyPrimitive, branch, here]
  | select => simp only [applyPrimitive, select, selectFrom_here here]
  | _ => rfl

/-- The elements of a list are evaluated in the scope that the list is. -/
theorem evalSlots_here (here : ev scope = ev' scope) (span : Span) (index count : Nat) :
    evalSlots ev scope span index count = evalSlots ev' scope span index count := by
  induction count generalizing index with
  | zero => rfl
  | succ count ih => simp only [evalSlots, here, ih]

/-- Reducing a list evaluates in its scope, apart from what applying the operator does. -/
theorem reduceVia_here {caller caller' : Caller} (here : ev scope = ev' scope)
    (calls : ∀ operator arguments, caller ev scope operator arguments =
      caller' ev' scope operator arguments) (id : CellId) :
    reduceVia caller ev scope id = reduceVia caller' ev' scope id := by
  simp only [reduceVia, evalSlots_here here, here, calls]

/-! ### Assignments are watched -/

/--
Applies an operation while the first `spared` scopes are to be spared: an assignment that would be carried
out in one of them raises the alarm. A block spares all scopes that are there, and a file, which runs in
an outermost scope, none.
-/
def applyPrimitiveSparing (alarm : Act Handle) (ev : Nat → Evaluator) (spared there : Nat)
    (scope : ScopeId) (p : Primitive) (arguments : Handle) : Act Handle :=
  match p with
  | .assign => if scope.index < spared then alarm else applyPrimitive (ev spared) scope .assign arguments
  | .block => applyPrimitive (ev there) scope .block arguments
  | .load => applyPrimitive (ev 0) scope .load arguments
  | p => applyPrimitive (ev spared) scope p arguments

/-- Applies an operator while some scopes are to be spared. A function spares all that are there. -/
def callSparing (alarm : Act Handle) (ev : Nat → Evaluator) (spared : Nat) (scope : ScopeId)
    (operator arguments : Handle) : Act Handle := do
  let there := (← get).world.scopes.made.size
  match operator with
  | .builtin (.primitive p) => applyPrimitiveSparing alarm ev spared there scope p arguments
  | .lambda formals body captured => applyLambda (ev there) formals body captured arguments
  | v => return .error (.notAFunction v.kind)

/-- Evaluates a handle while some scopes are to be spared. -/
def evalSparing (alarm : Act Handle) : Nat → Nat → Evaluator
  | 0, _ => evalWith fun _ => throw .unending
  | room + 1, spared => fun scope =>
    evalWith (reduceVia (fun _ => callSparing alarm (evalSparing alarm room) spared)
      (evalSparing alarm room spared) scope) scope

/-- Evaluates a handle in a scope, with no scope to be spared until a function or a block is run. -/
def evaluateSparing (alarm : Act Handle) (scope : ScopeId) (v : Handle) : Act Handle := do
  evalSparing alarm (← room) 0 scope v

/-- Applies an operator, with no scope to be spared until a function or a block is run. -/
def applySparing (alarm : Act Handle) (scope : ScopeId) (operator arguments : Handle) : Act Handle := do
  callSparing alarm (evalSparing alarm (← room)) 0 scope operator arguments

variable {alarm : Act Handle}

/-- Where the scope is not to be spared, applying an operator raises no alarm of its own. -/
theorem callSparing_eq {ev : Nat → Evaluator} {spared : Nat} (free : spared ≤ scope.index)
    (agree : ∀ (spared : Nat) (scope : ScopeId), spared ≤ scope.index → ev spared scope = ev' scope)
    (operator arguments : Handle) :
    callSparing alarm ev spared scope operator arguments = call ev' scope operator arguments := by
  funext m
  -- A scope that has not been made is none of those that there are.
  have inside : ∀ own, ¬ m.world.scopes.Made own → ev m.world.scopes.made.size own = ev' own :=
    fun own unmade => agree _ own (Nat.le_of_not_lt unmade)
  have everywhere : ev 0 = ev' := funext fun own => agree 0 own (Nat.zero_le _)
  rw [callSparing, get_bind]
  -- Only functions and those operations that evaluate use the evaluator at all.
  cases operator with
  | lambda formals body captured => exact applyLambda_inside m formals body captured _ _ _ inside
  | builtin operation =>
    cases operation with
    | foreign => rfl
    | primitive p =>
      show applyPrimitiveSparing alarm ev spared _ scope p arguments m =
        applyPrimitive ev' scope p arguments m
      -- An assignment is carried out in the scope itself, which is not spared.
      unfold applyPrimitiveSparing
      split
      · rw [if_neg (Nat.not_lt_of_le free)]
        rfl
      -- A block is evaluated in a new scope, which is not spared.
      · exact block_inside m scope arguments _ _ inside
      -- A file is run with no scope to be spared, where the evaluators agree everywhere.
      · rw [everywhere]
      · rename_i block load
        exact congrFun (applyPrimitive_here block load (agree spared scope free) arguments) m
  | _ => rfl

/-- Where the scope is not to be spared, evaluation raises no alarm. -/
theorem evalSparing_eq (alarm : Act Handle) (room : Nat) :
    ∀ (spared : Nat) (scope : ScopeId), spared ≤ scope.index →
      evalSparing alarm room spared scope = eval room scope := by
  -- By induction on the room: what is nested runs in the same scope, or in one that is not spared.
  induction room with
  | zero => exact fun _ _ _ => rfl
  | succ room ih =>
    intro spared scope free
    rw [← evalVia_call, evalSparing, evalVia]
    funext v
    refine congrArg (fun reduce => evalWith reduce scope v) (funext fun id => ?_)
    -- The elements are evaluated in the same scope, and the operator is called from there.
    refine reduceVia_here ?_ (fun operator arguments => ?_) id
    · rw [ih spared scope free, evalVia_call]
    · rw [evalVia_call]
      exact callSparing_eq free ih operator arguments

/-- Evaluation raises no alarm. -/
theorem evaluateSparing_eq (alarm : Act Handle) : evaluateSparing alarm = evaluate := by
  funext scope v
  refine bind_congr fun room => ?_
  rw [evalSparing_eq alarm room 0 scope (Nat.zero_le _)]

/-- Applying an operator raises no alarm. -/
theorem applySparing_eq (alarm : Act Handle) : applySparing alarm = apply := by
  funext scope operator arguments
  exact bind_congr fun room =>
    callSparing_eq (Nat.zero_le _) (evalSparing_eq alarm room) operator arguments

end QLisp.Shared.Act
