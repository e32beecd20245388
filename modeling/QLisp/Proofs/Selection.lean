import QLisp.Proofs.BigStep

/-!
A selection as a chain of conditionals.

A selection evaluates its conditions in order, and so do conditionals in one another. The expression that
is chosen is evaluated twice there, once by itself and once as the value of a lone expression, but what
it gives is normal or an error. The chain needs one reduction more for each clause.
-/

namespace QLisp

/-- Conditionals in one another, the last of which fails as a selection without a choice does. -/
def Value.conditionals : List (Value × Value) → List Value
  | [] => [.primitive .error, .string (Text.encode "select: no selection found")]
  | (condition, result) :: rest =>
    [.primitive .cond, condition, .qexpr [result], .qexpr (conditionals rest)]

/-- A clause of a selection as a value. -/
def Value.clause (c : Value × Value) : Value :=
  .qexpr [c.1, c.2]

/-- A selection among clauses, as an expression. -/
def Value.selection (clauses : List (Value × Value)) : Value :=
  .sexpr (.primitive .select :: clauses.map Value.clause)

namespace Run

variable {p q : Primitive} {ev : Evaluator} {scope : ScopeId} {path : Text.Bytes} {room more : Nat}
  {w : World Value} {clauses : List (Value × Value)} {v : Value}

/-- Evaluates conditions in order like a selection, on behalf of some operation. -/
def choose (p : Primitive) (ev : Evaluator) (scope : ScopeId) : List (Value × Value) → Run Value
  | [] => return .error (.raised (Text.encode "select: no selection found"))
  | (condition, result) :: rest => do
    let test ← ev scope condition
    if test.isError then return test
    orFail (p.condition test) fun chosen =>
      if chosen then ev scope result else choose p ev scope rest

/-- A selection chooses on behalf of itself. -/
theorem select_eq (ev : Evaluator) (scope : ScopeId) (clauses : List (Value × Value)) :
    select ev scope clauses = choose .select ev scope clauses := by
  induction clauses with
  | nil => rfl
  | cons clause rest ih =>
    obtain ⟨condition, result⟩ := clause
    rw [select, choose, ih]

/-- Two results are the same but for the operation that a wrong type is reported by. -/
def SameButCaller (p q : Primitive) (v v' : Value) : Prop :=
  v = v' ∨ ∃ kind, v = .error (.wrongType p.name .bool kind) ∧ v' = .error (.wrongType q.name .bool kind)

/-- Operations agree on conditions, and report the others in the same way. -/
theorem condition_cases (p q : Primitive) (v : Value) :
    p.condition v = q.condition v ∨ p.condition v = .error (.wrongType p.name .bool v.kind) ∧
      q.condition v = .error (.wrongType q.name .bool v.kind) := by
  unfold Primitive.condition expectCondition
  split
  · exact .inl rfl
  · exact .inr ⟨rfl, rfl⟩

/-- The first condition is evaluated, and what comes next depends on its value. -/
theorem choose_cons (p : Primitive) (ev : Evaluator) (scope : ScopeId) (condition result : Value)
    (rest : List (Value × Value)) (w : World Value) :
    choose p ev scope ((condition, result) :: rest) w =
      (if (ev scope condition w).1.isError then pure (ev scope condition w).1
        else orFail (p.condition (ev scope condition w).1) fun chosen =>
          if chosen then ev scope result else choose p ev scope rest : Run Value)
        (ev scope condition w).2 := rfl

/-- On whose behalf is chosen shows in reports of wrong types only. -/
theorem choose_caller (p q : Primitive) (ev : Evaluator) (scope : ScopeId)
    (clauses : List (Value × Value)) : ∀ w,
    SameButCaller p q (choose p ev scope clauses w).1 (choose q ev scope clauses w).1 ∧
      (choose p ev scope clauses w).2 = (choose q ev scope clauses w).2 := by
  -- The induction is on the clauses; the first condition ends the choice or goes on to the others.
  induction clauses with
  | nil => exact fun w => ⟨.inl rfl, rfl⟩
  | cons clause rest ih =>
    intro w
    obtain ⟨condition, result⟩ := clause
    rw [choose_cons p, choose_cons q]
    generalize ev scope condition w = tested
    obtain ⟨test, w'⟩ := tested
    -- A condition that fails is the result on both behalves.
    by_cases failed : test.isError
    · rw [if_pos failed, if_pos failed]
      exact ⟨.inl rfl, rfl⟩
    · rw [if_neg failed, if_neg failed]
      -- A condition is told alike on both behalves, or is of a wrong type for both.
      rcases condition_cases p q test with same | ⟨unfit, unfit'⟩
      · rw [same]
        cases q.condition test with
        | error failure => exact ⟨.inl rfl, rfl⟩
        -- The first condition that holds chooses its result.
        | ok chosen =>
          cases chosen with
          | true => exact ⟨.inl rfl, rfl⟩
          | false => exact ih w'
      · rw [unfit, unfit']
        exact ⟨.inr ⟨_, rfl, rfl⟩, rfl⟩

/-- Clauses have their conditions and results. -/
theorem mapM_clause (clauses : List (Value × Value)) :
    (clauses.map Value.clause).mapM Primitive.select.clause = .ok clauses := by
  induction clauses with
  | nil => rfl
  | cons clause rest ih =>
    rw [List.map_cons, List.mapM_cons, ih]
    rfl

/-- Clauses evaluate to themselves. -/
theorem evaluatesAll_clauses (family : Nat → Evaluator) [Stepwise family]
    (clauses : List (Value × Value)) :
    EvaluatesAll family 0 scope (clauses.map Value.clause) w (clauses.map Value.clause) w := by
  induction clauses with
  | nil => exact evaluatesAll_nil
  | cons clause rest ih => exact .cons (evaluates_qexpr _) ih

/-- A selection with a clause selects among its clauses. -/
theorem eval_selection (clause : Value × Value) (rest : List (Value × Value)) (room : Nat) :
    eval (room + 1) scope (Value.selection (clause :: rest)) w =
      select (eval room) scope (clause :: rest) w := by
  -- The operator and the clauses are known, so the call is all that is left.
  have values : EvaluatesAll eval 0 scope (.primitive .select :: (clause :: rest).map Value.clause) w
      (.primitive .select :: (clause :: rest).map Value.clause) w :=
    .cons (evaluates_primitive _) (evaluatesAll_clauses eval _)
  have fine : (.primitive .select :: (clause :: rest).map Value.clause).find? (·.isError) = none := by
    simp [List.find?_eq_none, Value.clause]
  show reduce (eval room) scope _ w = _
  rw [reduce_call (values room (Nat.zero_le _)) fine]
  show orFail (((clause :: rest).map Value.clause).mapM Primitive.select.clause) _ w = _
  rw [mapM_clause]
  rfl

/-! ### The chain -/

/-- A path that has not been asked for in the end has not been asked for before. -/
theorem quiet_before (quiet : path ∉ (evalNoting path room scope v w).2.asked) : path ∉ w.asked :=
  fun asked => quiet ((sameUnless_eval (Nat.le_refl room) scope v).stays w asked)

/-- A run that goes on after another one goes on with its result, in the world that it leaves. -/
theorem bind_run {α β : Type} (run : Run α) (next : α → Run β) (w : World Value) :
    (run >>= next) w = next (run w).1 (run w).2 := rfl

/-- A conditional evaluates its condition, and its branches stay quoted. -/
theorem each_conditional (path : Text.Bytes) (room : Nat) (scope : ScopeId) (condition : Value)
    (first second : List Value) (w : World Value) :
    each (evalNoting path room) scope [.primitive .cond, condition, .qexpr first, .qexpr second] w =
      ([.primitive .cond, (evalNoting path room scope condition w).1, .qexpr first, .qexpr second],
        (evalNoting path room scope condition w).2) := by
  cases room <;> rfl

/-- A lone expression that is evaluated in brackets without a refusal gives what it gives by itself. -/
theorem evalNoting_lone (tidy : w.Tidy) (regular : v.Regular) (roomier : room ≤ more + 1)
    (quiet : path ∉ (evalNoting path room scope (.sexpr [v]) w).2.asked) :
    evalNoting path room scope (.sexpr [v]) w = eval more scope v w := by
  -- The path has not been asked for, so there was room to reduce the list.
  obtain ⟨less, rfl, reduced⟩ := evalNoting_sexpr quiet
  have twice : reduce (evalNoting path less) scope [v] w =
    finish (evalNoting path less) scope [(evalNoting path less scope v w).1]
      (evalNoting path less scope v w).2 := rfl
  rw [reduced, twice] at quiet ⊢
  -- What comes out of the first evaluation is an error or is evaluated a second time.
  by_cases failed : (evalNoting path less scope v w).1.isError
  · -- An error is given back at once.
    simp only [finish, List.find?_cons, failed] at quiet ⊢
    exact ((sameUnless_eval (by omega) scope v).eq quiet).symm
  -- What is normal evaluates to itself, so the second evaluation changes nothing.
  · simp only [finish, List.find?_cons, Bool.eq_false_iff.mpr failed, List.find?_nil] at quiet ⊢
    have before := quiet_before quiet
    have once : eval more scope v w = evalNoting path less scope v w :=
      (sameUnless_eval (by omega) scope v).eq before
    have settles : Keeps w (eval more scope v) (evalVia call more scope v) Value.Settled :=
      settles_eval agrees_call more tidy regular
    rw [← (sameUnless_eval (Nat.le_succ less) scope _).eq quiet]
    rw [← once] at failed ⊢
    exact eval_normal (settles.good.final.resolve_right failed) less scope

/-- A chain of conditionals that is evaluated without a refusal chooses on behalf of the conditional. -/
theorem evalNoting_conditionals (tidy : w.Tidy)
    (regular : ∀ c ∈ clauses, c.1.Regular ∧ c.2.Regular) (roomier : room ≤ more + 1)
    (quiet : path ∉ (evalNoting path room scope (.sexpr (Value.conditionals clauses)) w).2.asked) :
    evalNoting path room scope (.sexpr (Value.conditionals clauses)) w =
      choose .cond (eval more) scope clauses w := by
  -- The induction is on the clauses; each has one reduction less to go than the one before.
  induction clauses generalizing room w with
  | nil =>
    -- Without a clause the list is empty, and so is the result.
    obtain ⟨less, rfl, reduced⟩ := evalNoting_sexpr quiet
    rw [reduced]
    cases less <;> rfl
  | cons clause rest ih =>
    obtain ⟨condition, result⟩ := clause
    obtain ⟨less, rfl, reduced⟩ := evalNoting_sexpr quiet
    obtain ⟨tested', given⟩ := regular _ List.mem_cons_self
    let tested := evalNoting path less scope condition w
    -- The condition is evaluated first; the rest is quoted or names the conditional.
    have step : reduce (evalNoting path less) scope (Value.conditionals ((condition, result) :: rest)) w =
        finish (evalNoting path less) scope [.primitive .cond, tested.1, .qexpr [result],
          .qexpr (Value.conditionals rest)] tested.2 := by
      rw [Value.conditionals, reduce_eq, bind_run, each_conditional]
    rw [reduced, step] at quiet ⊢
    -- What is evaluated after the condition forgets no path.
    have same (early : path ∉ tested.2.asked) : eval more scope condition w = tested :=
      (sameUnless_eval (by omega) scope condition).eq early
    rw [choose_cons]
    -- A condition that fails is given back, and no branch is taken.
    by_cases failed : tested.1.isError
    · simp only [finish, List.find?_cons, Value.isError_primitive, failed] at quiet ⊢
      rw [same quiet, if_pos failed]
    -- Nothing among the arguments is an error, so the conditional is applied.
    · have none : [.primitive .cond, tested.1, .qexpr [result],
          .qexpr (Value.conditionals rest)].find? (·.isError) = none := by simp [failed]
      have calls : finish (evalNoting path less) scope [.primitive .cond, tested.1, .qexpr [result],
          .qexpr (Value.conditionals rest)] tested.2 =
          orFail (Primitive.cond.condition tested.1) (fun chosen => evalNoting path less scope
            (.sexpr (if chosen then [result] else Value.conditionals rest))) tested.2 := by
        simp only [finish, none]
        show orFail (Primitive.cond.branch _) _ tested.2 = _
        -- The conditional looks at its condition before the branches.
        rw [Primitive.branch]
        cases Primitive.cond.condition tested.1 with
        | error failure => rfl
        | ok chosen => rfl
      rw [calls] at quiet ⊢
      -- What is no condition is refused by both, and for the others the same branch is evaluated.
      cases fit : Primitive.cond.condition tested.1 with
      | error failure =>
        rw [fit] at quiet
        rw [same quiet, if_neg failed, fit]
        rfl
      | ok chosen =>
        rw [fit] at quiet
        -- The condition was evaluated first, so the path had not been asked for then either.
        have early := quiet_before quiet
        have settles : Keeps w (eval more scope condition) (evalVia call more scope condition)
          Value.Settled := settles_eval agrees_call more tidy tested'
        have tidy' := settles.tidy
        rw [same early] at tidy' ⊢
        rw [if_neg failed, fit]
        cases chosen with
        -- The result is evaluated by itself, in one reduction less.
        | true => exact evalNoting_lone tidy' given (by omega) quiet
        -- Otherwise the conditional of the other clauses is evaluated, which is the induction's.
        | false =>
          exact ih tidy' (fun c member => regular c (List.mem_cons_of_mem _ member)) (by omega) quiet

end Run
end QLisp
