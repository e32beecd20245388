import QLisp.Proofs.BigStep

/-!
Evaluation without a refusal, taken apart.

When no reduction has been refused in a whole run, none has been in any part of it. So what is known of
the parts, given room enough, is what they did in the room that they had.
-/

namespace QLisp.Run

variable {α β : Type} {path : Text.Bytes} {w w₁ w' x : World Value} {room n : Nat} {scope s : ScopeId}
  {t v operator argument : Value} {ts vs items arguments rest : List Value}

/-- A run gives a result and leaves a world in which a path has not been asked for. -/
structure Passes (path : Text.Bytes) (run : Run α) (w : World Value) (a : α) (w' : World Value) : Prop where
  /-- What the run gives and leaves. -/
  ran : run w = (a, w')
  /-- The path has not been asked for. -/
  quiet : path ∉ w'.asked

/-- A path that has been asked for stays so in evaluation that asks for it. -/
theorem stays_evalNoting (room : Nat) (scope : ScopeId) (t : Value) :
    SameUnless path (evalNoting path room scope t) (eval room scope t) :=
  sameUnless_eval (Nat.le_refl room) scope t

namespace Passes

/-- The run has not asked for the path. -/
theorem silent {run : Run α} {a : α} (passes : Passes path run w a w') : path ∉ (run w).2.asked := by
  rw [passes.ran]
  exact passes.quiet

/-- A run that passes gives one result and leaves one world. -/
theorem unique {run : Run α} {a : α} (passes : Passes path run w a w') {b : α} (ran : run w = (b, x)) :
    a = b ∧ w' = x := by
  rw [passes.ran] at ran
  exact Prod.mk.inj ran

/-- Both parts of a run pass when the whole does. -/
theorem bind {run : Run α} {next next' : α → Run β} {b : β} (passes : Passes path (run >>= next) w b w')
    (stays : ∀ a, SameUnless path (next a) (next' a)) :
    ∃ a w₁, Passes path run w a w₁ ∧ Passes path (next a) w₁ b w' := by
  have whole : next (run w).1 (run w).2 = (b, w') := passes.ran
  refine ⟨(run w).1, (run w).2, ⟨rfl, fun asked => passes.quiet ?_⟩, whole, passes.quiet⟩
  -- A path that the first part had asked for would still be there.
  have still := (stays (run w).1).stays _ asked
  rwa [whole] at still

/-- An application that passes is the same with more room. -/
theorem call_eq (passes : Passes path (call (evalNoting path room) scope operator arguments) w v w')
    {more : Nat} (roomier : room ≤ more) : call (eval more) scope operator arguments w = (v, w') := by
  rw [← passes.ran]
  exact ((sameUnless path).call (sameUnless_eval roomier) scope operator arguments).eq passes.silent

/-- What evaluates to a value with room enough gives that value. -/
theorem evaluates (passes : Passes path (evalNoting path room scope t) w v w') {u : Value}
    (evaluates : Evaluates eval n scope t w u x) : v = u ∧ w' = x :=
  passes.unique (evaluates.noting passes.silent)

/-- A list that passes had room for a reduction, and its parts pass. -/
theorem list (passes : Passes path (evalNoting path room scope (.sexpr items)) w v w') :
    ∃ less vs w₁, room = less + 1 ∧ Passes path (each (evalNoting path less) scope items) w vs w₁ ∧
      Passes path (finish (evalNoting path less) scope vs) w₁ v w' := by
  obtain ⟨less, rfl, reduces⟩ := evalNoting_sexpr passes.silent
  have parts : Passes path (reduce (evalNoting path less) scope items) w v w' :=
    ⟨reduces.symm.trans passes.ran, passes.quiet⟩
  obtain ⟨vs, w₁, first, second⟩ := parts.bind ((sameUnless path).finish (stays_evalNoting less) scope)
  exact ⟨less, vs, w₁, rfl, first, second⟩

/-- Expressions that are evaluated in order pass one after the other. -/
theorem cons (passes : Passes path (each (evalNoting path room) scope (t :: ts)) w vs w') :
    ∃ v rest w₁, vs = v :: rest ∧ Passes path (evalNoting path room scope t) w v w₁ ∧
      Passes path (each (evalNoting path room) scope ts) w₁ rest w' := by
  -- The head is evaluated first, and what comes after it is left for the tail.
  have parts := passes
  rw [each, List.mapM_cons] at parts
  obtain ⟨v, w₁, first, others⟩ := parts.bind fun v =>
    (sameUnless path).bind ((sameUnless path).each (stays_evalNoting room) scope ts) fun rest =>
      (sameUnless path).pure (v :: rest)
  -- Putting the values together changes nothing any more.
  obtain ⟨rest, w₂, second, last⟩ := others.bind fun rest => (sameUnless path).pure (v :: rest)
  obtain ⟨same, rfl⟩ := Prod.mk.inj last.ran
  exact ⟨v, rest, w₁, same.symm, first, second⟩

/-- Expressions of which the first are known to evaluate leave the others to be evaluated. -/
theorem known (passes : Passes path (each (evalNoting path room) scope (t :: ts)) w vs w') {u : Value}
    (evaluates : Evaluates eval n scope t w u x) :
    ∃ rest, vs = u :: rest ∧ Passes path (each (evalNoting path room) scope ts) x rest w' := by
  obtain ⟨v, rest, w₁, rfl, first, others⟩ := passes.cons
  obtain ⟨rfl, rfl⟩ := first.evaluates evaluates
  exact ⟨rest, rfl, others⟩

/-- No expressions give no values. -/
theorem nil (passes : Passes path (each (evalNoting path room) scope []) w vs w') :
    vs = [] ∧ w' = w :=
  passes.unique rfl

/-- Values of which none is an error are applied. -/
theorem applied (passes : Passes path (finish (evalNoting path room) scope (operator :: argument :: rest))
    w v w') (fine : (operator :: argument :: rest).find? (·.isError) = none) :
    Passes path (call (evalNoting path room) scope operator (argument :: rest)) w v w' := by
  simpa only [finish, fine] using passes

/-- Values among which there is an error give the first. -/
theorem failed (passes : Passes path (finish (evalNoting path room) scope vs) w v w') {u : Value}
    (failed : vs.find? (·.isError) = some u) : v = u ∧ w' = w := by
  refine passes.unique ?_
  simp only [finish, failed]
  rfl

/-- A list whose elements are known to evaluate passes on to the application of the first. -/
theorem call (passes : Passes path (evalNoting path room scope (.sexpr items)) w v w')
    (values : EvaluatesAll eval n scope items w (operator :: argument :: rest) w₁)
    (fine : (operator :: argument :: rest).find? (·.isError) = none) :
    ∃ less, room = less + 1 ∧
      Passes path (Run.call (evalNoting path less) scope operator (argument :: rest)) w₁ v w' := by
  obtain ⟨less, vs, w₂, rfl, first, second⟩ := passes.list
  -- The known evaluation has room enough, and unless the path is asked for, so has this one.
  have same : each (evalNoting path less) scope items w = (operator :: argument :: rest, w₁) := by
    have roomy := values (max less n) (Nat.le_max_right _ _)
    rw [← roomy]
    exact (((sameUnless path).each (sameUnless_eval (Nat.le_max_left _ _)) scope items).eq
      first.silent).symm
  obtain ⟨rfl, rfl⟩ := first.unique same
  exact ⟨less, rfl, second.applied fine⟩

/-- A conditional passes on to the branch that is selected. -/
theorem cond (passes : Passes path (Run.call (evalNoting path room) scope (.primitive .cond) arguments)
    w v w') (chosen : Primitive.cond.branch arguments = .ok items) :
    Passes path (evalNoting path room scope (.sexpr items)) w v w' := by
  have branch : orFail (Primitive.cond.branch arguments)
      (fun items => evalNoting path room scope (.sexpr items)) w = (v, w') := passes.ran
  rw [chosen] at branch
  exact ⟨branch, passes.quiet⟩

/-- The application of a function passes on to its body, where its formals are bound. -/
theorem lambda {names : List String} {body : List Value} (unmarked : variadicMarker ∉ names)
    (filled : names.length = arguments.length)
    (passes : Passes path (Run.call (evalNoting path room) scope
      (.lambda (.qexpr (names.map .symbol)) (.qexpr body) (some s)) arguments) w v w') :
    Passes path (evalNoting path room w.scopes.next (.sexpr body)) (w.entered s (names.zip arguments))
      v w' := by
  refine ⟨?_, passes.quiet⟩
  rw [← passes.ran]
  exact (call_filled unmarked filled _ _).symm

end Passes
end QLisp.Run
