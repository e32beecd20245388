import QLisp.Proofs.Shared.NormalForms
import QLisp.Shared.Script

/-!
Running a script in place.

A script is read as a whole before any of it is evaluated. Once it is read nothing stops it: each form
is evaluated on the machine that the one before it left, and the errors are reported at the end.
-/

namespace QLisp

namespace Script

/-- The source that a script is. -/
def source (path : Text.Bytes) (input : Input) : Source :=
  if path = inputName then .input input else .file path

/-- How a run ends that was answered with values, or with the reason why there are none. -/
def conclude : Except SourceError (List Value) → Outcome
  | .error e => ⟨1, report e.message⟩
  | .ok values => outcome values

/-- Running a script is evaluating its source and reporting what went wrong. -/
theorem run_eq (path : Text.Bytes) (input : Input) :
    run path input = do return conclude (← Run.evaluateSource (source path input)) := by
  rw [run, source]
  split
  · refine bind_congr fun answer => ?_
    cases answer <;> rfl
  · refine bind_congr fun answer => ?_
    cases answer <;> rfl

/-- What a run reports depends on the errors among its results alone. -/
theorem outcome_errors (values : List Value) :
    outcome (values.filter (·.isError)) = outcome values := by
  simp [outcome, List.filter_filter]

end Script

namespace Shared

variable {mine store : CellId → Prop} {m m' : Machine} {w : World Value} {path : Text.Bytes}
  {input : Input}

/-- Expressions are evaluated in the global scope, each on the machine that the one before it left. -/
inductive Performs : Machine → List Value → List Handle → Machine → Prop where
  | done {m : Machine} : Performs m [] [] m
  | next {m m₁ m' : Machine} {t : Value} {rest : List Value} {v : Handle} {results : List Handle}
    (first : (do Act.evaluate Scopes.global (← ListOp.place t) : Act Handle) m = .ok v m₁)
    (others : Performs m₁ rest results m') : Performs m (t :: rest) (v :: results) m'

namespace Act

/-- Evaluating expressions in order performs them. -/
theorem performs_each {expressions : List Value} {results : List Handle}
    (ran : each evaluate Scopes.global expressions m = .ok results m') :
    Performs m expressions results m' := by
  -- The induction is on the expressions; an error is a result like any other.
  induction expressions generalizing m results with
  | nil =>
    cases ran
    exact .done
  | cons t rest ih =>
    rw [each, List.mapM_cons] at ran
    cases first : (do evaluate Scopes.global (← ListOp.place t) : Act Handle) m with
    | error fault m₁ =>
      rw [bind_error first] at ran
      cases ran
    -- The first expression is evaluated, and then the others.
    | ok v m₁ =>
      rw [bind_ok first] at ran
      cases others : each evaluate Scopes.global rest m₁ with
      | error fault m₂ =>
        rw [← each, bind_error others] at ran
        cases ran
      | ok vs m₂ =>
        rw [← each, bind_ok others] at ran
        cases ran
        exact .next first (ih others)

/-- Running a script in place is evaluating its source and reporting what went wrong. -/
theorem runScript_eq (path : Text.Bytes) (input : Input) :
    runScript path input = (do conclude (← evaluateSource (Script.source path input))) := by
  rw [runScript, Script.source]
  split <;> rfl

/-- Of a source that cannot be read nothing is evaluated. -/
theorem evaluateSource_unread {source : Source} {e : SourceError}
    (unread : source.read m.world.files = .error e) :
    evaluateSource source m = .ok (.error e) (m.asking source.paths) := by
  have opened := readSource_ran source m
  rw [unread] at opened
  rw [evaluateSource_eq, evaluateSourceBy, bind_ok opened]
  rfl

/-- Of a source that can be read every expression is evaluated, in order. -/
theorem evaluateSource_read {source : Source} {expressions : List Value}
    (read : source.read m.world.files = .ok expressions) :
    evaluateSource source m = (do
      return .ok (← each evaluate Scopes.global expressions) : Act _) (m.asking source.paths) := by
  have opened := readSource_ran source m
  rw [read] at opened
  rw [evaluateSource_eq, evaluateSourceBy, bind_ok opened]
  rfl

/-- Running a script in place follows running it. -/
theorem follows_runScript (path : Text.Bytes) (input : Input) (mirrors : Mirrors True mine store m w)
    (idle : m.depth = 0) :
    Follows True mine store m w (runScript path input) (Script.run path input)
      fun _ _ outcome outcome' => outcome = outcome' := by
  have ready : Ready m.world.limit 0 m Scopes.global := ⟨mirrors.global, rfl, idle⟩
  rw [runScript_eq, Script.run_eq]
  refine (follows_evaluateSource mirrors ready _).bind fun store₁ m₁ answer mirrors₁ _ answers => ?_
  -- The source is read on both sides or on neither.
  cases answer with
  | error e =>
    cases given : (Run.evaluateSource (Script.source path input) w).1 with
    | error e' =>
      rw [given] at answers
      obtain rfl : e = e' := answers
      exact follows_pure mirrors₁ rfl
    | ok values =>
      rw [given] at answers
      exact answers.elim
  | ok results =>
    cases given : (Run.evaluateSource (Script.source path input) w).1 with
    | error e =>
      rw [given] at answers
      exact answers.elim
    | ok values =>
      rw [given] at answers
      -- The errors are told as they are seen, and the others are dropped.
      refine .congr ?_ (bind_ok (views_errors answers) _)
      exact follows_pure mirrors₁ (Script.outcome_errors values)

end Act

/-- The outcome of a script from the errors among its results. -/
theorem outcome_views (h : Heap) (results : List Handle) :
    Script.outcome ((results.filter (·.isError)).map h.view) =
      ⟨if results.any (·.isError) then 1 else 0,
        (results.filter (·.isError)).flatMap fun v =>
          Text.encode "risp: " ++ (h.view v).render ++ Text.encode "\n"⟩ := by
  -- Filtering the errors once more changes nothing.
  have errors : ((results.filter (·.isError)).map h.view).filter (·.isError) =
      (results.filter (·.isError)).map h.view := by
    refine List.filter_eq_self.mpr fun t member => ?_
    obtain ⟨v, found, rfl⟩ := List.mem_map.mp member
    exact (h.isError_view v).trans (List.mem_filter.mp found).2
  have none : (results.filter (·.isError)).isEmpty = !results.any (·.isError) := by
    rw [Bool.eq_iff_iff]
    simp
  rw [Script.outcome, errors, List.isEmpty_map, none, List.flatMap_map]
  cases results.any (·.isError) <;> rfl

/-- A script that can be read and is run to its end has been performed, and its errors reported. -/
theorem performs_runScript {expressions : List Value} {outcome : QLisp.Outcome}
    (read : (Script.source path input).read m.world.files = .ok expressions)
    (ran : Act.runScript path input m = .ok outcome m') :
    ∃ results, Performs (m.asking (Script.source path input).paths) expressions results m' ∧
      outcome = ⟨if results.any (·.isError) then 1 else 0,
        (results.filter (·.isError)).flatMap fun v =>
          Text.encode "risp: " ++ (m'.heap.view v).render ++ Text.encode "\n"⟩ := by
  rw [Act.runScript_eq] at ran
  cases evaluated : Act.each Act.evaluate Scopes.global expressions
      (m.asking (Script.source path input).paths) with
  -- A fault would be one of the run, which has ended.
  | error fault m₁ =>
    have answered := (Act.evaluateSource_read read).trans (Act.bind_error evaluated _)
    rw [Act.bind_error answered] at ran
    cases ran
  | ok results m₁ =>
    have answered := (Act.evaluateSource_read read).trans (Act.bind_ok evaluated _)
    rw [Act.bind_ok answered, Act.conclude] at ran
    -- Looking at the errors changes nothing, so the machine is the one that the last form left.
    have looked : Act.views (results.filter (·.isError)) m₁ = _ := Act.views_run _
    split at looked
    · rw [Act.bind_ok looked, outcome_views] at ran
      cases ran
      exact ⟨results, Act.performs_each evaluated, rfl⟩
    · rw [Act.bind_error looked] at ran
      cases ran

/--
A script is evaluated as a whole or not at all, and an error in it stops nothing.

Any requests to a session are carried out without a fault, and on the machine that they leave any
script ends, with the outcome of the script on immutable values. If it cannot be read, then one
message is reported, the status is one, and all that has happened is that its path has been asked for.
If it can be read, then every form is evaluated once and in order, in the global scope, on the machine
that the form before it left, whatever that one gave. The errors among the results are reported in
order, each on a line of its own behind the name of the program, and the status is one if there are any
and zero if there are none. No reduction is in progress after it that was not before.
-/
theorem script_performs_forms (files : Files) (requests : List Request) (path : Text.Bytes)
    (input : Input) :
    ∃ m, requests.forM Act.perform (Machine.standard files) = .ok () m ∧
      ∃ outcome m', Act.runScript path input m = .ok outcome m' ∧ m'.depth = m.depth ∧
        outcome = (Script.run path input
          (Run.after (requests.forM Request.perform) (World.standard files))).1 ∧
        (∀ e, (Script.source path input).read m.world.files = .error e →
          outcome = ⟨1, Text.encode "risp: " ++ e.message ++ Text.encode "\n"⟩ ∧
            m' = m.asking (Script.source path input).paths) ∧
        ∀ expressions, (Script.source path input).read m.world.files = .ok expressions →
          ∃ results, Performs (m.asking (Script.source path input).paths) expressions results m' ∧
            outcome = ⟨if results.any (·.isError) then 1 else 0,
              (results.filter (·.isError)).flatMap fun v =>
                Text.encode "risp: " ++ (m'.heap.view v).render ++ Text.encode "\n"⟩ := by
  obtain ⟨_, _, mirrors, idle⟩ := mirrors_standard files
  obtain ⟨m, store, ran, mirrors, idle⟩ := mirrors.session requests idle
  -- The script is followed on values, so it ends with their outcome.
  obtain ⟨outcome, m', _, ended, _, moves, same⟩ :=
    (Act.follows_runScript path input mirrors idle).ok
  refine ⟨m, ran, outcome, m', ended, moves.depth, same, fun e unread => ?_, fun expressions read =>
    performs_runScript read ended⟩
  -- A script that is not read evaluates nothing.
  rw [Act.runScript_eq, Act.bind_ok (Act.evaluateSource_unread unread)] at ended
  cases ended
  exact ⟨rfl, rfl⟩

end Shared
end QLisp
