import QLisp.Proofs.Shared.Keeping
import QLisp.Proofs.Shared.Parallel

/-!
The count of reductions in progress.

Every computation leaves the count as it found it, also when it faults. To say what the count is
while an evaluation runs, an evaluator is watched: it knows from its own recursion how many
reductions it is inside, and an alarm goes off when the machine has counted otherwise. No alarm ever
goes off.
-/

namespace QLisp.Shared

/-- The gauge with one more reduction in progress. -/
def Gauge.deeper (g : Gauge) : Gauge := ⟨g.limit, g.depth + 1⟩

/-- A machine that has as many reductions in progress as nested ones has one fewer after them. -/
theorem Machine.gauge_shallower {g : Gauge} {m : Machine} (same : m.gauge = g.deeper) :
    ({ m with depth := m.depth - 1 } : Machine).gauge = g := by
  have limit : m.world.limit = g.limit := congrArg Gauge.limit same
  have depth : m.depth = g.depth + 1 := congrArg Gauge.depth same
  rw [gauge, limit, depth, Nat.add_sub_cancel]

namespace Act

variable {g g' : Gauge} {excused : Fault → Prop} {α : Type} {m : Machine}

/-- Computations that are parallel with one more reduction in progress are so when nested. -/
theorem parallel_nested {act act' : Act α}
    (inner : Parallel g.deeper g'.deeper excused act act') :
    Parallel g g' excused (nested act) (nested act') := by
  intro m
  have deep : ∀ g : Gauge, { m.gauged g with depth := (m.gauged g).depth + 1 } = m.gauged g.deeper :=
    fun _ => rfl
  have ran := inner m
  -- Whether it ends or faults, the reduction is no longer in progress afterwards.
  cases first : act (m.gauged g.deeper) with
  | ok a m₁ =>
    rw [first] at ran
    obtain ⟨same, second⟩ := ran
    rw [nested_ok (deep g ▸ first), nested_ok (deep g' ▸ second)]
    exact ⟨Machine.gauge_shallower same, rfl⟩
  | error fault m₁ =>
    rw [first] at ran
    rw [nested_error (deep g ▸ first)]
    -- A fault is the same on both sides, unless it is excused.
    rcases ran with excuse | ⟨same, second⟩
    · exact .inl excuse
    · rw [nested_error (deep g' ▸ second)]
      exact .inr ⟨Machine.gauge_shallower same, rfl⟩

/-- A computation that is parallel with one more reduction in progress is so when nested. -/
theorem parallel_nested_left {act act' : Act α} (inner : Parallel g.deeper g' excused act act') :
    Parallel g g' excused (nested act) act' := by
  intro m
  -- One level deeper the machine shows the deeper gauge.
  have deep : { m.gauged g with depth := (m.gauged g).depth + 1 } = m.gauged g.deeper := rfl
  have ran := inner m
  cases first : act (m.gauged g.deeper) with
  | ok a m₁ =>
    rw [first] at ran
    rw [nested_ok (deep ▸ first)]
    exact ⟨Machine.gauge_shallower ran.1, ran.2⟩
  | error fault m₁ =>
    rw [first] at ran
    rw [nested_error (deep ▸ first)]
    exact ran.imp_right fun ⟨same, second⟩ => ⟨Machine.gauge_shallower same, second⟩

/-- Reductions that both give up at one limit, or that are both carried out, are parallel. -/
theorem parallel_guarded {act act' : Act Handle}
    (agree : g.limit ≤ g.depth ↔ g'.limit ≤ g'.depth)
    (limit : g.limit ≤ g.depth → g.limit = g'.limit)
    (inner : g.depth < g.limit → Parallel g.deeper g'.deeper excused act act') :
    Parallel g g' excused (guarded act) (guarded act') := by
  -- Either both reductions give up, saying the same, or both are one deeper.
  intro m
  have here : guarded act (m.gauged g) = (if g.limit ≤ g.depth
    then pure (.error (.tooDeep g.limit)) else nested act : Act Handle) (m.gauged g) := rfl
  have there : guarded act' (m.gauged g') = (if g'.limit ≤ g'.depth
    then pure (.error (.tooDeep g'.limit)) else nested act' : Act Handle) (m.gauged g') := rfl
  rw [here, there]
  -- Both gauges are full, or neither is.
  by_cases full : g.limit ≤ g.depth
  · rw [if_pos full, if_pos (agree.mp full), ← limit full]
    have given : ∀ result : Handle, Parallel g g' excused (pure result) (pure result) :=
      parallel_pure
    exact given _ m
  -- With room left both reductions are carried out, one level deeper.
  · rw [if_neg full, if_neg fun other => full (agree.mpr other)]
    exact parallel_nested (inner (Nat.lt_of_not_le full)) m

/-- Evaluation is parallel when the reduction of a handle is, if it is one that is reduced. -/
theorem parallel_evalWith {reduce reduce' : CellId → Act Handle} {scope : ScopeId} (v : Handle)
    (reduces : ∀ id, v = .list .sexpr id →
      Parallel g g' excused (guarded (reduce id)) (guarded (reduce' id)))
    (bare : v = .bareList .sexpr → Parallel g g' excused (guarded (pure (.bareList .sexpr)))
      (guarded (pure (.bareList .sexpr)))) :
    Parallel g g' excused (evalWith reduce scope v) (evalWith reduce' scope v) := by
  -- Only a list in round brackets is reduced; nothing else looks at the gauge.
  cases v with
  | symbol name => exact parallel_lookup scope name
  | list kind id =>
    cases kind with
    | sexpr => exact reduces id rfl
    | qexpr => exact parallel_pure _
  | bareList kind =>
    cases kind with
    | sexpr => exact bare rfl
    | qexpr => exact parallel_pure _
  | _ => exact parallel_pure _

/-- With one gauge on both sides, evaluation is parallel when reduction is with one more in progress. -/
theorem parallel_evalWith_deeper {reduce reduce' : CellId → Act Handle} {scope : ScopeId}
    (v : Handle)
    (reduces : g.depth < g.limit → ∀ id, Parallel g.deeper g.deeper excused (reduce id) (reduce' id)) :
    Parallel g g excused (evalWith reduce scope v) (evalWith reduce' scope v) :=
  parallel_evalWith v
    (fun id _ => parallel_guarded Iff.rfl (fun _ => rfl) fun room => reduces room id)
    fun _ => parallel_guarded Iff.rfl (fun _ => rfl) fun _ => parallel_pure _

/-- Evaluation with any room leaves the gauge as it is. -/
theorem parallel_eval (room : Nat) (scope : ScopeId) (v : Handle) :
    Parallel g g excused (eval room scope v) (eval room scope v) := by
  -- A reduction evaluates with one room less and one more reduction in progress.
  induction room generalizing g scope v with
  | zero => exact parallel_evalWith_deeper v fun _ _ => parallel_throw _
  | succ room ih => exact parallel_evalWith_deeper v fun _ id => parallel_reduce ih scope id

/-- Evaluation takes as much room as the gauge leaves. -/
theorem parallel_evaluate (scope : ScopeId) (v : Handle) :
    Parallel g g excused (evaluate scope v) (eval (g.limit - g.depth) scope v) :=
  parallel_eval (g.limit - g.depth) scope v

/-- Computations that are parallel with one gauge do the same on machines with that gauge. -/
theorem Parallel.eq {act act' : Act α} (parallel : Parallel g g (fun _ => False) act act')
    (same : m.gauge = g) : act' m = act m := by
  -- Both runs start on the machine itself, since it has the gauge already.
  subst same
  have ran := parallel m
  rw [Machine.gauged_gauge] at ran
  -- In step with itself a run ends in the same way and shows the same gauge.
  cases first : act m with
  | ok a m₁ =>
    rw [first] at ran
    rw [ran.2, ← ran.1, Machine.gauged_gauge]
  | error fault m₁ =>
    rw [first] at ran
    have ⟨gauge, second⟩ := ran.resolve_left id
    rw [second, ← gauge, Machine.gauged_gauge]

/-- A computation that is parallel to some other leaves the gauge as it is. -/
theorem Parallel.gauge_after {act act' : Act α}
    (parallel : Parallel m.gauge m.gauge (fun _ => False) act act') :
    (act.after m).gauge = m.gauge := by
  -- No fault is excused, so the first run is one that leaves the gauge.
  have ran := parallel m
  rw [Machine.gauged_gauge] at ran
  rw [after]
  cases first : act m with
  | ok a m₁ =>
    rw [first] at ran
    exact ran.1
  | error fault m₁ =>
    rw [first] at ran
    exact (ran.resolve_left id).1

/-- Evaluation leaves the gauge as it is. -/
theorem gauge_evaluate (scope : ScopeId) (v : Handle) (m : Machine) :
    ((evaluate scope v).after m).gauge = m.gauge :=
  (parallel_evaluate scope v).gauge_after

/-- Applying an operator leaves the gauge as it is. -/
theorem gauge_apply (scope : ScopeId) (operator arguments : Handle) (m : Machine) :
    ((apply scope operator arguments).after m).gauge = m.gauge := by
  have parallel : Parallel m.gauge m.gauge (fun _ => False)
      (call (eval (m.world.limit - m.depth)) scope operator arguments)
      (call (eval (m.world.limit - m.depth)) scope operator arguments) :=
    parallel_call (parallel_eval (m.world.limit - m.depth)) scope operator arguments
  exact parallel.gauge_after

/--
Evaluation satisfies its own recursive equation.

What bounds the recursion is not to be seen in it: the limit refuses a reduction before the room for
one has run out.
-/
theorem evaluate_eq (scope : ScopeId) (v : Handle) (m : Machine) :
    evaluate scope v m = evalWith (reduce evaluate scope) scope v m := by
  have unfolded : Parallel m.gauge m.gauge (fun _ => False) (evalWith (reduce evaluate scope) scope v)
      (eval (m.gauge.limit - m.gauge.depth) scope v) := by
    -- The room that is left is counted down, in step with the depth.
    cases left : m.gauge.limit - m.gauge.depth with
    | zero => exact parallel_evalWith_deeper v fun room _ => by omega
    | succ room =>
      refine parallel_evalWith_deeper v fun _ id => parallel_reduce (fun scope v => ?_) scope id
      have less : room = m.gauge.deeper.limit - m.gauge.deeper.depth := by
        simp only [Gauge.deeper]
        omega
      -- The room that is left one level deeper is one less.
      rw [less]
      exact parallel_evaluate scope v
  exact unfolded.eq rfl

/-! A watched evaluator. -/

/-- Sounds an alarm unless as many reductions are in progress as expected, and no more than allowed. -/
def watch (alarm : Act Unit) (expected : Nat) : Act Unit := do
  let machine ← get
  if machine.depth = expected ∧ expected ≤ machine.world.limit then return else alarm

/-- Watches the machine before and after a computation. -/
def watched (alarm : Act Unit) (expected : Nat) (act : Act Handle) : Act Handle := do
  watch alarm expected
  let result ← act
  watch alarm expected
  return result

/--
Evaluates a handle inside a number of reductions, with room for a number of further ones.

The machine is watched before and after every evaluation, with the reductions that it is inside, and
at the beginning and the end of every reduction, with one more.
-/
def evalWatched (alarm : Act Unit) (inside : Nat) : Nat → Evaluator
  | 0 => fun scope v => watched alarm inside (evalWith (fun _ => throw .unending) scope v)
  | room + 1 => fun scope v => watched alarm inside <| evalWith (fun id =>
      watched alarm (inside + 1) (reduce (evalWatched alarm (inside + 1) room) scope id)) scope v

/-- No alarm is sounded on a machine with the expected gauge. -/
theorem parallel_watched (alarm : Act Unit) (fits : g.depth ≤ g.limit) {act act' : Act Handle}
    (parallel : Parallel g g excused act act') :
    Parallel g g excused act (watched alarm g.depth act') := by
  -- The count is as expected before the computation, which leaves the gauge as it is.
  have quiet : Parallel g g excused (pure ()) (watch alarm g.depth) := by
    intro m
    refine ⟨rfl, ?_⟩
    show (if g.depth = g.depth ∧ g.depth ≤ g.limit then pure () else alarm : Act Unit) (m.gauged g) = _
    rw [if_pos ⟨rfl, fits⟩]
    rfl
  have given : ∀ result : Handle, Parallel g g excused (pure result) (pure result) := parallel_pure
  have around := quiet.bind fun _ => parallel.bind fun result => quiet.bind fun _ => given result
  simpa only [watched, pure_bind, bind_pure] using around

/-- A watched evaluator does what evaluation does, and sounds no alarm. -/
theorem parallel_evalWatched (alarm : Act Unit) (room : Nat) (fits : g.depth ≤ g.limit)
    (scope : ScopeId) (v : Handle) :
    Parallel g g excused (eval room scope v) (evalWatched alarm g.depth room scope v) := by
  induction room generalizing g scope v with
  | zero =>
    exact parallel_watched alarm fits (parallel_evalWith_deeper v fun _ _ => parallel_throw _)
  | succ room ih =>
    refine parallel_watched alarm fits (parallel_evalWith_deeper v fun more id => ?_)
    -- The reduction was allowed, so with it there are no more than the limit.
    have fits' : g.deeper.depth ≤ g.deeper.limit := more
    exact parallel_watched alarm fits' (parallel_reduce (ih fits') scope id)

end Act

namespace HostM

variable {α : Type}

/-- Whatever its outcome, a command leaves the count of reductions in progress as it is. -/
def KeepsDepth (act : HostM α) : Prop :=
  ∀ host : Host, (host.afterRunning act).machine.depth = host.machine.depth

/-- A computation that does not look at the gauge leaves the count as it is. -/
theorem keepsDepth_parallel {act : Act α}
    (parallel : ∀ g, Act.Parallel g g (fun _ => False) act act) : KeepsDepth (onMachine act) :=
  keeps_onMachine fun m => congrArg Gauge.depth (parallel m.gauge).gauge_after

/-- Evaluation leaves the count as it is. -/
theorem keepsDepth_evaluate (scope : ScopeId) (v : Handle) :
    KeepsDepth (onMachine (Act.evaluate scope v)) :=
  keeps_onMachine fun m => congrArg Gauge.depth (Act.gauge_evaluate scope v m)

/-- Reading an operand leaves the count as it is. -/
theorem keepsDepth_operand (source : Operand) : KeepsDepth (operand source) :=
  keeps_operand Machine.depth (fun _ _ => rfl) source

/-- Every command that gives a value leaves the count as it is. -/
theorem keepsDepth_make (maker : Maker) : KeepsDepth (make maker) := by
  cases maker with
  | eval source scope =>
    exact Keeps.bind (keepsDepth_operand source) fun v host => keepsDepth_evaluate _ v host
  | call operator arguments scope =>
    refine Keeps.bind (keepsDepth_operand arguments) fun given host => ?_
    exact keeps_onMachine (fun m => congrArg Gauge.depth (Act.gauge_apply _ _ given m)) host
  | _ => exact keeps_make Machine.depth (fun _ _ => rfl) "" rfl

/-- Every command that gives an answer leaves the count as it is. -/
theorem keepsDepth_ask (query : Query) : KeepsDepth (ask query) := by
  -- Scopes, bindings and evaluations are looked at one by one; other commands only read.
  cases query with
  | extend name parent =>
    refine keeps_get fun host => ?_
    have entered : KeepsDepth (onMachine (Act.enter (host.scope? parent))) :=
      keepsDepth_parallel fun _ => Act.parallel_enter _
    exact Keeps.bind entered fun _ => Keeps.bind (fun _ => rfl) fun _ => keeps_pure _
  -- A binding copies the value, which is no reduction.
  | bind name key value =>
    refine Keeps.onScope name fun id => (keeps_register value).bind fun v => ?_
    exact Keeps.bind (keepsDepth_parallel fun _ => Act.parallel_bind id key v) fun _ => keeps_pure _
  | bindRoot name key value =>
    refine Keeps.onScope name fun id => (keeps_register value).bind fun v => ?_
    exact Keeps.bind (keepsDepth_parallel fun _ => Act.parallel_bindRoot id key v) fun _ =>
      keeps_pure _
  -- An evaluation goes as deep as it likes, and comes back.
  | evalAll values name =>
    refine keeps_get fun host => (keeps_mapM (fun value => ?_) values).bind fun _ =>
      keeps_get fun _ => keeps_pure _
    exact (keeps_register value).bind fun v => keepsDepth_evaluate _ v
  -- The limit is another part of the gauge.
  | setLimit setting => exact (keeps_onMachine fun _ => rfl).bind fun _ => keeps_pure _
  | _ => exact keeps_ask Machine.depth (fun _ _ => rfl) rfl

/-- Keeping the result of a command in a register leaves the count as it is. -/
theorem keepsDepth_makeInto (target : String) (maker : Maker) :
    KeepsDepth (makeInto target maker) :=
  Keeps.makeInto (keepsDepth_make maker) target

end HostM

/-- Any commands leave the count of reductions in progress as it is. -/
theorem Host.depth_run (host : Host) (commands : List Command) :
    (host.run commands).machine.depth = host.machine.depth := by
  induction commands generalizing host with
  | nil => rfl
  | cons command rest ih =>
    refine (ih (host.after command)).trans ?_
    cases command with
    | make target maker => exact HostM.keepsDepth_makeInto target maker host
    | ask query => exact HostM.keepsDepth_ask query host

/--
The count of reductions in progress is exact, and is restored by every request.

Whatever commands are given to a host, and however they end, nothing of its machine is changed but
the world and the heap, so later ones go on as if no reduction had ever been begun. While a machine
that was idle evaluates, applies an operator or evaluates values in order, the count is the number of
reductions that the evaluation is inside, and it is at most the limit, at the beginning and the end
of every evaluation and of every reduction: an alarm that is sounded otherwise changes nothing,
whatever it would do.
-/
theorem depth_accounted :
    (∀ (host : Host) (commands : List Command),
      (host.run commands).machine = { host.machine with
        world := (host.run commands).machine.world
        heap := (host.run commands).machine.heap }) ∧
    ∀ (alarm : Act Unit) (m : Machine) (scope : ScopeId),
      let idle := { m with depth := 0 }
      let watched := Act.evalWatched alarm 0 m.world.limit
      (∀ v, watched scope v idle = Act.evaluate scope v idle) ∧
      (∀ operator arguments, Act.call watched scope operator arguments idle =
        Act.apply scope operator arguments idle) ∧
      ∀ values : List Handle, values.mapM (watched scope) idle =
        values.mapM (Act.evaluate scope) idle := by
  refine ⟨fun host commands => ?_, fun alarm m scope => ?_⟩
  · have same := host.depth_run commands
    exact congrArg (Machine.mk _ _) same
  · intro idle watched
    -- The machine is idle, so the limit is all the room there is.
    have parallel : ∀ scope v, Act.Parallel ⟨m.world.limit, 0⟩ ⟨m.world.limit, 0⟩ (fun _ => False)
        (Act.eval m.world.limit scope v) (watched scope v) := fun scope v =>
      Act.parallel_evalWatched alarm m.world.limit (Nat.zero_le _) scope v
    have plain : ∀ v, Act.Parallel ⟨m.world.limit, 0⟩ ⟨m.world.limit, 0⟩ (fun _ => False)
        (Act.eval m.world.limit scope v) (Act.evaluate scope v) := fun v =>
      Act.parallel_eval m.world.limit scope v
    refine ⟨fun v => ?_, fun operator arguments => ?_, fun values => ?_⟩
    -- A value, a call and a list of values are watched in the same way.
    · exact (parallel scope v).eq rfl
    · exact (Act.parallel_call parallel scope operator arguments).eq rfl
    · exact ((Act.parallel_mapM (parallel scope) values).eq rfl).trans
        ((Act.parallel_mapM plain values).eq rfl).symm

end QLisp.Shared
