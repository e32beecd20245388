import QLisp.Proofs.Shared.Depth
import QLisp.Proofs.Shared.Source

/-!
A limit that was not reached could have been any higher one.

To say that a run never reaches the limit, an alarm is sounded whenever a reduction is refused. If
sounding it makes no difference, whatever the alarm, then no reduction is refused. A run that stops
at the first refusal is parallel to a run under a higher limit.
-/

namespace QLisp

/-- A setting that allows more, or that asks for no limit, stands for a limit that is as high. -/
theorem World.limitOf_le {setting setting' : Int} (positive : 0 < setting)
    (raised : setting ≤ setting' ∨ setting' ≤ 0) : limitOf setting ≤ limitOf setting' := by
  have capped : min setting.toNat noLimit ≤ noLimit := Nat.min_le_right _ _
  rw [limitOf, limitOf, if_neg (by omega)]
  split
  · exact capped
  · omega

namespace Shared

namespace Act

variable {g g' : Gauge} {excused : Fault → Prop} {scope : ScopeId}

/-- Evaluators that are parallel evaluate a source in parallel. -/
theorem parallel_evaluateSourceBy {ev ev' : Evaluator}
    (same : ∀ scope v, Parallel g g' excused (ev scope v) (ev' scope v)) (source : Source) :
    Parallel g g' excused (evaluateSourceBy ev source) (evaluateSourceBy ev' source) := by
  -- Reading comes first and does not look at the limit.
  have reads : Parallel g g' excused (inWorld (Run.readSource source))
      (inWorld (Run.readSource source)) := by
    refine parallel_inWorld fun w limit => ?_
    cases source with
    | line bytes => rfl
    | text bytes => rfl
    | input input =>
      rw [Run.readSource]
      cases input.failure <;> rfl
    | file path =>
      simp only [Run.readSource, Bind.bind, StateT.bind, Run.readFile, modifyGet,
        MonadStateOf.modifyGet, StateT.modifyGet]
      cases w.files path <;> rfl
  refine reads.bind fun read => ?_
  cases read with
  | error e => exact parallel_pure _
  | ok expressions =>
    -- The expressions are evaluated alike, and the values are the answers.
    exact (parallel_each same Scopes.global expressions).bind fun _ => parallel_pure _

/-- Whether evaluating a handle is a reduction. -/
def reducible : Handle → Bool
  | .list .sexpr _ => true
  | .bareList .sexpr => true
  | _ => false

/-- Sounds an alarm if evaluating a handle is a reduction that the limit does not allow. -/
def warn (alarm : Act Unit) (v : Handle) : Act Unit := do
  let machine ← get
  if reducible v ∧ machine.world.limit ≤ machine.depth then alarm

/-- The alarm is sounded if a reduction is refused, and else nothing is done. -/
theorem warn_run (alarm : Act Unit) (v : Handle) (m : Machine) :
    warn alarm v m =
      (if reducible v ∧ m.world.limit ≤ m.depth then alarm else pure () : Act Unit) m := rfl

/-- Evaluates a handle as evaluation does, sounding an alarm whenever a reduction is refused. -/
def evalWarned (alarm : Act Unit) : Nat → Evaluator
  | 0 => fun scope v => do
    warn alarm v
    evalWith (fun _ => throw .unending) scope v
  | room + 1 => fun scope v => do
    warn alarm v
    evalWith (reduce (evalWarned alarm room) scope) scope v

/-- Evaluates a handle in a scope, sounding an alarm whenever a reduction is refused. -/
def evaluateWarned (alarm : Act Unit) (scope : ScopeId) (v : Handle) : Act Handle := do
  evalWarned alarm (← room) scope v

/-- What stops if a reduction is refused is parallel to what is so with reductions that are not. -/
theorem parallel_unrefused (fault : Fault) (v : Handle) {act act' : Act Handle}
    (goes : (reducible v → g.depth < g.limit) → Parallel g g' (· = fault) act act') :
    Parallel g g' (· = fault) (do warn (throw fault) v; act) act' := by
  intro m
  have warned : warn (throw fault) v (m.gauged g) =
    (if reducible v ∧ g.limit ≤ g.depth then throw fault else pure () : Act Unit)
    (m.gauged g) := warn_run (throw fault) v (m.gauged g)
  -- A refused reduction stops with the fault, and otherwise the warning does nothing.
  by_cases refused : reducible v ∧ g.limit ≤ g.depth
  · rw [if_pos refused] at warned
    simp only [Bind.bind, EStateM.bind, warned]
    exact .inl rfl
  · rw [if_neg refused] at warned
    simp only [Bind.bind, EStateM.bind, warned]
    exact goes (fun reduced => Nat.lt_of_not_le fun full => refused ⟨reduced, full⟩) m

/-- Evaluation that stops where a reduction is refused is parallel to one that refuses later. -/
theorem parallel_warned {reduce reduce' : CellId → Act Handle} (fault : Fault) (v : Handle)
    (roomier : g.depth < g.limit → g'.depth < g'.limit)
    (reduces : g.depth < g.limit → ∀ id,
      Parallel g.deeper g'.deeper (· = fault) (reduce id) (reduce' id)) :
    Parallel g g' (· = fault) (do warn (throw fault) v; evalWith reduce scope v)
      (evalWith reduce' scope v) := by
  refine parallel_unrefused fault v fun allowed => ?_
  -- Whatever is reduced is allowed to be, and then it is allowed on the other side too.
  have enters : ∀ {act act' : Act Handle}, reducible v →
      (g.depth < g.limit → Parallel g.deeper g'.deeper (· = fault) act act') →
      Parallel g g' (· = fault) (guarded act) (guarded act') := by
    intro act act' reduced inner
    have more := allowed reduced
    have more' := roomier more
    exact parallel_guarded (by omega) (by omega) inner
  refine parallel_evalWith v (fun id same => ?_) fun same => ?_
  · exact enters (same ▸ rfl) fun more => reduces more id
  · exact enters (same ▸ rfl) fun _ => parallel_pure _

/-- Evaluation that stops where a reduction is refused is parallel to one that has as much room. -/
theorem parallel_evalWarned (fault : Fault) {limit depth limit' depth' : Nat}
    (roomier : limit - depth ≤ limit' - depth') (scope : ScopeId) (v : Handle) :
    Parallel ⟨limit, depth⟩ ⟨limit', depth'⟩ (· = fault)
      (evalWarned (throw fault) (limit - depth) scope v) (eval (limit' - depth') scope v) := by
  -- The induction is on the reductions that may still be entered on the first side.
  induction left : limit - depth generalizing depth depth' scope v with
  | zero =>
    have parallel : ∀ reduce' : CellId → Act Handle, Parallel ⟨limit, depth⟩ ⟨limit', depth'⟩
        (· = fault) (evalWarned (throw fault) 0 scope v) (evalWith reduce' scope v) := fun reduce' =>
      parallel_warned fault v (by simp only; omega) (by simp only; omega)
    cases limit' - depth' <;> exact parallel _
  | succ room ih =>
    -- There is at least as much room on the second side.
    obtain ⟨room', left'⟩ : ∃ room', limit' - depth' = room' + 1 := ⟨limit' - depth' - 1, by omega⟩
    rw [left']
    have next : room' = limit' - (depth' + 1) := by omega
    have deeper : limit - (depth + 1) ≤ limit' - (depth' + 1) := by omega
    have less : limit - (depth + 1) = room := by omega
    refine parallel_warned fault v (by simp only; omega) fun _ id => ?_
    rw [next]
    exact parallel_reduce (fun scope v => ih deeper scope v less) scope id

/-- The same of evaluation in as much room as each limit leaves. -/
theorem parallel_evaluateWarned (fault : Fault) {limit limit' : Nat} (raised : limit ≤ limit')
    (depth : Nat) (scope : ScopeId) (v : Handle) :
    Parallel ⟨limit, depth⟩ ⟨limit', depth⟩ (· = fault) (evaluateWarned (throw fault) scope v)
      (evaluate scope v) :=
  parallel_evalWarned fault (Nat.sub_le_sub_right raised depth) scope v

/-- Some fault is not the one that an outcome ends with. -/
theorem exists_other_fault {α : Type} (outcome : EStateM.Result Fault Machine α) :
    ∃ fault, ∀ m, outcome ≠ .error fault m := by
  cases outcome with
  | ok a m => exact ⟨.unending, fun _ => nofun⟩
  | error found m =>
    by_cases same : found = .unending
    · exact ⟨.noScope, fun _ equal => by simp [same] at equal⟩
    · exact ⟨.unending, fun _ equal => same (by cases equal; rfl)⟩

end Act

/--
A program that does not reach the limit does the same under any higher limit, and under none.

That no reduction is refused, also in a file that is loaded, is said by an alarm: whatever is done
whenever a reduction is refused, it makes no difference. Then the sources give the same answers under
a higher limit, and leave the same machine but for that limit: the same containers, scopes and output.
-/
theorem limit_raised (m : Machine) (sources : List Source) {setting setting' : Int}
    (positive : 0 < setting) (raised : setting ≤ setting' ∨ setting' ≤ 0)
    (unreached : ∀ alarm, sources.mapM (Act.evaluateSourceBy (Act.evaluateWarned alarm))
        ((Act.setLimit setting).after m) =
      Act.evaluateSources sources ((Act.setLimit setting).after m)) :
    Act.evaluateSources sources ((Act.setLimit setting').after m) =
      match Act.evaluateSources sources ((Act.setLimit setting).after m) with
      | .ok answers m' => .ok answers ((Act.setLimit setting').after m')
      | .error fault m' => .error fault ((Act.setLimit setting').after m') := by
  -- Stopping at the first refusal, with a fault that the run does not end with, changes nothing.
  obtain ⟨fault, other⟩ :=
    Act.exists_other_fault (Act.evaluateSources sources ((Act.setLimit setting).after m))
  have parallel : Act.Parallel ⟨World.limitOf setting, m.depth⟩ ⟨World.limitOf setting', m.depth⟩
      (· = fault) (sources.mapM (Act.evaluateSourceBy (Act.evaluateWarned (throw fault))))
      (sources.mapM Act.evaluateSource) := by
    refine Act.parallel_mapM (fun source => ?_) sources
    rw [Act.evaluateSource_eq]
    have higher := World.limitOf_le positive raised
    exact Act.parallel_evaluateSourceBy (Act.parallel_evaluateWarned fault higher m.depth) source
  have ran := parallel m
  have lower : m.gauged ⟨World.limitOf setting, m.depth⟩ = (Act.setLimit setting).after m := rfl
  have higher : m.gauged ⟨World.limitOf setting', m.depth⟩ = (Act.setLimit setting').after m := rfl
  rw [lower, higher, unreached] at ran
  -- The runs end alike, and what the first leaves shows in the second under the higher limit.
  cases first : Act.evaluateSources sources ((Act.setLimit setting).after m) with
  | ok answers m' =>
    -- The first run has not been stopped, and so the second one ends like it.
    rw [first] at ran
    obtain ⟨gauge, second⟩ := ran
    have depth : m'.depth = m.depth := congrArg Gauge.depth gauge
    rw [← depth] at second
    exact second
  | error found m' =>
    rw [first] at ran
    have different : found ≠ fault := fun same => other m' (same ▸ first)
    obtain ⟨gauge, second⟩ := ran.resolve_left different
    have depth : m'.depth = m.depth := congrArg Gauge.depth gauge
    rw [← depth] at second
    exact second

/-- The text `(list ())` needs two reductions at once, and does the same when any number may be. -/
theorem limit_raised_nested :
    let m := Machine.withPrimitives fun _ => .error .missing
    let sources := [Source.text [40, 108, 105, 115, 116, 32, 40, 41, 41]]
    Act.evaluateSources sources ((Act.setLimit 0).after m) =
      match Act.evaluateSources sources ((Act.setLimit 2).after m) with
      | .ok answers m' => .ok answers ((Act.setLimit 0).after m')
      | .error fault m' => .error fault ((Act.setLimit 0).after m') :=
  limit_raised _ _ (by decide : (0 : Int) < 2) (.inr (by decide : (0 : Int) ≤ 0)) fun _ => rfl

end Shared
end QLisp
