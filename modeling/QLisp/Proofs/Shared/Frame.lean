import QLisp.Proofs.Shared.Confinement
import QLisp.Proofs.Shared.Reachable

/-!
Which scopes an evaluation changes.

An evaluation writes in its own scope and in outermost ones. The call of a function and a block run
in a scope that they make, so they change no scope that was there but outermost ones. An assignment
changes the scope that it is carried out in and no other, and in a body or a block that is none of
the scopes that were there, outermost ones included.
-/

namespace QLisp.Shared

/-- The value that a scope itself gives a name. -/
def Machine.binding? (m : Machine) (id : ScopeId) (name : String) : Option Value :=
  (m.world.scopes.local? id name).map m.heap.view

/-- A scope has no parent. -/
def Machine.Outermost (m : Machine) (id : ScopeId) : Prop :=
  m.world.scopes.parent? id = none

/-- Scopes keep their parents, and all but the changed ones keep their bindings. -/
structure Machine.Frames (m : Machine) (changed : ScopeId → Prop) (m' : Machine) : Prop where
  /-- No scope is lost. -/
  made : ∀ id, m.world.scopes.Made id → m'.world.scopes.Made id
  /-- No parent is changed. -/
  parents : ∀ id, m.world.scopes.Made id → m'.world.scopes.parent? id = m.world.scopes.parent? id
  /-- No binding of any other scope is changed, made or lost. -/
  bindings : ∀ id, m.world.scopes.Made id → ¬ changed id → ∀ name,
    m'.binding? id name = m.binding? id name

variable {may : ScopeId → Prop} {kept kept' : CellId → Prop} {m m' : Machine}

/-- A name that is bound to the same handle after some steps has the same value. -/
theorem Step.binding? (isolated : Isolated kept m) (step : Step may kept m kept' m') {id : ScopeId}
    {name : String} (same : m'.world.scopes.local? id name = m.world.scopes.local? id name) :
    m'.binding? id name = m.binding? id name := by
  simp only [Machine.binding?, same]
  cases found : m.world.scopes.local? id name with
  | none => rfl
  | some v =>
    simp [step.view_bound isolated found]

/-- When a name has been bound to a copy of a value, that is its value, and no other's has changed. -/
theorem Step.binding?_bind (isolated : Isolated kept m) (step : Step may kept m kept' m')
    {scope : ScopeId} (made : m.world.scopes.Made scope) {name : String} {t : Value}
    (scopes : m'.world.scopes = m.world.scopes.bind scope name (m.heap.place t).1)
    (heap : m'.heap = (m.heap.place t).2) (id : ScopeId) (key : String) :
    m'.binding? id key = if id = scope ∧ key = name then some t else m.binding? id key := by
  by_cases here : id = scope ∧ key = name
  · rw [if_pos here, Machine.binding?, scopes, Scopes.local?_bind, if_pos ⟨here.1, here.2, made⟩,
      heap, Option.map_some, Heap.view_place]
  · -- Every other binding is the handle that it was.
    rw [if_neg here]
    refine step.binding? isolated ?_
    rw [scopes, Scopes.local?_bind, if_neg fun found => here ⟨found.1, found.2.1⟩]

/-- What looking a name up gives is its value in the nearest scope that binds it. -/
theorem Isolated.gives_iff_binding? (isolated : Isolated kept m) {scope : ScopeId} {name : String}
    {t : Value} : m.Gives scope name t ↔
      ((m.world.scopes.chain scope).findSome? (m.binding? · name)).getD (.error (.unbound name)) =
        t := by
  rw [isolated.gives_iff, Scopes.lookup?, List.map_findSome?]
  rfl

/-- Steps frame every scope but outermost ones and those that they may write in. -/
theorem Step.frames (isolated : Isolated kept m) (step : Step may kept m kept' m') :
    m.Frames (fun id => may id ∨ m.Outermost id) m' where
  made _ := step.made
  parents _ := step.parent?
  bindings id made fixed name := by
    obtain ⟨writes, written, inside⟩ := step.written
    exact step.binding? isolated (written.local? fun write => fixed (inside _ write made))

namespace Act

variable {α β : Type} {P : Scopes Handle → Prop}

/-- Whatever its outcome, a computation leaves the scopes with a property that they had. -/
def Preserves (P : Scopes Handle → Prop) (act : Act α) : Prop :=
  ∀ m, P m.world.scopes → P (act.after m).world.scopes

/-- A list operation leaves the scopes alone. -/
theorem preserves_lift (op : ListOp α) : (liftM op : Act α).Preserves P := by
  intro m holds
  simp only [after, lift_run]
  cases op m.heap <;> exact holds

/-- A result that needs no work leaves the scopes alone. -/
theorem preserves_pure (a : α) : (pure a : Act α).Preserves P :=
  fun _ holds => holds

/-- A property that is preserved twice in a row is preserved. -/
theorem Preserves.bind {act : Act α} {next : α → Act β} (first : act.Preserves P)
    (second : ∀ a, (next a).Preserves P) : (act >>= next).Preserves P := by
  -- What the first part preserves is still there for the second.
  intro m holds
  have early := first m holds
  simp only [after, Bind.bind, EStateM.bind] at early ⊢
  cases ran : act m with
  | ok a m' =>
    simp only [ran] at early
    exact second a m' early
  | error fault m' => simpa only [ran] using early

/-- Going on with a result or ending with a failure preserves what going on does. -/
theorem preserves_orFail (result : Except Failure α) {next : α → Act Handle}
    (safe : ∀ a, (next a).Preserves P) : (orFail result next).Preserves P := by
  cases result with
  | ok a => exact safe a
  | error failure => exact preserves_pure _

/-- Binding a name in a scope leaves every other scope alone. -/
theorem preserves_bind {scope id : ScopeId} (different : id ≠ scope) (key name : String)
    (v : Handle) (old : Option Handle) :
    (bind scope name v).Preserves fun scopes => scopes.local? id key = old := by
  intro m holds
  -- Binding changes the one scope, or it misses and changes nothing.
  by_cases found : m.world.scopes.Made scope ∧ m.heap.ends v
  · simp only [after, bind_made found.1 name found.2, Scopes.local?_bind]
    rw [if_neg fun here => different here.1]
    exact holds
  · obtain ⟨fault, missed⟩ := bind_missed name found
    simp only [after, missed]
    exact holds

/-- Binding the names of the first argument preserves what each binding does. -/
theorem preserves_bindNames {put : String → Handle → Act Unit}
    (safe : ∀ name v, (put name v).Preserves P) (p : Primitive) (arguments : Handle) :
    (bindNames put p arguments).Preserves P := by
  -- Each name takes the argument at the next index.
  have each : ∀ (names : List String) (index : Nat),
      (bindFrom put arguments index names).Preserves P := by
    intro names
    induction names with
    | nil => exact fun _ => preserves_pure ()
    | cons name rest ih =>
      exact fun index => (preserves_lift _).bind fun v => (safe name v).bind fun _ => ih (index + 1)
  -- The first argument is looked at, and the names are read from it.
  refine (preserves_lift _).bind fun _ => preserves_orFail _ fun _ => ?_
  refine (preserves_lift _).bind fun _ => (preserves_lift _).bind fun _ => ?_
  refine preserves_orFail _ fun names => (preserves_lift _).bind fun values => ?_
  split
  · exact (each names 0).bind fun _ => preserves_lift _
  · exact preserves_pure _

/-- The call of a function frames every scope but outermost ones. -/
theorem frames_applyLambda (isolated : Isolated kept m) {formals body : Handle}
    {captured : Option ScopeId} {arguments : Handle}
    (function : Loose kept m (.lambda formals body captured)) (loose : Loose kept m arguments)
    (scope : ScopeId) :
    m.Frames m.Outermost ((apply scope (.lambda formals body captured) arguments).after m) := by
  have safe : Isolating (fun _ => False) kept m
      (call (eval (m.world.limit - m.depth)) scope (.lambda formals body captured) arguments)
      Loose :=
    isolating_applyLambda (isolatingEvaluator_eval (m.world.limit - m.depth)) isolated function
      loose
  obtain ⟨kept', step⟩ := (safe.congr (apply_run ..)).after
  simpa using step.frames isolated

/-- A block frames every scope but outermost ones. -/
theorem frames_block (isolated : Isolated kept m) {scope : ScopeId}
    (made : m.world.scopes.Made scope) {arguments : Handle} (loose : Loose kept m arguments) :
    m.Frames m.Outermost ((apply scope (.builtin (.primitive .block)) arguments).after m) := by
  have safe : Isolating (fun _ => False) kept m
      (call (eval (m.world.limit - m.depth)) scope (.builtin (.primitive .block)) arguments) Loose :=
    isolating_onOne isolated loose fun _ _ _ step out =>
      isolating_block (isolatingEvaluator_eval (m.world.limit - m.depth)) step.isolated
        (step.made made) .block out
  obtain ⟨kept', step⟩ := (safe.congr (apply_run ..)).after
  simpa using step.frames isolated

/-- An assignment frames every scope but the one that it is carried out in. -/
theorem frames_assign (isolated : Isolated kept m) {scope : ScopeId}
    (made : m.world.scopes.Made scope) {arguments : Handle} (loose : Loose kept m arguments) :
    m.Frames (· = scope) ((apply scope (.builtin (.primitive .assign)) arguments).after m) := by
  have operator : Loose kept m (.builtin (.primitive .assign)) := loose_of_plain rfl rfl
  obtain ⟨kept', step⟩ := (isolating_apply isolated made operator loose).after
  refine ⟨fun _ => step.made, fun _ => step.parent?, fun id _ fixed name => ?_⟩
  refine step.binding? isolated ?_
  have preserved := preserves_bindNames (fun key v => preserves_bind fixed name key v
    (m.world.scopes.local? id name)) .assign arguments m rfl
  exact preserved

end Act

/--
What evaluating an expression in a scope leaves alone, in every host that can be reached.

The expression and the arguments are held by the host in any way. No scope that was there loses its
parent, and none but the scope of the evaluation and outermost ones has any binding changed. The
call of a function, wherever it was made and whatever it captured, and a block change no scope that
was there but outermost ones, and evaluate only in scopes that they make. An assignment changes the
scope that it is carried out in alone. In the code of a body or a block, however deep it is nested in
operators that evaluate it, that is no scope that was there when the body or the block began, be it an
outermost one: whatever were done instead of such an assignment would make no difference.
-/
theorem Host.Reachable.evaluation_frames {host : Host} (reachable : host.Reachable)
    {scope : ScopeId} (made : host.machine.world.scopes.Made scope) :
    (∀ expression, host.machine.Frames (fun id => id = scope ∨ host.machine.Outermost id)
      ((Act.evaluate scope (host.register expression)).after host.machine)) ∧
    (∀ function arguments formals body captured,
      host.register function = .lambda formals body captured →
      host.machine.Frames host.machine.Outermost
        ((Act.apply scope (host.register function) (host.register arguments)).after
          host.machine) ∧
      Act.EvaluatesInside host.machine fun ev =>
        Act.call ev scope (host.register function) (host.register arguments)) ∧
    (∀ arguments,
      host.machine.Frames host.machine.Outermost
        ((Act.apply scope (.builtin (.primitive .block)) (host.register arguments)).after
          host.machine) ∧
      Act.EvaluatesInside host.machine fun ev =>
        Act.call ev scope (.builtin (.primitive .block)) (host.register arguments)) ∧
    (∀ arguments, host.machine.Frames (· = scope)
      ((Act.apply scope (.builtin (.primitive .assign)) (host.register arguments)).after
        host.machine)) ∧
    ∀ alarm : Act Handle,
      (∀ expression, Act.evaluateSparing alarm scope (host.register expression) host.machine =
        Act.evaluate scope (host.register expression) host.machine) ∧
      ∀ function arguments,
        Act.applySparing alarm scope (host.register function) (host.register arguments) host.machine =
          Act.apply scope (host.register function) (host.register arguments) host.machine := by
  obtain ⟨kept, secure⟩ := reachable.secure
  have held := secure.registers
  refine ⟨fun expression => ?_, fun function arguments formals body captured same => ?_,
    fun arguments => ?_, fun arguments => ?_, fun alarm => ⟨fun expression => ?_,
      fun function arguments => ?_⟩⟩
  -- An evaluation takes one step, which writes in its scope and in outermost ones.
  · obtain ⟨kept', step⟩ := (Act.isolatingEvaluator_evaluate kept host.machine scope _
      secure.isolated made (held expression)).after
    exact step.frames secure.isolated
  -- A call runs its body in a scope of its own, and so does a block.
  · rw [same]
    exact ⟨Act.frames_applyLambda secure.isolated (same ▸ held function) (held arguments) scope,
      Act.applyLambda_inside host.machine formals body captured _⟩
  · exact ⟨Act.frames_block secure.isolated made (held arguments),
      Act.block_inside host.machine scope _⟩
  -- An assignment is the only operation that writes in the scope itself.
  · exact Act.frames_assign secure.isolated made (held arguments)
  -- The alarm is never raised, on this machine or any other.
  · rw [Act.evaluateSparing_eq]
  · rw [Act.applySparing_eq]

/--
A function that was made in an inner scope assigns a name of that scope under a conditional. The name
is bound in the scope of the call, and the inner scope has it as it was.
-/
theorem Host.Reachable.evaluation_frames_inner :
    let host := (start (.initial fun _ => .error .missing)).run
      [.ask (.extend "inner" "global"), .make "old" (.string (Text.encode "old")),
        .ask (.bind "inner" "a" "old"), .make "new" (.string (Text.encode "new")),
        .make "formals" (.operand (.source (Text.encode "{x}") Primitive.all)),
        .make "body" (.operand (.source (Text.encode "{if true {= {a} x} {}}") Primitive.all)),
        .make "f" (.lambda "formals" "body" "inner"), .make "call" (.list .sexpr ["f", "new"])]
    let after := (Act.evaluate Scopes.global (host.register "call")).after host.machine
    after.binding? ⟨1⟩ "a" = some (.string (Text.encode "old")) ∧
      after.binding? ⟨2⟩ "a" = some (.string (Text.encode "new")) := by
  intro host after
  have reachable : host.Reachable := .run (.bare fun _ => .error .missing) _
  have frames := (Reachable.evaluation_frames reachable
    (show host.machine.world.scopes.Made Scopes.global by decide +kernel)).1 "call"
  -- The inner scope is neither the one evaluated in nor outermost, and the call has made another.
  have parent : host.machine.world.scopes.parent? ⟨1⟩ = some Scopes.global := by decide +kernel
  have before : host.machine.world.scopes.local? ⟨1⟩ "a" = some (.string (Text.encode "old")) := by
    decide +kernel
  have called : after.world.scopes.local? ⟨2⟩ "a" = some (.string (Text.encode "new")) := by
    decide +kernel
  constructor
  -- So the frame leaves its binding as it was.
  · refine (frames.bindings ⟨1⟩ (by decide +kernel) ?_ "a").trans ?_
    · rintro (same | outermost)
      · cases same
      · cases parent.symm.trans outermost
    · rw [Machine.binding?, before]
      rfl
  · rw [Machine.binding?, called]
    rfl

end QLisp.Shared
