import QLisp.Proofs.Shared.IsolatingEval
import QLisp.Shared.Host

/-!
Bindings stay isolated from the registers of an embedding program.

Registers may share containers with one another in any way, but none leads to a container that a
binding stands on. Every command keeps it so, whether it is carried out or stops halfway.
-/

namespace QLisp.Shared

namespace Host

/-- Bindings are isolated, registers lead to no kept container, and the scopes held are there. -/
structure Secure (kept : CellId → Prop) (host : Host) : Prop where
  /-- Bindings are isolated. -/
  isolated : Isolated kept host.machine
  /-- No register leads to a kept container. -/
  registers : ∀ name, Loose kept host.machine (host.register name)
  /-- Every scope that is held has been made. -/
  scopes : ∀ name id, host.scope? name = some id → host.machine.world.scopes.Made id

/-- A host after some commands that kept bindings isolated. -/
structure Step (kept : CellId → Prop) (host : Host) (kept' : CellId → Prop) (host' : Host) :
    Prop where
  /-- The host is still secure. -/
  secure : Secure kept' host'
  /-- The machine has gone on, writing in any scope. -/
  machine : Shared.Step (fun _ => True) kept host.machine kept' host'.machine

variable {kept kept' kept'' : CellId → Prop} {host host' host'' : Host}

/-- A secure host is reached in no step. -/
theorem Secure.refl (secure : Secure kept host) : Step kept host kept host :=
  ⟨secure, secure.isolated.refl⟩

/-- Steps can be taken one after the other. -/
theorem Step.trans (first : Step kept host kept' host') (second : Step kept' host' kept'' host'') :
    Step kept host kept'' host'' :=
  ⟨second.secure, first.machine.trans second.machine fun _ _ _ => .inl trivial⟩

/-- A step of the machine alone is a step of the host. -/
theorem Secure.step (secure : Secure kept host) {machine : Machine}
    (step : Shared.Step (fun _ => True) kept host.machine kept' machine) :
    Step kept host kept' { host with machine := machine } where
  secure := {
    isolated := step.isolated
    registers := fun name => Loose.step (secure.registers name) step
    scopes := fun name id held => step.made (secure.scopes name id held) }
  machine := step

/-- The scope that a name stands for, or else the global one, has been made. -/
theorem Secure.scopeOrGlobal (secure : Secure kept host) (name : String) :
    host.machine.world.scopes.Made ((host.scope? name).getD Scopes.global) := by
  cases held : host.scope? name with
  | none => exact secure.isolated.global
  | some id => exact secure.scopes name id held

end Host

namespace HostM

/-- Whatever its outcome, a command keeps the host secure, and a result is good. -/
def Securing (kept : CellId → Prop) (host : Host) {α : Type} (act : HostM α)
    (good : (CellId → Prop) → Host → α → Prop) : Prop :=
  ∃ kept', match act host with
    | .ok a host' => host.Step kept kept' host' ∧ good kept' host' a
    | .error _ host' => host.Step kept kept' host'

variable {α β : Type} {kept : CellId → Prop} {host : Host}

/-- A result that leads to no kept container. -/
abbrev LooseResult (kept : CellId → Prop) (host : Host) (v : Handle) : Prop :=
  Loose kept host.machine v

/-- A command that runs like another one keeps the host secure when that one does. -/
theorem Securing.congr {act act' : HostM α} {good : (CellId → Prop) → Host → α → Prop}
    (safe : Securing kept host act' good) (same : act host = act' host) :
    Securing kept host act good := by
  simpa only [Securing, same] using safe

/-- A result that needs no work keeps the host secure. -/
theorem securing_pure (secure : host.Secure kept) {a : α}
    {good : (CellId → Prop) → Host → α → Prop} (fine : good kept host a) :
    Securing kept host (pure a) good :=
  ⟨kept, secure.refl, fine⟩

/-- A command that only reads keeps the host secure. -/
theorem securing_read (secure : host.Secure kept) {act : HostM α} {a : α}
    (reads : act host = .ok a host) : Securing kept host act fun _ _ _ => True :=
  (securing_pure secure trivial : Securing kept host (pure a) _).congr reads

/-- Stopping without work keeps the host secure. -/
theorem securing_throw (secure : host.Secure kept) {stop : Stop}
    {good : (CellId → Prop) → Host → α → Prop} : Securing kept host (throw stop) good :=
  ⟨kept, secure.refl⟩

/-- Commands that keep the host secure can follow one another. -/
theorem Securing.bind {act : HostM α} {next : α → HostM β}
    {good : (CellId → Prop) → Host → α → Prop} {fine : (CellId → Prop) → Host → β → Prop}
    (first : Securing kept host act good)
    (second : ∀ kept' host' a, host.Step kept kept' host' → good kept' host' a →
      Securing kept' host' (next a) fine) :
    Securing kept host (act >>= next) fine := by
  -- The second command starts where the first one ended with a result.
  obtain ⟨kept', first⟩ := first
  simp only [Securing, Bind.bind, EStateM.bind]
  -- A failure stops both commands, and what the first has done stays.
  cases ran : act host with
  | error stop host' =>
    simp only [ran] at first
    exact ⟨kept', first⟩
  | ok a host' =>
    simp only [ran] at first
    obtain ⟨kept'', later⟩ := second kept' host' a first.1 first.2
    refine ⟨kept'', ?_⟩
    cases ran' : next a host' with
    | ok b host'' =>
      simp only [ran'] at later ⊢
      exact ⟨first.1.trans later.1, later.2⟩
    | error stop host'' =>
      simp only [ran'] at later ⊢
      exact first.1.trans later

/-- An isolating computation that may write in any scope keeps the host secure. -/
theorem securing_onMachine (secure : host.Secure kept) {act : Act α}
    {good : (CellId → Prop) → Machine → α → Prop}
    (safe : Act.Isolating (fun _ => True) kept host.machine act good) :
    Securing kept host (onMachine act) fun kept' host' a => good kept' host'.machine a := by
  -- The registers and the names of scopes are as they were; only the machine is another one.
  obtain ⟨kept', ran⟩ := safe
  refine ⟨kept', ?_⟩
  simp only [onMachine]
  cases outcome : act host.machine with
  | ok a machine =>
    simp only [outcome] at ran
    exact ⟨secure.step ran.1, ran.2⟩
  | error fault machine =>
    simp only [outcome] at ran
    exact secure.step ran

/-- An isolating computation that may write in some scopes keeps the host secure. -/
theorem securing_within (secure : host.Secure kept) {may : ScopeId → Prop} {act : Act α}
    {good : (CellId → Prop) → Machine → α → Prop}
    (safe : Act.Isolating may kept host.machine act good) :
    Securing kept host (onMachine act) fun kept' host' a => good kept' host'.machine a :=
  securing_onMachine secure (safe.widen secure.isolated fun _ _ _ => .inl trivial)

/-- A harmless list operation that gives a loose handle keeps the host secure. -/
theorem securing_list (secure : host.Secure kept) {op : ListOp Handle}
    (safe : ListOp.Harmless kept host.machine.world.scopes.Made op host.machine.heap
      fun h v => Outside kept host.machine.world.scopes.Made h v) :
    Securing kept host (onMachine (liftM op)) LooseResult :=
  securing_onMachine secure (Act.isolating_lift_loose secure.isolated safe)

/-- Reading an operand keeps the host secure. -/
theorem securing_operand (secure : host.Secure kept) (source : Operand) :
    Securing kept host (operand source) LooseResult := by
  -- A register is read as it is, and a source is placed in fresh containers.
  cases source with
  | register name => exact securing_pure secure (secure.registers name)
  | source text known =>
    simp only [operand]
    -- A text that is not readable stops the command, and so does an empty one.
    cases Form.parse text with
    | error e => exact securing_throw secure
    | ok forms =>
      cases forms with
      | nil => exact securing_throw secure
      | cons form rest =>
        exact securing_list secure (ListOp.harmless_place secure.isolated.apart
          (form.obeys_toValue known))

/-- The handle for a tag names nothing. -/
theorem ofTag_plain (code : Int) :
    (Handle.ofTag code).cells = [] ∧ (Handle.ofTag code).scopes = [] := by
  unfold Handle.ofTag
  split <;> exact ⟨rfl, rfl⟩

/-- Reading registers changes nothing. -/
theorem mapM_register (names : List String) :
    names.mapM register host = .ok (names.map host.register) host := by
  induction names with
  | nil => rfl
  | cons name rest ih =>
    simp only [List.mapM_cons, Bind.bind, EStateM.bind] at ih ⊢
    rw [show register name host = .ok (host.register name) host from rfl]
    simp only [ih]
    rfl

/-- Reading the host goes on with the host as it is. -/
theorem get_bind (next : Host → HostM α) :
    ((get : HostM Host) >>= next) host = next host host := rfl

/-- Every command that gives a value keeps the host secure and gives a loose handle. -/
theorem securing_make (secure : host.Secure kept) (maker : Maker) :
    Securing kept host (make maker) LooseResult := by
  have isolated := secure.isolated
  have held := secure.registers
  have plain : ∀ {v : Handle}, v.cells = [] → v.scopes = [] →
      Securing kept host (pure v) LooseResult := fun cells scopes =>
    securing_pure secure (Act.loose_of_plain cells scopes)
  -- Each command works on registers, which are loose, and gives something loose.
  cases maker with
  | operand source => exact securing_operand secure source
  | symbol name => exact plain rfl rfl
  | string text => exact plain rfl rfl
  | error code message => exact plain rfl rfl
  | foreign name =>
    -- Only the count of such operations changes.
    refine ⟨kept, ⟨⟨isolated, held, secure.scopes⟩, isolated.refl⟩, Act.loose_of_plain rfl rfl⟩
  | bare code => exact plain (ofTag_plain code).1 (ofTag_plain code).2
  | lambda formals body scope =>
    refine securing_pure secure (outside_lambda.mpr ⟨held formals, held body, fun s member => ?_⟩)
    exact secure.scopes scope s member
  | list kind elements =>
    -- The registers that are listed are loose, so a list of them is.
    have made : Securing kept host
        (onMachine (liftM (ListOp.make kind (elements.map host.register)))) LooseResult := by
      refine securing_list secure (ListOp.harmless_make isolated.apart fun v member => ?_)
      obtain ⟨name, _, rfl⟩ := List.mem_map.mp member
      exact held name
    refine made.congr ?_
    simp only [make, Bind.bind, EStateM.bind, mapM_register]
  | append list element =>
    exact securing_list secure (ListOp.harmless_append isolated.apart (held list) (held element))
  | pushFront list element =>
    exact securing_list secure (ListOp.harmless_pushFront isolated.apart (held list) (held element))
  | popFront list => exact securing_list secure (ListOp.harmless_popFront isolated.apart (held list))
  | join list other =>
    exact securing_list secure (ListOp.harmless_join isolated.apart (held list) (held other))
  | take list index =>
    exact securing_list secure (ListOp.harmless_take isolated.apart (held list) index)
  | split list index =>
    exact securing_list secure (ListOp.harmless_split isolated.apart (held list) index)
  | element list index =>
    exact securing_list secure (ListOp.harmless_element isolated.apart (held list) index)
  | retag kind list =>
    exact securing_list secure (ListOp.harmless_retag isolated.apart (held list) kind)
  | copy value =>
    exact securing_list secure (ListOp.harmless_copy isolated.apart
      (isolated.apart.obeys_view (held value)))
  | formals lambda => exact securing_list secure (ListOp.harmless_formals isolated.apart (held lambda))
  | body lambda => exact securing_list secure (ListOp.harmless_body isolated.apart (held lambda))
  | lookup scope name =>
    unfold make
    refine .congr ?_ (get_bind _)
    split
    · exact securing_onMachine secure (Act.isolating_lookup isolated _ name)
    · exact plain rfl rfl
  -- An evaluation and a call start from operands, which are loose.
  | eval source scope =>
    refine (securing_operand secure source).bind fun kept' host' v step loose => ?_
    exact securing_within step.secure (Act.isolatingEvaluator_evaluate kept' host'.machine _ v
      step.secure.isolated (step.secure.scopeOrGlobal scope) loose)
  | call operator arguments scope =>
    refine (securing_operand secure arguments).bind fun kept' host' given step loose => ?_
    exact securing_within step.secure (Act.isolating_apply step.secure.isolated
      (step.secure.scopeOrGlobal scope) (step.secure.registers operator) loose)

/-- Reading a register goes on with the host as it is. -/
theorem register_bind (name : String) (next : Handle → HostM α) :
    (register name >>= next) host = next (host.register name) host := rfl

/-- Keeping a loose handle in a register keeps the host secure. -/
theorem securing_keep (secure : host.Secure kept) (target : String) {v : Handle}
    (loose : Loose kept host.machine v) :
    Securing kept host (modify fun host => { host with registers := host.registers.insert target v })
      fun _ _ _ => True := by
  refine ⟨kept, ⟨⟨secure.isolated, fun name => ?_, secure.scopes⟩, secure.isolated.refl⟩, trivial⟩
  simp only [Host.register, Std.TreeMap.getD_insert]
  split
  · exact loose
  · exact secure.registers name

/-- Holding a scope that has been made keeps the host secure. -/
theorem securing_hold (secure : host.Secure kept) (name : String) {id : ScopeId}
    (made : host.machine.world.scopes.Made id) :
    Securing kept host (modify fun host => { host with scopes := host.scopes.insert name id })
      fun _ _ _ => True := by
  refine ⟨kept, ⟨⟨secure.isolated, secure.registers, fun key other held => ?_⟩,
    secure.isolated.refl⟩, trivial⟩
  simp only [Host.scope?, Std.TreeMap.getElem?_insert] at held
  split at held
  · cases held
    exact made
  · exact secure.scopes key other held

/-- Evaluating registers in order keeps the host secure. -/
theorem securing_evaluateAll {id : ScopeId} (names : List String) :
    ∀ {kept : CellId → Prop} {host : Host}, host.Secure kept →
      host.machine.world.scopes.Made id →
      Securing kept host (names.mapM fun name => do
        let v ← register name
        onMachine (Act.evaluate id v)) fun _ _ _ => True := by
  -- What an evaluation does to other registers leaves them loose.
  induction names with
  | nil => exact fun secure _ => securing_pure secure trivial
  | cons name rest ih =>
    intro kept host secure made
    simp only [List.mapM_cons]
    have evaluated : Securing kept host (do
        let v ← register name
        onMachine (Act.evaluate id v)) LooseResult :=
      securing_within secure (Act.isolatingEvaluator_evaluate kept host.machine id _
        secure.isolated made (secure.registers name))
    -- The first value is evaluated, and then the others on the host that it leaves.
    refine evaluated.bind fun kept' host' _ step _ => ?_
    exact (ih step.secure (step.machine.made made)).bind fun _ _ _ step' _ =>
      securing_pure step'.secure trivial

/-- Every command that gives an answer keeps the host secure. -/
theorem securing_ask (secure : host.Secure kept) (query : Query) :
    Securing kept host (ask query) fun _ _ _ => True := by
  have isolated := secure.isolated
  -- A command on a scope stops at once when the scope is not held.
  have onScope : ∀ (name : String) (next : ScopeId → HostM Reply),
      (∀ id, host.machine.world.scopes.Made id →
        Securing kept host (next id) fun _ _ _ => True) →
      Securing kept host (scope name >>= next) fun _ _ _ => True := by
    intro name next safe
    unfold scope
    rw [bind_assoc]
    refine .congr ?_ (get_bind _)
    cases held : host.scope? name with
    | none => exact securing_throw secure
    | some id => exact safe id (secure.scopes name id held)
  -- What is written is a copy of a register, and everything else is only read.
  cases query with
  | same left right =>
    refine (securing_onMachine secure (Act.isolating_lift isolated
      (ListOp.harmless_same isolated.apart _ _))).bind fun _ _ _ step _ => ?_
    exact securing_pure step.secure trivial
  | truthy value => exact securing_read secure rfl
  | inspect value => exact securing_read secure rfl
  | extend name parent =>
    -- A new scope is made below one that the host holds, and is held from then on.
    refine .congr ?_ (get_bind _)
    refine (securing_onMachine secure (Act.isolating_enter isolated fun s member =>
      secure.scopes parent s member)).bind fun kept' host' id step made => ?_
    exact (securing_hold step.secure name made.1).bind fun _ _ _ step' _ =>
      securing_pure step'.secure trivial
  | bind name key value =>
    simp only [ask]
    refine onScope name _ fun id made => .congr ?_ (register_bind _ _)
    refine (securing_within secure (Act.isolating_bindOwn isolated key
      (secure.registers value))).bind fun _ _ _ step _ => securing_pure step.secure trivial
  | bindRoot name key value =>
    simp only [ask]
    refine onScope name _ fun id made => .congr ?_ (register_bind _ _)
    refine (securing_onMachine secure (Act.isolating_bindRoot isolated made
      key (secure.registers value))).bind fun _ _ _ step _ => securing_pure step.secure trivial
  | contains name key =>
    simp only [ask]
    exact onScope name _ fun _ _ => securing_read secure rfl
  | names name =>
    simp only [ask]
    exact onScope name _ fun _ _ => securing_read secure rfl
  | parent name =>
    simp only [ask]
    exact onScope name _ fun _ _ => securing_read secure rfl
  | root name =>
    simp only [ask]
    exact onScope name _ fun _ _ => securing_read secure rfl
  -- Evaluations leave the host secure, and then the results are read.
  | evalAll values name =>
    exact (securing_evaluateAll values secure (secure.scopeOrGlobal name)).bind
      fun _ _ _ step _ => securing_read step.secure rfl
  | setLimit setting =>
    exact (securing_onMachine secure (Act.isolating_inWorld isolated
      rfl)).bind fun _ _ _ step _ => securing_pure step.secure trivial

/-- Keeping the result of a command in a register keeps the host secure. -/
theorem securing_makeInto (secure : host.Secure kept) (target : String) (maker : Maker) :
    Securing kept host (makeInto target maker) fun _ _ _ => True := by
  refine (securing_make secure maker).bind fun kept' host' v step loose => ?_
  split
  · refine .congr (securing_pure step.secure trivial) (get_bind _)
  · refine (securing_keep step.secure target loose).bind fun _ _ _ step' _ => ?_
    exact .congr (securing_pure step'.secure trivial) (get_bind _)

end HostM
end QLisp.Shared
