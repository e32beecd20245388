import QLisp.Proofs.Shared.Reachable

/-!
Commands look at no register but those that they name.

A command does the same on two hosts that differ only in registers that it does not name, and it
leaves these registers alone.
-/

namespace QLisp.Shared

/-- The registers that an operand names. -/
def Operand.registers : Operand → List String
  | .register name => [name]
  | .source .. => []

/-- The registers from which a command that gives a value takes values. -/
def Maker.registers : Maker → List String
  | .operand source | .eval source _ => source.registers
  | .symbol _ | .string _ | .error .. | .foreign _ | .bare _ | .lookup .. => []
  | .lambda shape code _ => [shape, code]
  | .list _ elements => elements
  | .append receiver other | .pushFront receiver other | .join receiver other => [receiver, other]
  | .popFront value | .take value _ | .split value _ | .element value _ | .retag _ value
  | .copy value | .formals value | .body value => [value]
  | .call operator arguments _ => operator :: arguments.registers

/-- The registers from which a query takes values. -/
def Query.registers : Query → List String
  | .same left right => [left, right]
  | .truthy value | .inspect value | .bind _ _ value | .bindRoot _ _ value => [value]
  | .evalAll values _ => values
  | .extend .. | .contains .. | .names _ | .parent _ | .root _ | .setLimit _ => []

/-- The registers that a command names, the one that it writes included. -/
def Command.registers : Command → List String
  | .make target maker => target :: maker.registers
  | .ask query => query.registers

namespace HostM

variable {α β : Type} {names : List String}

/-- An outcome with other registers. -/
def holding (registers : Std.TreeMap String Handle) :
    EStateM.Result Stop Host α → EStateM.Result Stop Host α
  | .ok a host => .ok a { host with registers := registers }
  | .error stop host => .error stop { host with registers := registers }

/-- A command takes values from some registers only, and writes none. -/
def Reads (names : List String) (act : HostM α) : Prop :=
  ∀ (host : Host) (registers : Std.TreeMap String Handle),
    (∀ name ∈ names, registers.getD name .none = host.register name) →
      act { host with registers := registers } = holding registers (act host)

/-- A result that needs no work is read from no register. -/
theorem reads_pure (a : α) : Reads names (pure a) := fun _ _ _ => rfl

/-- Stopping reads no register. -/
theorem reads_throw (stop : Stop) : Reads names (throw stop : HostM α) := fun _ _ _ => rfl

/-- A computation on the machine reads no register. -/
theorem reads_onMachine (act : Act α) : Reads names (onMachine act) := by
  intro host registers _
  simp only [onMachine, holding]
  cases act host.machine <;> rfl

/-- A register that may be read is read. -/
theorem reads_register {name : String} (member : name ∈ names) : Reads names (register name) := by
  intro host registers same
  show EStateM.Result.ok (registers.getD name .none) _ = .ok (host.register name) _
  rw [same name member]

/-- A command that only reads registers ends with those it began with. -/
theorem Reads.unwritten {act : HostM α} (reads : Reads names act) (host : Host) :
    match act host with
    | .ok _ after | .error _ after => after.registers = host.registers := by
  -- Reading with its own registers put in place, the command ends with just those.
  have same : act host = holding host.registers (act host) := reads host host.registers fun _ _ => rfl
  cases ran : act host with
  | ok a after =>
    rw [ran] at same
    show after.registers = host.registers
    rw [(EStateM.Result.ok.inj same).2]
  | error stop after =>
    rw [ran] at same
    show after.registers = host.registers
    rw [(EStateM.Result.error.inj same).2]

/-- Commands that read some registers can follow one another. -/
theorem Reads.bind {act : HostM α} {next : α → HostM β} (first : Reads names act)
    (second : ∀ a, Reads names (next a)) : Reads names (act >>= next) := by
  intro host registers same
  -- The first command writes no register, so the second one finds them as they were.
  have unwritten := first.unwritten host
  simp only [Bind.bind, EStateM.bind, first host registers same]
  cases ran : act host with
  | error stop host₁ => rfl
  | ok a host₁ =>
    simp only [ran] at unwritten
    refine second a host₁ registers fun name member => ?_
    rw [same name member, Host.register, Host.register, unwritten]

/-- Reading the host reads a register only if what follows depends on it. -/
theorem reads_get {next : Host → HostM α}
    (blind : ∀ (host : Host) (registers : Std.TreeMap String Handle),
      (∀ name ∈ names, registers.getD name .none = host.register name) →
        next { host with registers := registers } = next host)
    (after : ∀ host, Reads names (next host)) : Reads names ((get : HostM Host) >>= next) := by
  intro host registers same
  show next _ { host with registers := registers } = holding registers (next host host)
  rw [blind host registers same, after host host registers same]

/-- A command for each of some things reads what each of them reads. -/
theorem reads_mapM {f : α → HostM β} {list : List α} (each : ∀ a ∈ list, Reads names (f a)) :
    Reads names (list.mapM f) := by
  induction list with
  | nil => exact reads_pure []
  | cons a rest ih =>
    rw [List.mapM_cons]
    refine (each a List.mem_cons_self).bind fun b => ?_
    refine (ih fun a member => each a (List.mem_cons_of_mem _ member)).bind fun bs => ?_
    exact reads_pure (b :: bs)

/-- Looking up a scope reads no register. -/
theorem reads_scope (name : String) : Reads names (scope name) := by
  refine reads_get (fun _ _ _ => rfl) fun host => ?_
  cases host.scope? name with
  | none => exact reads_throw _
  | some id => exact reads_pure id

/-- Looking up a scope or taking the global one reads no register. -/
theorem reads_scopeOrGlobal (name : String) : Reads names (scopeOrGlobal name) :=
  reads_get (fun _ _ _ => rfl) fun _ => reads_pure _

/-- An operand is read from the register that it names. -/
theorem reads_operand {source : Operand} (inside : ∀ name ∈ source.registers, name ∈ names) :
    Reads names (operand source) := by
  -- A source text is parsed, and no register is read for it.
  cases source with
  | register name => exact reads_register (inside name (List.mem_singleton_self name))
  | source text known =>
    simp only [operand]
    cases Form.parse text with
    | error e => exact reads_throw _
    | ok forms =>
      cases forms with
      | nil => exact reads_throw _
      | cons form rest => exact reads_onMachine _

/-- A list operation on a register reads that register. -/
theorem reads_onRegister {name : String} (op : Handle → ListOp Handle) :
    Reads [name] (onRegister name op) :=
  (reads_register (List.mem_singleton_self name)).bind fun _ => reads_onMachine _

/-- A list operation on two registers reads these two. -/
theorem reads_onRegisters {first second : String} (op : Handle → Handle → ListOp Handle) :
    Reads [first, second] (onRegisters first second op) :=
  (reads_register (by simp)).bind fun _ => (reads_register (by simp)).bind fun _ =>
    reads_onMachine _

/-- The value of a register is read from that register. -/
theorem reads_viewOf (name : String) : Reads [name] (viewOf name) := by
  refine reads_get (fun host registers same => ?_) fun _ => reads_pure _
  show pure (host.machine.heap.view (registers.getD name .none)) = _
  rw [same name (List.mem_singleton_self name)]

/-- A command that gives a value reads the registers that it names. -/
theorem reads_make (maker : Maker) : Reads maker.registers (make maker) := by
  -- Each command reads its registers in order and then works on the machine.
  cases maker with
  | operand source => exact reads_operand fun _ member => member
  | symbol | string | error | bare => exact reads_pure _
  | foreign name => exact fun _ _ _ => rfl
  | lambda formals body scope =>
    refine (reads_register (by simp [Maker.registers])).bind fun _ => ?_
    refine (reads_register (by simp [Maker.registers])).bind fun _ => ?_
    exact reads_get (fun _ _ _ => rfl) fun _ => reads_pure _
  | list kind elements =>
    refine (reads_mapM fun name member => ?_).bind fun _ => reads_onMachine _
    exact reads_register member
  | append | pushFront | join => exact reads_onRegisters _
  | popFront | take | split | element | retag | copy | formals | body => exact reads_onRegister _
  | lookup scope name =>
    refine reads_get (fun _ _ _ => rfl) fun host => ?_
    cases host.scope? scope with
    | none => exact reads_pure _
    | some id => exact reads_onMachine _
  | eval source scope =>
    refine (reads_operand fun _ member => member).bind fun _ => ?_
    exact (reads_scopeOrGlobal scope).bind fun _ => reads_onMachine _
  | call operator arguments scope =>
    refine (reads_operand fun _ member => List.mem_cons_of_mem _ member).bind fun _ => ?_
    refine (reads_scopeOrGlobal scope).bind fun _ => ?_
    exact (reads_register List.mem_cons_self).bind fun _ => reads_onMachine _

/-- A query reads the registers that it names. -/
theorem reads_ask (query : Query) : Reads query.registers (ask query) := by
  -- The names under which a scope is held are found without a register.
  have named : ∀ id, Reads query.registers (namesOf id) := fun id =>
    reads_get (fun _ _ _ => rfl) fun _ => reads_pure _
  cases query with
  | same left right =>
    refine (reads_register (by simp [Query.registers])).bind fun _ => ?_
    refine (reads_register (by simp [Query.registers])).bind fun _ => ?_
    exact (reads_onMachine _).bind fun _ => reads_pure _
  | truthy value | inspect value => exact (reads_viewOf value).bind fun _ => reads_pure _
  | extend name parent =>
    refine reads_get (fun _ _ _ => rfl) fun _ => (reads_onMachine _).bind fun _ => ?_
    exact Reads.bind (fun _ _ _ => rfl) fun _ => reads_pure _
  | bind name key value | bindRoot name key value =>
    refine (reads_scope name).bind fun _ => ?_
    refine (reads_register (List.mem_singleton_self value)).bind fun _ => ?_
    exact (reads_onMachine _).bind fun _ => reads_pure _
  | contains name key | names name =>
    exact (reads_scope name).bind fun _ => reads_get (fun _ _ _ => rfl) fun _ => reads_pure _
  | parent name | root name =>
    exact (reads_scope name).bind fun _ => reads_get (fun _ _ _ => rfl) fun _ => named _
  | evalAll values name =>
    refine (reads_scopeOrGlobal name).bind fun _ => (reads_mapM fun value member => ?_).bind fun _ =>
      reads_get (fun _ _ _ => rfl) fun _ => reads_pure _
    exact (reads_register member).bind fun _ => reads_onMachine _
  | setLimit setting => exact (reads_onMachine _).bind fun _ => reads_pure _

end HostM

namespace Host

/-- Two hosts that differ at most in registers other than given ones. -/
structure Alike (mine : String → Prop) (host host' : Host) : Prop where
  /-- The machines are the same. -/
  machine : host'.machine = host.machine
  /-- The scopes that are held are the same. -/
  scopes : host'.scopes = host.scopes
  /-- As many operations without a meaning have been made. -/
  foreigners : host'.foreigners = host.foreigners
  /-- The given registers hold the same values. -/
  registers : ∀ name, mine name → host'.register name = host.register name

variable {mine : String → Prop} {host host' : Host}

/-- Hosts that are alike differ in their registers only. -/
theorem Alike.eq (alike : Alike mine host host') :
    host' = { host with registers := host'.registers } := by
  obtain ⟨machine, registers, scopes, foreigners⟩ := host'
  obtain ⟨rfl, rfl, rfl, _⟩ := alike
  rfl

/-- Keeping one value in one register leaves hosts alike. -/
theorem Alike.keep (alike : Alike mine host host') (target : String) (v : Handle) :
    Alike mine { host with registers := host.registers.insert target v }
      { host' with registers := host'.registers.insert target v } where
  machine := alike.machine
  scopes := alike.scopes
  foreigners := alike.foreigners
  registers name own := by
    simp only [register, Std.TreeMap.getD_insert]
    split
    · rfl
    · exact alike.registers name own

/-- Hosts that hold what they did before they were changed in the same way are alike. -/
theorem Alike.changed (alike : Alike mine host host') {after : Host}
    (unwritten : after.registers = host.registers) :
    Alike mine after { after with registers := host'.registers } where
  machine := rfl
  scopes := rfl
  foreigners := rfl
  registers name own := by
    rw [register, register, unwritten]
    exact alike.registers name own

/-- A computation that takes its values from given registers ends alike, with one result. -/
theorem Alike.reads {α : Type} {names : List String} {act : HostM α}
    (alike : Alike mine host host') (reads : HostM.Reads names act)
    (within : ∀ name ∈ names, mine name) :
    match act host with
    | .ok a after => ∃ after', act host' = .ok a after' ∧ Alike mine after after'
    | .error stop after => ∃ after', act host' = .error stop after' ∧ Alike mine after after' := by
  -- Neither run writes a register, so both end with the registers they began with.
  have unwritten := reads.unwritten host
  have other := reads host host'.registers fun name member =>
    alike.registers name (within name member)
  rw [← alike.eq] at other
  cases ran : act host with
  | ok a after =>
    rw [ran] at unwritten other
    exact ⟨_, other, alike.changed unwritten⟩
  | error stop after =>
    rw [ran] at unwritten other
    exact ⟨_, other, alike.changed unwritten⟩

/-- A command that names given registers only leaves hosts alike. -/
theorem Alike.after (alike : Alike mine host host') {command : Command}
    (within : ∀ name ∈ command.registers, mine name) :
    Alike mine (host.after command) (host'.after command) := by
  -- The two hosts read the same, so they do the same on their machines.
  cases command with
  -- A value is made on both hosts, and kept under the same name.
  | make target maker =>
    have ends := alike.reads (HostM.reads_make maker) fun name member =>
      within name (List.mem_cons_of_mem _ member)
    rw [after_make, after_make]
    cases ran : HostM.make maker host with
    | ok v after =>
      simp only [ran] at ends
      obtain ⟨after', ran', alike'⟩ := ends
      simp only [ran']
      split
      · exact alike'
      · exact alike'.keep target v
    | error stop after =>
      simp only [ran] at ends
      obtain ⟨after', ran', alike'⟩ := ends
      simp only [ran']
      exact alike'
  | ask query =>
    -- A query is answered alike on both hosts.
    have ends := alike.reads (HostM.reads_ask query) within
    simp only [Host.after, Host.afterRunning]
    cases ran : HostM.ask query host <;> simp only [ran] at ends <;>
      obtain ⟨after', ran', alike'⟩ := ends <;> simpa only [ran'] using alike'

/-- Commands that name given registers only leave hosts alike. -/
theorem Alike.run {commands : List Command} (alike : Alike mine host host')
    (within : ∀ command ∈ commands, ∀ name ∈ command.registers, mine name) :
    Alike mine (host.run commands) (host'.run commands) := by
  induction commands generalizing host host' with
  | nil => exact alike
  | cons command rest ih =>
    have first := alike.after (within command List.mem_cons_self)
    exact ih first fun command member => within command (List.mem_cons_of_mem _ member)

/-- A command leaves a register that it does not name. -/
theorem register_after {command : Command} {name : String} (other : name ∉ command.registers) :
    (host.after command).register name = host.register name := by
  cases command with
  | make target maker =>
    -- Only the register that the value is kept in is written.
    have different : target ≠ name := fun same => other (same ▸ List.mem_cons_self)
    have unwritten := (HostM.reads_make maker).unwritten host
    rw [after_make]
    cases ran : HostM.make maker host with
    | ok v after =>
      simp only [ran] at unwritten ⊢
      split
      · rw [register, register, unwritten]
      · simp [register, Std.TreeMap.getD_insert, different, unwritten]
    | error stop after =>
      simp only [ran] at unwritten ⊢
      rw [register, register, unwritten]
  -- A query writes no register.
  | ask query =>
    have unwritten := (HostM.reads_ask query).unwritten host
    rw [Host.after, afterRunning]
    cases ran : HostM.ask query host <;> simp only [ran] at unwritten <;>
      rw [register, register, unwritten]

/-- Commands leave a register that none of them names. -/
theorem register_run {commands : List Command} {name : String}
    (other : ∀ command ∈ commands, name ∉ command.registers) :
    (host.run commands).register name = host.register name := by
  induction commands generalizing host with
  | nil => rfl
  | cons command rest ih =>
    refine (ih fun command member => other command (List.mem_cons_of_mem _ member)).trans ?_
    exact register_after (other command List.mem_cons_self)

/-- There is an alike host that holds nothing but what is in given registers. -/
theorem exists_alike (mine : String → Prop) (host : Host) :
    ∃ host', Alike mine host host' ∧ ∀ name, ¬ mine name → host'.register name = .none := by
  classical
  refine ⟨{ host with registers := host.registers.filter fun name _ => mine name },
    ⟨rfl, rfl, rfl, fun name own => ?_⟩, fun name other => ?_⟩
  · rw [register, Std.TreeMap.getD_filter', register, Std.TreeMap.getD_eq_getD_getElem?]
    cases host.registers[name]? <;> simp [own, Option.filter]
  · simp [register, Std.TreeMap.getD_filter', other]

end Host
end QLisp.Shared
