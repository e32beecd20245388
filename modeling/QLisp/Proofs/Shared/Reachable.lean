import QLisp.Proofs.Shared.HostIsolation
import QLisp.Proofs.Shared.Path
import QLisp.Shared.Session

/-!
The states that an embedding program can reach, and what is isolated in each of them.

A container that a binding leads to is reached from that binding alone, along one path, and from no
register. So a name means something else only after it has been written.
-/

namespace QLisp.Shared

/-- A fresh machine has nothing bound, and so nothing to keep. -/
theorem isolated_initial (files : Files) : Isolated (fun _ => False) (Machine.initial files) := by
  -- There are no containers, no scopes with parents, and no bindings.
  refine ⟨⟨fun _ held => held.elim, fun id made => ?_⟩, Scopes.made_initial, ?_, ?_, ?_⟩
  · simp [Heap.Made, Machine.initial, Heap.empty] at made
  · intro id parent link
    simp [Machine.initial, World.initial] at link
  · intro id name v found
    simp [Machine.initial, World.initial] at found
  · intro id name v id' name' v' found
    simp [Machine.initial, World.initial] at found

/-- Binding a name to an atom keeps bindings isolated. -/
theorem Isolated.bindAtom {kept : CellId → Prop} {m : Machine} (isolated : Isolated kept m)
    (scope : ScopeId) (name : String) {v : Handle} {t : Value} (atomic : v.atom? = some t) :
    Isolated kept { m with world.scopes := m.world.scopes.bind scope name v } := by
  -- An atom stands on no container, so there is nothing new to keep.
  have sames : (m.world.scopes.bind scope name v).Made = m.world.scopes.Made :=
    funext fun s => propext Scopes.made_bind
  have apart : Apart kept (m.world.scopes.bind scope name v).Made m.heap := by
    rw [sames]
    exact isolated.apart
  have ordered : (m.world.scopes.bind scope name v).ParentsFirst := by
    intro id parent link
    rw [Scopes.parent?_bind] at link
    exact isolated.ordered id parent link
  have step : Step (fun _ => True) kept m kept
      { m with world.scopes := m.world.scopes.bind scope name v } := by
    refine isolated.step (scope, name) apart ordered (Nat.le_refl _) (fun _ held => held)
      (fun _ held => .inl held) (fun _ _ => rfl) ((Scopes.Written.nil _).bind scope name v)
      (fun _ _ _ => .inl trivial) fun id key w found => ?_
    rw [Scopes.local?_bind] at found
    -- The name is the one that was bound, or has the binding it had.
    split at found
    · rename_i here
      obtain ⟨rfl, rfl, _⟩ := here
      cases found
      exact .inr ⟨rfl, t, [], .atom atomic, List.nodup_nil, by simp⟩
    · exact .inl found
  exact step.isolated

/-- Binding names to atoms keeps bindings isolated. -/
theorem Isolated.bindAtoms {kept : CellId → Prop} (scope : ScopeId)
    (bindings : List (String × Handle)) :
    ∀ {m : Machine}, Isolated kept m → (∀ binding ∈ bindings, binding.2.atom?.isSome) →
      Isolated kept { m with world.scopes := m.world.scopes.bindAll scope bindings } := by
  induction bindings with
  | nil => exact fun isolated _ => isolated
  | cons binding rest ih =>
    intro m isolated atomic
    obtain ⟨t, found⟩ := Option.isSome_iff_exists.mp (atomic binding (by simp))
    exact ih (isolated.bindAtom scope binding.1 found) fun other member =>
      atomic other (by simp [member])

/-- The primitive operations are bound to atoms. -/
theorem isolated_withPrimitives (files : Files) :
    Isolated (fun _ => False) (Machine.withPrimitives files) := by
  refine (isolated_initial files).bindAtoms Scopes.global _ fun binding member => ?_
  obtain ⟨p, _, rfl⟩ := List.mem_map.mp member
  rfl

/-- The machine that an isolating computation leaves has isolated bindings. -/
theorem Act.Isolating.after {may : ScopeId → Prop} {kept : CellId → Prop} {m : Machine} {α : Type}
    {act : Act α} {good : (CellId → Prop) → Machine → α → Prop}
    (safe : act.Isolating may kept m good) : ∃ kept', Step may kept m kept' (act.after m) := by
  obtain ⟨kept', ran⟩ := safe
  refine ⟨kept', ?_⟩
  simp only [Act.after]
  -- A computation that faults has taken a step as well.
  cases outcome : act m with
  | ok a m' =>
    simp only [outcome] at ran
    exact ran.1
  | error fault m' =>
    simp only [outcome] at ran
    exact ran

/-- Evaluating expressions leaves bindings isolated. -/
theorem Isolated.after_each {kept : CellId → Prop} {m : Machine} (isolated : Isolated kept m)
    {expressions : List Value} (obey : ∀ t ∈ expressions, t.Obeys m.captures) :
    ∃ kept', Isolated kept' ((Act.each Act.evaluate Scopes.global expressions).after m) := by
  obtain ⟨kept', step⟩ := (Act.isolating_each Act.isolatingEvaluator_evaluate expressions isolated
    isolated.global obey).after
  exact ⟨kept', step.isolated⟩

/-- The machine that a program starts on has isolated bindings. -/
theorem isolated_standard (files : Files) : ∃ kept, Isolated kept (Machine.standard files) := by
  rw [Machine.standard]
  exact (isolated_withPrimitives files).after_each Library.obeys_expression

/-- Looking a name up in a scope gives a copy of a value. -/
def Machine.Gives (m : Machine) (scope : ScopeId) (name : String) (t : Value) : Prop :=
  ∃ v m', Act.lookup scope name m = .ok v m' ∧ m'.heap.view v = t

/-- What looking a name up gives is the value of the binding that is seen. -/
theorem Isolated.gives_iff {kept : CellId → Prop} {m : Machine} (isolated : Isolated kept m)
    {scope : ScopeId} {name : String} {t : Value} :
    m.Gives scope name t ↔
      ((m.world.scopes.lookup? scope name).map m.heap.view).getD (.error (.unbound name)) = t := by
  -- The way down from a binding ends, and a copy is seen as what was copied.
  unfold Machine.Gives
  -- The name is bound to a handle, which is copied, or it is not bound at all.
  cases found : m.world.scopes.lookup? scope name with
  -- A name that is not bound gives a failure, which changes nothing.
  | none =>
    rw [Act.lookup_none found]
    constructor
    · rintro ⟨v, m', ran, rfl⟩
      cases ran
      rfl
    · rintro rfl
      exact ⟨_, m, rfl, rfl⟩
  | some v =>
    -- The binding is that of some scope of the chain, and it ends.
    obtain ⟨id, _, bound⟩ := List.exists_of_findSome?_eq_some found
    rw [Act.lookup_some found]
    have copied : (liftM (ListOp.copy v) : Act Handle) m =
        .ok (m.heap.place (m.heap.view v)).1 { m with heap := (m.heap.place (m.heap.view v)).2 } :=
      Act.lift_ok (by rw [ListOp.copy_run, if_pos (isolated.ends bound)])
    constructor
    · rintro ⟨w, m', ran, rfl⟩
      cases copied.symm.trans ran
      exact (Heap.view_place m.heap (m.heap.view v)).symm
    · rintro rfl
      exact ⟨_, _, copied, Heap.view_place m.heap (m.heap.view v)⟩

/-- A name that is bound as before all along the chain means what it did. -/
theorem Step.gives {may : ScopeId → Prop} {kept kept' : CellId → Prop} {m m' : Machine}
    (isolated : Isolated kept m) (step : Step may kept m kept' m') {scope : ScopeId}
    (made : m.world.scopes.Made scope) {name : String}
    (same : ∀ s ∈ m.world.scopes.chain scope,
      m'.world.scopes.local? s name = m.world.scopes.local? s name) (t : Value) :
    m'.Gives scope name t ↔ m.Gives scope name t := by
  obtain ⟨writes, written, _⟩ := step.written
  rw [step.isolated.gives_iff, isolated.gives_iff, written.lookup? isolated.ordered made same]
  cases found : m.world.scopes.lookup? scope name with
  | none => rfl
  | some v =>
    -- The binding is the same handle, and its containers have not changed.
    obtain ⟨id, _, bound⟩ := List.exists_of_findSome?_eq_some found
    simp [step.view_bound isolated bound]

/-- A command of an embedding program. -/
inductive Command where
  /-- Gives a value, kept in a register unless its name is empty. -/
  | make (target : String) (maker : Maker)
  /-- Gives an answer. -/
  | ask (query : Query)

namespace Host

/-- The host that a computation leaves, whether or not it stops. -/
def afterRunning {α : Type} (host : Host) (act : HostM α) : Host :=
  match act host with
  | .ok _ host => host
  | .error _ host => host

/-- The host that a command leaves. -/
def after (host : Host) : Command → Host
  | .make target maker => host.afterRunning (HostM.makeInto target maker)
  | .ask query => host.afterRunning (HostM.ask query)

/-- A command that gives a value leaves that value in its register. -/
theorem after_make (host : Host) (target : String) (maker : Maker) :
    host.after (.make target maker) = match HostM.make maker host with
      | .ok v after =>
        if target = "" then after else { after with registers := after.registers.insert target v }
      | .error _ after => after := by
  simp only [Host.after, Host.afterRunning, HostM.makeInto, Bind.bind, EStateM.bind]
  cases HostM.make maker host with
  | error stop after => rfl
  | ok v after =>
    -- With the empty name the value is dropped.
    by_cases empty : target = ""
    · simp only [empty, if_true]
      rfl
    · simp only [empty, if_false]
      rfl

/-- The first form of a source text is placed in new containers and held in a register. -/
theorem after_source (host : Host) {target : String} (named : target ≠ "") {text : Text.Bytes}
    {known : Vocabulary} {form : Form} {rest : List Form} (read : Form.parse text = .ok (form :: rest)) :
    let placed := host.machine.heap.place (form.toValue known)
    (host.after (.make target (.operand (.source text known)))).machine =
        { host.machine with heap := placed.2 } ∧
      (host.after (.make target (.operand (.source text known)))).register target = placed.1 := by
  have made : HostM.make (.operand (.source text known)) host =
      .ok (host.machine.heap.place (form.toValue known)).1
        { host with machine := { host.machine with
          heap := (host.machine.heap.place (form.toValue known)).2 } } := by
    rw [HostM.make, HostM.operand, read]
    rfl
  rw [after_make, made]
  dsimp only
  rw [if_neg named]
  exact ⟨rfl, by simp [Host.register]⟩

/-- The host that commands leave, each carried out on the host that the one before it left. -/
def run (host : Host) (commands : List Command) : Host :=
  commands.foldl after host

/-- The hosts that commands lead to from a machine with nothing bound or from the standard one. -/
inductive Reachable : Host → Prop where
  | bare (files : Files) : Reachable (start (.initial files))
  | standard (files : Files) : Reachable (start (.standard files))
  | after {host : Host} (earlier : Reachable host) (command : Command) :
    Reachable (host.after command)

variable {kept : CellId → Prop} {host : Host}

/-- Commands lead from a host that can be reached to one that can. -/
theorem Reachable.run (reachable : host.Reachable) (commands : List Command) :
    (host.run commands).Reachable := by
  induction commands generalizing host with
  | nil => exact reachable
  | cons command rest ih => exact ih (reachable.after command)

/-- A command that keeps the host secure leaves it so. -/
theorem Secure.afterRunning {α : Type} {act : HostM α} {good : (CellId → Prop) → Host → α → Prop}
    (safe : act.Securing kept host good) :
    ∃ kept', Step kept host kept' (host.afterRunning act) := by
  obtain ⟨kept', ran⟩ := safe
  refine ⟨kept', ?_⟩
  simp only [Host.afterRunning]
  -- A command that stops has taken a step as well.
  cases outcome : act host with
  | ok a host' =>
    simp only [outcome] at ran
    exact ran.1
  | error stop host' =>
    simp only [outcome] at ran
    exact ran

/-- Every command leaves the host secure. -/
theorem Secure.after (secure : host.Secure kept) (command : Command) :
    ∃ kept', Step kept host kept' (host.after command) := by
  cases command with
  | make target maker => exact Secure.afterRunning (HostM.securing_makeInto secure target maker)
  | ask query => exact Secure.afterRunning (HostM.securing_ask secure query)

/-- Any number of commands leave the host secure. -/
theorem Secure.run (commands : List Command) :
    ∀ {kept : CellId → Prop} {host : Host}, host.Secure kept →
      ∃ kept', Step kept host kept' (host.run commands) := by
  -- Each command starts from the secure host that the one before it left.
  induction commands with
  | nil => exact fun secure => ⟨_, secure.refl⟩
  | cons command rest ih =>
    intro kept host secure
    obtain ⟨kept₁, first⟩ := secure.after command
    obtain ⟨kept₂, others⟩ := ih first.secure
    exact ⟨kept₂, first.trans others⟩

/-- A host that starts on a machine with isolated bindings is secure. -/
theorem secure_start {machine : Machine} (isolated : Isolated kept machine) :
    (start machine).Secure kept where
  -- No register of a fresh host holds anything.
  isolated := isolated
  registers name := by
    have empty : (start machine).register name = .none := by simp [start, register]
    rw [empty]
    exact outside_none
  scopes name id held := by
    simp only [start, scope?, Std.TreeMap.getElem?_insert] at held
    -- The only scope that a fresh host holds is the global one.
    split at held
    · cases held
      exact isolated.global
    · simp at held

/-- Every host that can be reached is secure. -/
theorem Reachable.secure (reachable : host.Reachable) : ∃ kept, host.Secure kept := by
  -- The induction is on the commands that were given so far.
  induction reachable with
  | bare files => exact ⟨_, secure_start (isolated_initial files)⟩
  | standard files =>
    obtain ⟨kept, isolated⟩ := isolated_standard files
    exact ⟨kept, secure_start isolated⟩
  | after _ command ih =>
    obtain ⟨kept, secure⟩ := ih
    obtain ⟨kept', step⟩ := secure.after command
    exact ⟨kept', step.secure⟩

/-- A container that a binding leads to is reached from that binding alone, along one path. -/
theorem Secure.reached_once (secure : host.Secure kept) {scope : ScopeId} {name : String}
    {v : Handle} {path : List Turn} {c : CellId}
    (bound : host.machine.world.scopes.local? scope name = some v)
    (leads : host.machine.heap.LeadsTo v path c) {scope' : ScopeId} {name' : String} {v' : Handle}
    {path' : List Turn} (bound' : host.machine.world.scopes.local? scope' name' = some v')
    (leads' : host.machine.heap.LeadsTo v' path' c) :
    scope' = scope ∧ name' = name ∧ path' = path := by
  obtain ⟨t, ids, holds, once, held⟩ := secure.isolated.owned scope name v bound
  obtain ⟨t', ids', holds', _, _⟩ := secure.isolated.owned scope' name' v' bound'
  -- One container in two footprints means one binding, and in one footprint one path.
  obtain ⟨rfl, rfl⟩ := secure.isolated.separate scope' name' v' scope name v bound' bound t' ids' t
    ids holds' holds c (holds'.mem_of_leadsTo leads') (holds.mem_of_leadsTo leads)
  cases bound.symm.trans bound'
  exact ⟨rfl, rfl, holds.path_unique once leads' leads⟩

/-- No register leads to a container that a binding leads to. -/
theorem Secure.not_registered (secure : host.Secure kept) {scope : ScopeId} {name : String}
    {v : Handle} {path : List Turn} {c : CellId}
    (bound : host.machine.world.scopes.local? scope name = some v)
    (leads : host.machine.heap.LeadsTo v path c) (register : String) (path' : List Turn) :
    ¬ host.machine.heap.LeadsTo (host.register register) path' c := by
  obtain ⟨t, ids, holds, _, held⟩ := secure.isolated.owned scope name v bound
  exact fun leads' => (secure.isolated.apart.leadsTo path' (secure.registers register) leads').2
    (held c (holds.mem_of_leadsTo leads))

/--
In every host that can be reached, bindings are isolated from everything outside the scopes.

A container that a binding leads to is reached from that binding alone, along one path, and from no
register. Whatever commands follow only make scopes and write names, and a name that none of them
writes in the chain of a scope still means there what it did: its value depends on nothing but the
bindings themselves.
-/
theorem Reachable.bindings_isolated (reachable : host.Reachable) :
    (∀ scope name v path c, host.machine.world.scopes.local? scope name = some v →
      host.machine.heap.LeadsTo v path c →
        (∀ scope' name' v' path', host.machine.world.scopes.local? scope' name' = some v' →
          host.machine.heap.LeadsTo v' path' c → scope' = scope ∧ name' = name ∧ path' = path) ∧
        ∀ register path', ¬ host.machine.heap.LeadsTo (host.register register) path' c) ∧
    ∀ commands, ∃ writes,
      Scopes.Written writes host.machine.world.scopes (host.run commands).machine.world.scopes ∧
      ∀ scope name, host.machine.world.scopes.Made scope →
        (∀ s ∈ host.machine.world.scopes.chain scope, (s, name) ∉ writes ∨
          (host.run commands).machine.world.scopes.local? s name =
            host.machine.world.scopes.local? s name) →
        ∀ t, (host.run commands).machine.Gives scope name t ↔ host.machine.Gives scope name t := by
  obtain ⟨kept, secure⟩ := reachable.secure
  -- What a binding leads to is owned by that binding, and later commands change bindings by writing
  -- only.
  constructor
  · intro scope name v path c bound leads
    exact ⟨fun scope' name' v' path' bound' leads' =>
      secure.reached_once bound leads bound' leads', secure.not_registered bound leads⟩
  · intro commands
    obtain ⟨kept', step⟩ := secure.run commands
    obtain ⟨writes, written, _⟩ := step.machine.written
    refine ⟨writes, written, fun scope name made same t => ?_⟩
    refine Step.gives secure.isolated step.machine made (fun s member => ?_) t
    -- In each scope of the chain the name was not written, or has been written as it was.
    rcases same s member with unwritten | same
    · exact written.local? unwritten
    · exact same

/--
A list that holds another one in three places is bound.

The binding has a container of its own for each of the places, which no register leads to, and an
element that is appended through a register does not show in it.
-/
theorem Reachable.bindings_isolated_thrice :
    let host := (start (.initial fun _ => .error .missing)).run
      [.make "pair" (.operand (.source (Text.encode "{1 {2 3}}") Primitive.all)),
        .make "inner" (.element "pair" 1), .make "all" (.list .qexpr ["pair", "inner", "pair"]),
        .ask (.bind "global" "x" "all")]
    let later := host.run [.make "one" (.operand (.source (Text.encode "1") Primitive.all)),
      .make "inner" (.append "inner" "one"), .make "pair" (.popFront "all")]
    ∃ v c, host.machine.world.scopes.local? Scopes.global "x" = some v ∧
      host.machine.heap.LeadsTo v [.item 0, .item 1] c ∧
      (∀ path, host.machine.heap.LeadsTo v path c → path = [.item 0, .item 1]) ∧
      (∀ register path, ¬ host.machine.heap.LeadsTo (host.register register) path c) ∧
      ∀ t, later.machine.Gives Scopes.global "x" t ↔ host.machine.Gives Scopes.global "x" t := by
  intro host later
  have reachable : host.Reachable := .run (.bare fun _ => .error .missing) _
  -- The copy that is bound stands in container 8, and its first nested list in container 3.
  have bound : host.machine.world.scopes.local? Scopes.global "x" = some (.list .qexpr ⟨8⟩) := by
    decide +kernel
  have leads : host.machine.heap.LeadsTo (.list .qexpr ⟨8⟩) [.item 0, .item 1] ⟨3⟩ :=
    ⟨.qexpr, by decide +kernel⟩
  have made : host.machine.world.scopes.Made Scopes.global := by decide +kernel
  have same : later.machine.world.scopes.local? Scopes.global "x" = some (.list .qexpr ⟨8⟩) := by
    decide +kernel
  have run : later = host.run [.make "one" (.operand (.source (Text.encode "1") Primitive.all)),
    .make "inner" (.append "inner" "one"), .make "pair" (.popFront "all")] := rfl
  clear_value later host
  -- The container is reached by one path from one binding, and by no register.
  obtain ⟨apart, kept⟩ := Reachable.bindings_isolated reachable
  obtain ⟨alone, unheld⟩ := apart Scopes.global "x" _ _ _ bound leads
  refine ⟨_, ⟨3⟩, bound, leads, fun path other => (alone _ "x" _ path bound other).2.2, unheld, ?_⟩
  -- The later commands bind nothing.
  obtain ⟨writes, _, gives⟩ := kept _
  rw [← run] at gives
  refine gives Scopes.global "x" made fun s member => .inr ?_
  rw [Scopes.chain_global, List.mem_singleton] at member
  subst member
  exact same.trans bound.symm

end Host

end QLisp.Shared
