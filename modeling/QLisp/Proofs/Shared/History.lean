import QLisp.Proofs.Chain
import QLisp.Proofs.Shared.Frame
import QLisp.Proofs.Shared.Keeping
import QLisp.Proofs.Text.ByteOrder

/-!
What names mean after a history of scopes.

Commands that evaluate nothing make scopes and write names in them. After any number of such commands
a name means what was last written to it in the nearest scope in which it was ever written, and a
scope itself binds exactly the names that were written there.
-/

namespace QLisp.Scopes

variable {α : Type} {scopes : Scopes α}

/-- The chain of a scope leads through its ancestors to the end. -/
theorem exists_climbs (ordered : scopes.ParentsFirst) (s : ScopeId) :
    ∃ back, scopes.chain s = s :: back ∧ scopes.Climbs s back none := by
  -- The induction is on the identity; a parent has a smaller one.
  obtain ⟨index⟩ := s
  induction index using Nat.strongRecOn with
  | ind index ih =>
    rw [chain_eq ordered]
    cases link : scopes.parent? ⟨index⟩ with
    | none => exact ⟨[], rfl, link⟩
    | some parent =>
      obtain ⟨back, chain, climbs⟩ := ih parent.index (ordered _ parent link)
      exact ⟨parent :: back, congrArg _ chain, link, climbs⟩

/-- The names of a scope are those that it binds. -/
theorem mem_names {s : ScopeId} {name : String} :
    name ∈ scopes.names s ↔ (scopes.local? s name).isSome := by
  rw [names, local?]
  cases scopes.get? s with
  | none => simp
  | some scope =>
    rw [Option.bind_some, Std.TreeMap.mem_keys, Std.TreeMap.mem_iff_isSome_getElem?]

/-- The names of a scope are in the order of their bytes. -/
theorem names_ordered (scopes : Scopes α) (s : ScopeId) :
    (scopes.names s).Pairwise fun a b => Text.encode a < Text.encode b := by
  rw [names]
  cases scopes.get? s with
  | none => exact List.Pairwise.nil
  | some scope =>
    refine (Std.TreeMap.ordered_keys (t := scope.bindings)).imp fun {a b} before => ?_
    exact Text.encode_lt (compareOfLessAndEq_eq_lt.mp before)

end QLisp.Scopes

namespace QLisp.Shared

/-- What has been done to scopes. -/
structure History where
  /-- The parents that the scopes were made with, in the order in which they were made. -/
  parents : List (Option ScopeId)
  /-- The names that were written, each in a scope and with its value, the latest first. -/
  writes : List ((ScopeId × String) × Value)

namespace History

/-- The global scope has been made, and nothing has been written. -/
def initial : History := ⟨[none], []⟩

/-- What has been done when one more scope has been made. -/
def extend (past : History) (parent : Option ScopeId) : History :=
  { past with parents := past.parents ++ [parent] }

/-- What has been done when one more name has been written. -/
def write (past : History) (scope : ScopeId) (name : String) (v : Value) : History :=
  { past with writes := ((scope, name), v) :: past.writes }

/-- The parent that a scope was made with. -/
def parent? (past : History) (scope : ScopeId) : Option ScopeId :=
  past.parents[scope.index]?.join

/-- The value that was last written to a name in a scope. -/
def last? (past : History) (scope : ScopeId) (name : String) : Option Value :=
  past.writes.lookup (scope, name)

end History

namespace Host

/-- What has been done when a register has been put into a scope, if it can be. -/
def put (host : Host) (past : History) (scope : Option ScopeId) (name register : String) : History :=
  match scope with
  | some scope =>
    if host.machine.heap.ends (host.register register) then
      past.write scope name (host.machine.heap.view (host.register register))
    else past
  | none => past

/-- What has been done to scopes after one more command. -/
def record (host : Host) (past : History) : Command → History
  | .ask (.extend _ parent) => past.extend (host.scope? parent)
  | .ask (.bind scope name value) => host.put past (host.scope? scope) name value
  | .ask (.bindRoot scope name value) =>
    host.put past ((host.scope? scope).map host.machine.world.scopes.root) name value
  | _ => past

/-- What has been done to scopes after more commands. -/
def history (host : Host) (past : History) : List Command → History
  | [] => past
  | command :: rest => (host.after command).history (host.record past command) rest

end Host

variable {past : History} {kept kept' : CellId → Prop} {m m' : Machine}

namespace History

/-- A value that is written is the last one there, and elsewhere the last one stays. -/
theorem last?_write (past : History) (scope s : ScopeId) (name key : String) (v : Value) :
    (past.write scope name v).last? s key =
      if s = scope ∧ key = name then some v else past.last? s key := by
  by_cases same : s = scope ∧ key = name
  · obtain ⟨rfl, rfl⟩ := same
    simp [last?, write]
  · have different : ((s, key) == (scope, name)) = false := by simpa using same
    rw [if_neg same, last?, write, List.lookup_cons, different]
    rfl

/-- A value was last written to a name exactly when the name was written. -/
theorem isSome_last? (past : History) (s : ScopeId) (name : String) :
    (past.last? s name).isSome ↔ ∃ v, ((s, name), v) ∈ past.writes := by
  rw [last?, List.lookup_isSome_iff]
  constructor
  · rintro ⟨⟨key, v⟩, member, same⟩
    exact ⟨v, eq_of_beq same ▸ member⟩
  · rintro ⟨v, member⟩
    exact ⟨_, member, beq_self_eq_true _⟩

/-- The parent of a scope that is made is recorded, and those of others stay. -/
theorem parent?_extend (past : History) (parent : Option ScopeId) (s : ScopeId) :
    (past.extend parent).parent? s =
      if s.index = past.parents.length then parent else past.parent? s := by
  rw [parent?, parent?, extend, List.getElem?_append]
  -- The scope is the one that is made, one of those before it, or none at all.
  by_cases last : s.index = past.parents.length
  · rw [if_pos last, last, if_neg (Nat.lt_irrefl _), Nat.sub_self]
    rfl
  · rw [if_neg last]
    by_cases below : s.index < past.parents.length
    · rw [if_pos below]
    · have beyond : ([parent] : List (Option ScopeId))[s.index - past.parents.length]? = none :=
        List.getElem?_eq_none (by rw [List.length_singleton]; omega)
      rw [if_neg below, beyond, List.getElem?_eq_none (Nat.le_of_not_lt below)]

/-- A machine is what a history has made of one with an empty global scope. -/
structure Of (past : History) (m : Machine) : Prop where
  /-- As many scopes as recorded have been made. -/
  size : m.world.scopes.made.size = past.parents.length
  /-- Every scope has the parent that it was made with. -/
  parents (s : ScopeId) : m.world.scopes.parent? s = past.parent? s
  /-- Every scope binds a name to the value that was last written to it there. -/
  bindings (s : ScopeId) (name : String) : m.binding? s name = past.last? s name

namespace Of

/-- Nothing has been done to a fresh machine. -/
theorem initial (files : Files) : History.initial.Of (.initial files) where
  size := rfl
  parents s := by
    obtain ⟨index⟩ := s
    cases index <;> rfl
  bindings s name := by
    rw [Machine.binding?, show (Machine.initial files).world.scopes = .initial from rfl,
      Scopes.local?_initial]
    rfl

/-- A step that leaves the scopes alone does nothing to them. -/
theorem same {may : ScopeId → Prop} (done : past.Of m) (isolated : Isolated kept m)
    (step : Step may kept m kept' m') (scopes : m'.world.scopes = m.world.scopes) : past.Of m' where
  size := by rw [scopes, done.size]
  parents s := by rw [scopes, done.parents]
  bindings s name := by rw [step.binding? isolated (by rw [scopes]), done.bindings]

/-- Making a scope adds it to the history. -/
theorem extend (done : past.Of m) (parent : Option ScopeId) :
    (past.extend parent).Of { m with world.scopes := m.world.scopes.extend parent } where
  size := by simp [History.extend, done.size]
  parents s := by
    -- The next scope of the machine is the one that the history has no parent for yet.
    have new : s = m.world.scopes.next ↔ s.index = past.parents.length := by
      rw [← done.size]
      cases s
      simp [Scopes.next]
    simp only [Scopes.parent?_extend, parent?_extend, new, done.parents]
  bindings s name := by
    have before : m.binding? s name = (past.extend parent).last? s name := done.bindings s name
    simpa [Machine.binding?] using before

/-- Binding a name to a copy of a value adds it to the history. -/
theorem write {may : ScopeId → Prop} (done : past.Of m) (isolated : Isolated kept m)
    {scope : ScopeId} (made : m.world.scopes.Made scope) (name : String) (t : Value)
    (scopes : m'.world.scopes = m.world.scopes.bind scope name (m.heap.place t).1)
    (heap : m'.heap = (m.heap.place t).2) (step : Step may kept m kept' m') :
    (past.write scope name t).Of m' where
  size := by rw [scopes, Scopes.size_bind, done.size, History.write]
  parents s := by
    rw [scopes, Scopes.parent?_bind, done.parents]
    rfl
  bindings s key := by
    rw [last?_write, step.binding?_bind isolated made scopes heap, done.bindings]

/-- What a name means is what was last written to it in the nearest scope that it was written in. -/
theorem gives (done : past.Of m) (isolated : Isolated kept m) (scope : ScopeId) (name : String)
    (t : Value) : m.Gives scope name t ↔
      ((m.world.scopes.chain scope).findSome? (past.last? · name)).getD (.error (.unbound name)) =
        t := by
  have seen : (fun s => past.last? s name) = fun s => m.binding? s name :=
    funext fun s => (done.bindings s name).symm
  rw [isolated.gives_iff_binding?, seen]

/-- A scope binds the names that were written in it. -/
theorem isSome_local? (done : past.Of m) (s : ScopeId) (name : String) :
    (m.world.scopes.local? s name).isSome ↔ ∃ v, ((s, name), v) ∈ past.writes := by
  rw [← past.isSome_last? s name, ← done.bindings s name, Machine.binding?, Option.isSome_map]

end Of
end History

namespace HostM

variable {α β : Type}

/-- A command for a scope goes on when the scope is held. -/
theorem scope_bind (name : String) (next : ScopeId → HostM α) (host : Host) :
    (scope name >>= next) host = match host.scope? name with
      | some id => next id host
      | none => .error (.fault .noScope) host := by
  unfold scope
  rw [bind_assoc, get_bind]
  cases host.scope? name <;> rfl

/-- What a computation on the machine leaves of it, with an answer after it. -/
theorem machine_onMachine (act : Act α) (b : β) (host : Host) :
    (host.afterRunning (do
      let _ ← onMachine act
      return b)).machine = act.after host.machine := by
  simp only [Host.afterRunning, Bind.bind, EStateM.bind, onMachine, Act.after]
  cases act host.machine <;> rfl

/-- What a computation with a scope that is held and a register leaves of the machine. -/
theorem machine_onScope (act : ScopeId → Handle → Act Unit) (name value : String) (host : Host) :
    (host.afterRunning (do
      let id ← scope name
      let v ← register value
      onMachine (act id v)
      return Reply.done)).machine = match host.scope? name with
        | some id => (act id (host.register value)).after host.machine
        | none => host.machine := by
  simp only [Host.afterRunning, scope_bind]
  cases host.scope? name with
  | none => rfl
  | some id => exact machine_onMachine (act id (host.register value)) Reply.done host

end HostM

namespace Host

variable {host : Host}

/-- Putting a register into a scope that has been made adds it to the history. -/
theorem put_of (secure : host.Secure kept) (done : past.Of host.machine) {scope : ScopeId}
    (made : host.machine.world.scopes.Made scope) (name register : String) :
    (host.put past (some scope) name register).Of
      ((Act.bind scope name (host.register register)).after host.machine) := by
  have loose := secure.registers register
  have safe : Act.Isolating (· = scope) kept host.machine
      (Act.bind scope name (host.register register)) fun _ _ _ => True :=
    Act.isolating_bindOwn secure.isolated name loose
  obtain ⟨kept', step⟩ := safe.after
  -- The value that is recorded is the one that the machine copies.
  by_cases ends : host.machine.heap.ends (host.register register)
  · simp only [put, ends, if_true]
    rw [Act.after, Act.bind_made made name ends] at step ⊢
    exact done.write secure.isolated made name _ rfl rfl step
  · -- A value that is part of itself is not bound at all.
    obtain ⟨fault, missed⟩ := Act.bind_missed name fun found : host.machine.world.scopes.Made scope ∧
      host.machine.heap.ends (host.register register) => ends found.2
    simp only [put, ends, Act.after, missed]
    exact done

/-- After a command that evaluates nothing, the machine is what the longer history has made of it. -/
theorem record_of (secure : host.Secure kept) (done : past.Of host.machine) {command : Command}
    (plain : command.evaluates = false) :
    (host.record past command).Of (host.after command).machine := by
  -- The command leaves the scopes as they are, or records what it does to them.
  obtain ⟨kept', step⟩ := secure.after command
  have still : (host.after command).machine.world.scopes = host.machine.world.scopes →
      past.Of (host.after command).machine := done.same secure.isolated step.machine
  -- Only three of the commands write in scopes, and the others leave all of them as they are.
  cases command with
  | make target maker =>
    have made := HostM.keeps_make (·.world.scopes) (fun _ _ => rfl) target plain
    exact still (made.makeInto target host)
  | ask query =>
    cases query with
    | extend name parent => exact done.extend (host.scope? parent)
    | bind name key value =>
      -- A binding is made in the scope that the host holds under the name.
      have left := HostM.machine_onScope (fun id v => Act.bind id key v) name value host
      rw [show (host.after (.ask (.bind name key value))).machine = _ from left]
      simp only [record]
      cases held : host.scope? name with
      | none => exact done
      | some id => exact put_of secure done (secure.scopes name id held) key value
    | bindRoot name key value =>
      have left := HostM.machine_onScope (fun id v => Act.bindRoot id key v) name value host
      rw [show (host.after (.ask (.bindRoot name key value))).machine = _ from left]
      simp only [record]
      cases held : host.scope? name with
      | none => exact done
      | some id =>
        have made := secure.scopes name id held
        -- The outermost scope of a chain is the one that the machine finds as well.
        have root := Scopes.root_outermost secure.isolated.ordered made
        have same : (Act.bindRoot id key (host.register value)).after host.machine =
            (Act.bind (host.machine.world.scopes.root id) key (host.register value)).after
              host.machine := by
          rw [Act.after, Act.bindRoot, Act.bind_ok (Act.root_made made), Act.after]
        show (host.put past (some (host.machine.world.scopes.root id)) key value).Of
          ((Act.bindRoot id key (host.register value)).after host.machine)
        rw [same]
        exact put_of secure done root.1 key value
    | evalAll => cases plain
    -- Evaluations are left out, and the limit is no part of the scopes.
    | setLimit => exact still rfl
    | _ => exact still (HostM.keeps_ask (·.world.scopes) (fun _ _ => rfl) rfl host)

/-- After commands that evaluate nothing, the machine is what their history has made of it. -/
theorem history_of {commands : List Command}
    (plain : ∀ command ∈ commands, command.evaluates = false) (secure : host.Secure kept)
    (done : past.Of host.machine) : (host.history past commands).Of (host.run commands).machine := by
  induction commands generalizing host past kept with
  | nil => exact done
  | cons command rest ih =>
    obtain ⟨kept', step⟩ := secure.after command
    have first := record_of secure done (plain command List.mem_cons_self)
    exact ih (fun command member => plain command (List.mem_cons_of_mem _ member)) step.secure first

/--
A name means what was last written to it in the nearest scope that it was ever written in.

The commands make scopes, put values into them, define values in the outermost scopes of their chains,
change lists and look names up in any order, but evaluate nothing. Afterwards every scope has the
parent that it was made with, its chain comes to an end, and seen from it a name has the value that
was last written to it in the first scope of the chain that it was ever written in, as that value was
when it was written, or else is not bound. A scope itself binds exactly the names that were written in
it, and lists each of them once, in the order of their bytes.
-/
theorem scopes_follow_history (files : Files) {commands : List Command}
    (plain : ∀ command ∈ commands, command.evaluates = false) :
    let host := (start (.initial files)).run commands
    let past := (start (.initial files)).history .initial commands
    host.machine.world.scopes.made.size = past.parents.length ∧
    (∀ scope, host.machine.world.scopes.parent? scope = past.parent? scope) ∧
    ∀ scope, host.machine.world.scopes.Made scope →
      (∃ back, host.machine.world.scopes.Climbs scope back none ∧
        (∀ s ∈ back, s.index < scope.index) ∧
        host.machine.world.scopes.root scope = back.getLastD scope ∧
        ∀ name t, host.machine.Gives scope name t ↔
          ((scope :: back).findSome? (past.last? · name)).getD (.error (.unbound name)) = t) ∧
      (∀ name, (host.machine.world.scopes.local? scope name).isSome ↔
        ∃ v, ((scope, name), v) ∈ past.writes) ∧
      (∀ name, name ∈ host.machine.world.scopes.names scope ↔
        ∃ v, ((scope, name), v) ∈ past.writes) ∧
      (host.machine.world.scopes.names scope).Pairwise fun a b => Text.encode a < Text.encode b := by
  intro host past
  have secure : (start (.initial files)).Secure fun _ => False :=
    secure_start (isolated_initial files)
  -- The host stays secure through all commands, and the history goes along with it.
  obtain ⟨kept, step⟩ := secure.run commands
  have isolated : Isolated kept host.machine := step.secure.isolated
  have done : past.Of host.machine := history_of plain secure (.initial files)
  -- The history of the commands tells the scopes, and each part is read off it.
  refine ⟨done.size, done.parents, fun scope made => ⟨?_, ?_, ?_, ?_⟩⟩
  -- The chain of a scope is the way up, which ends at its root.
  · obtain ⟨back, chain, climbs⟩ := Scopes.exists_climbs isolated.ordered scope
    refine ⟨back, climbs, (climbs.below isolated.ordered).1, ?_, fun name t => ?_⟩
    · rw [Scopes.root, chain, List.getLastD_cons]
    · rw [done.gives isolated, chain]
  · exact done.isSome_local? scope
  · intro name
    rw [Scopes.mem_names, done.isSome_local?]
  · exact Scopes.names_ordered _ scope

/-- An inner scope sees its own value of a name, and an outer one what was defined from within. -/
theorem scopes_follow_history_shadowed :
    let host := (start (.initial fun _ => .error .missing)).run
      [.ask (.extend "inner" "global"), .make "x" (.string (Text.encode "new")),
        .make "y" (.string (Text.encode "old")), .ask (.bind "global" "a" "y"),
        .ask (.bind "inner" "a" "y"), .ask (.bindRoot "inner" "a" "x")]
    host.machine.Gives ⟨1⟩ "a" (.string (Text.encode "old")) ∧
      host.machine.Gives ⟨0⟩ "a" (.string (Text.encode "new")) := by
  intro host
  have plain : ∀ command ∈ ([.ask (.extend "inner" "global"), .make "x" (.string (Text.encode "new")),
      .make "y" (.string (Text.encode "old")), .ask (.bind "global" "a" "y"), .ask (.bind "inner" "a" "y"),
      .ask (.bindRoot "inner" "a" "x")] : List Command), command.evaluates = false := by decide
  -- The commands evaluate nothing, so the history is that of the host.
  obtain ⟨_, _, each⟩ := scopes_follow_history (fun _ => .error .missing) plain
  -- The names are looked up from the inner scope and from the outer one.
  constructor
  · obtain ⟨⟨back, climbs, _, _, gives⟩, _⟩ := each ⟨1⟩ (by decide)
    refine (gives "a" (.string (Text.encode "old"))).mpr ?_
    rw [List.findSome?_cons]
    rfl
  · obtain ⟨⟨back, climbs, _, _, gives⟩, _⟩ := each ⟨0⟩ (by decide)
    refine (gives "a" (.string (Text.encode "new"))).mpr ?_
    rw [List.findSome?_cons]
    rfl

end Host
end QLisp.Shared
