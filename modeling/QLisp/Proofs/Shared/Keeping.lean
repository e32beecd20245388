import QLisp.Proofs.Shared.Reachable

/-!
What commands keep of the machine.

A command that evaluates nothing works on lists and looks names up, apart from the queries that make
scopes, bind names or set the limit. It keeps whatever can be seen of a machine without its containers.
-/

namespace QLisp.Shared

/-- Whether a command evaluates something. -/
def Command.evaluates : Command → Bool
  | .make _ (.eval ..) | .make _ (.call ..) | .ask (.evalAll ..) => true
  | _ => false

/-- Whether a query changes nothing. -/
def Query.looks : Query → Bool
  | .same .. | .truthy _ | .inspect _ | .contains .. | .names _ | .parent _ | .root _ => true
  | .extend .. | .bind .. | .bindRoot .. | .evalAll .. | .setLimit _ => false

namespace HostM

variable {α β γ : Type} {seen : Machine → γ}

/-- Whatever its outcome, a command keeps what is seen of the machine. -/
def Keeps (seen : Machine → γ) (act : HostM α) : Prop :=
  ∀ host : Host, seen (host.afterRunning act).machine = seen host.machine

/-- A result that needs no work keeps what is seen. -/
theorem keeps_pure (a : α) : Keeps seen (pure a) := fun _ => rfl

/-- Stopping keeps what is seen. -/
theorem keeps_throw (stop : Stop) : Keeps seen (throw stop : HostM α) := fun _ => rfl

/-- Commands that keep what is seen can follow one another. -/
theorem Keeps.bind {act : HostM α} {next : α → HostM β} (first : Keeps seen act)
    (second : ∀ a, Keeps seen (next a)) : Keeps seen (act >>= next) := by
  intro host
  have early := first host
  simp only [Host.afterRunning, Bind.bind, EStateM.bind] at early ⊢
  -- The second command goes on where the first has ended, unless that has stopped.
  cases ran : act host with
  | ok a after =>
    simp only [ran] at early
    exact (second a after).trans early
  | error stop after => simpa only [ran] using early

/-- Reading the host keeps what is seen if what follows does. -/
theorem keeps_get {next : Host → HostM α} (after : ∀ host, Keeps seen (next host)) :
    Keeps seen ((get : HostM Host) >>= next) :=
  fun host => after host host

/-- A computation on the machine keeps what is seen when it does on every machine. -/
theorem keeps_onMachine {act : Act α} (keeps : ∀ m, seen (act.after m) = seen m) :
    Keeps seen (onMachine act) := by
  intro host
  have kept := keeps host.machine
  simp only [Act.after] at kept
  simp only [Host.afterRunning, onMachine]
  cases ran : act host.machine <;> simpa only [ran] using kept

/-- Reading a register keeps what is seen. -/
theorem keeps_register (name : String) : Keeps seen (register name) := fun _ => rfl

/-- Doing the same to each of some things keeps what is seen when doing it to one does. -/
theorem keeps_mapM {f : α → HostM β} (each : ∀ a, Keeps seen (f a)) (items : List α) :
    Keeps seen (items.mapM f) := by
  induction items with
  | nil => exact keeps_pure []
  | cons a rest ih =>
    rw [List.mapM_cons]
    exact (each a).bind fun _ => ih.bind fun _ => keeps_pure _

/-- A command for a scope that is held keeps what is seen if what it does with the scope does. -/
theorem Keeps.onScope {next : ScopeId → HostM α} (name : String)
    (each : ∀ id, Keeps seen (next id)) : Keeps seen (scope name >>= next) := by
  have found : Keeps seen (scope name) := by
    refine keeps_get fun host => ?_
    cases host.scope? name with
    | none => exact keeps_throw _
    | some id => exact keeps_pure id
  exact found.bind each

/-- Keeping a value in a register keeps what is seen when making it does. -/
theorem Keeps.makeInto {maker : Maker} (keeps : Keeps seen (make maker)) (target : String) :
    Keeps seen (makeInto target maker) := by
  refine keeps.bind fun v => ?_
  have rest : Keeps seen do
      return (← get).machine.heap.view v := keeps_get fun _ => keeps_pure _
  split
  · exact rest
  · exact Keeps.bind (fun _ => rfl) fun _ => rest

section WithoutContainers

variable (seen) (blind : ∀ (m : Machine) (h : Heap), seen { m with heap := h } = seen m)
include blind

/-- A list operation keeps what is seen without containers. -/
theorem keeps_list (op : ListOp α) : Keeps seen (onMachine (liftM op)) := by
  refine keeps_onMachine fun m => ?_
  rw [Act.after, Act.lift_run]
  cases op m.heap <;> exact blind m _

/-- Reading an operand keeps what is seen without containers. -/
theorem keeps_operand (source : Operand) : Keeps seen (operand source) := by
  -- A register is only read, and a source is placed in fresh containers.
  cases source with
  | register name => exact keeps_register name
  | source text known =>
    simp only [operand]
    cases Form.parse text with
    | error e => exact keeps_throw _
    | ok forms =>
      cases forms with
      | nil => exact keeps_throw _
      | cons form rest => exact keeps_list seen blind _

/-- Looking a name up keeps what is seen without containers. -/
theorem keeps_lookup (scope : ScopeId) (name : String) :
    Keeps seen (onMachine (Act.lookup scope name)) := by
  intro host
  -- A value that is found is copied.
  cases found : host.machine.world.scopes.lookup? scope name with
  | none =>
    have missed := Act.lookup_none found
    simp only [Host.afterRunning, onMachine, missed]
  | some v =>
    have copied := keeps_list seen blind (ListOp.copy v) host
    simpa only [Host.afterRunning, onMachine, Act.lookup_some found] using copied

/-- A command that gives a value without an evaluation keeps what is seen without containers. -/
theorem keeps_make (target : String) {maker : Maker}
    (plain : (Command.make target maker).evaluates = false) : Keeps seen (make maker) := by
  -- A maker looks at its registers and works on lists, which shows nothing of the world.
  have one : ∀ (name : String) (op : Handle → ListOp Handle), Keeps seen (onRegister name op) :=
    fun name op => (keeps_register name).bind fun v => keeps_list seen blind (op v)
  have two : ∀ (first second : String) (op : Handle → Handle → ListOp Handle),
      Keeps seen (onRegisters first second op) := fun first second op =>
    (keeps_register first).bind fun v => (keeps_register second).bind fun other =>
      keeps_list seen blind (op v other)
  -- Apart from looking a name up, only registers and lists are worked on.
  cases maker with
  | operand source => exact keeps_operand seen blind source
  | symbol | string | error | bare => exact keeps_pure _
  | foreign | lambda => exact fun _ => rfl
  | list kind elements =>
    exact (keeps_mapM keeps_register elements).bind fun _ => keeps_list seen blind _
  | append | pushFront | join => exact two _ _ _
  | popFront | take | split | element | retag | copy | formals | body => exact one _ _
  | lookup scope name =>
    -- A name is looked up in the scope that the host holds, if it holds one.
    refine keeps_get fun host => ?_
    cases host.scope? scope with
    | none => exact keeps_pure _
    | some id => exact keeps_lookup seen blind id name
  | eval | call => cases plain

/-- A query that changes nothing keeps what is seen without containers. -/
theorem keeps_ask {query : Query} (looks : query.looks) : Keeps seen (ask query) := by
  -- Queries read registers, scopes, or nothing at all.
  cases query with
  | same left right =>
    refine (keeps_register left).bind fun _ => (keeps_register right).bind fun _ => ?_
    exact (keeps_list seen blind _).bind fun _ => keeps_pure _
  | truthy | inspect => exact fun _ => rfl
  | contains name key | names name =>
    exact .onScope name fun _ => keeps_get fun _ => keeps_pure _
  | parent name | root name =>
    exact .onScope name fun _ => keeps_get fun _ => keeps_get fun _ => keeps_pure _
  | extend | bind | bindRoot | evalAll | setLimit => cases looks

end WithoutContainers

end HostM
end QLisp.Shared
