import QLisp.Proofs.Shared.Act
import QLisp.Proofs.Shared.Harmless

/-!
Bindings isolated from every value outside the scopes.

The containers that bindings have ever stood on are kept apart from all others. A computation is
isolating when, whatever its outcome, it keeps them so, writes only in scopes that it may write in,
in outermost ones or in ones it makes, and gives no handle on a kept container.
-/

namespace QLisp.Shared

/-- The rule that functions captured scopes of a machine. -/
def Machine.captures (m : Machine) : FunctionRule := .captures m.world.scopes.Made

/-- A handle owns a tree of kept containers. -/
def Owned (kept : CellId → Prop) (m : Machine) (v : Handle) : Prop :=
  ∃ t ids, Holds m.heap m.captures v t ids ∧ ids.Nodup ∧ ∀ id ∈ ids, kept id

/-- Every binding owns a tree of kept containers, and no other container leads to a kept one. -/
structure Isolated (kept : CellId → Prop) (m : Machine) : Prop where
  /-- Kept containers are apart from all others. -/
  apart : Apart kept m.world.scopes.Made m.heap
  /-- There is a global scope. -/
  global : m.world.scopes.Made Scopes.global
  /-- Parents are made before their children. -/
  ordered : m.world.scopes.ParentsFirst
  /-- Every binding owns the containers it stands on. -/
  owned : ∀ id name v, m.world.scopes.local? id name = some v → Owned kept m v
  /-- Two bindings stand on different containers. -/
  separate : ∀ id name v id' name' v', m.world.scopes.local? id name = some v →
    m.world.scopes.local? id' name' = some v' → ∀ t ids t' ids',
      Holds m.heap m.captures v t ids → Holds m.heap m.captures v' t' ids' →
      ∀ c ∈ ids, c ∈ ids' → id = id' ∧ name = name'

/-- A handle leads to no kept container of a machine. -/
def Loose (kept : CellId → Prop) (m : Machine) (v : Handle) : Prop :=
  Outside kept m.world.scopes.Made m.heap v

/-- The scopes that a computation may change: given ones, outermost ones, and ones not made yet. -/
def Writable (may : ScopeId → Prop) (m : Machine) (id : ScopeId) : Prop :=
  m.world.scopes.Made id → may id ∨ m.world.scopes.parent? id = none

/-- A machine after some steps that kept bindings isolated. -/
structure Step (may : ScopeId → Prop) (kept : CellId → Prop) (m : Machine)
    (kept' : CellId → Prop) (m' : Machine) : Prop where
  /-- Bindings are still isolated. -/
  isolated : Isolated kept' m'
  /-- No container is lost. -/
  size : m.heap.containers.size ≤ m'.heap.containers.size
  /-- What was kept is still kept. -/
  grown : ∀ c, kept c → kept' c
  /-- What is kept now was kept before or has been made since. -/
  fresh : ∀ c, kept' c → kept c ∨ ¬ m.heap.Made c
  /-- No kept container is changed. -/
  frozen : ∀ c, kept c → m'.heap.container c = m.heap.container c
  /-- Names are written in writable scopes only. -/
  written : ∃ writes, Scopes.Written writes m.world.scopes m'.world.scopes ∧
    ∀ write ∈ writes, Writable may m write.1

variable {may may' : ScopeId → Prop} {kept kept' kept'' : CellId → Prop} {m m' m'' : Machine}

/-- A machine with isolated bindings is reached in no step. -/
theorem Isolated.refl (isolated : Isolated kept m) : Step may kept m kept m where
  isolated := isolated
  size := Nat.le_refl _
  grown _ held := held
  fresh _ held := .inl held
  frozen _ _ := rfl
  written := ⟨[], .nil _, by simp⟩

/-- Scopes that were made stay made. -/
theorem Step.made (step : Step may kept m kept' m') {id : ScopeId}
    (made : m.world.scopes.Made id) : m'.world.scopes.Made id := by
  obtain ⟨writes, written, _⟩ := step.written
  exact written.made made

/-- Scopes that were made keep their parents. -/
theorem Step.parent? (step : Step may kept m kept' m') {id : ScopeId}
    (made : m.world.scopes.Made id) :
    m'.world.scopes.parent? id = m.world.scopes.parent? id := by
  obtain ⟨writes, written, _⟩ := step.written
  exact written.parent? made

/-- What is writable later was writable before, if the later permission was covered. -/
theorem Step.writable (step : Step may kept m kept' m')
    (covered : ∀ id, may' id → Writable may m id) {id : ScopeId} (later : Writable may' m' id) :
    Writable may m id := by
  intro made
  rcases later (step.made made) with allowed | outermost
  · exact covered id allowed made
  · exact .inr (step.parent? made ▸ outermost)

/-- Steps can be taken one after the other, the later ones within the permission of the first. -/
theorem Step.trans (first : Step may kept m kept' m') (second : Step may' kept' m' kept'' m'')
    (covered : ∀ id, may' id → Writable may m id) : Step may kept m kept'' m'' where
  isolated := second.isolated
  size := Nat.le_trans first.size second.size
  grown c held := second.grown c (first.grown c held)
  -- What the second step calls new is new, or was new to the first.
  fresh c held := by
    rcases second.fresh c held with before | new
    · exact first.fresh c before
    · exact .inr fun old => new (Nat.lt_of_lt_of_le old first.size)
  frozen c held := (second.frozen c (first.grown c held)).trans (first.frozen c held)
  written := by
    obtain ⟨writes, written, inside⟩ := first.written
    obtain ⟨more, written', inside'⟩ := second.written
    refine ⟨more ++ writes, written.trans written', fun write member => ?_⟩
    -- A write is one of the first step or one of the second.
    rcases List.mem_append.mp member with late | early
    · exact first.writable covered (inside' write late)
    · exact inside write early

/-- What leads to no kept container still does not after some steps. -/
theorem Loose.step {v : Handle} (loose : Loose kept m v) (step : Step may kept m kept' m') :
    Loose kept' m' v := by
  refine ⟨fun id member => ?_, fun s member => step.made (loose.scopes s member)⟩
  obtain ⟨made, free⟩ := loose.cells id member
  refine ⟨Nat.lt_of_lt_of_le made step.size, fun held => ?_⟩
  rcases step.fresh id held with before | new
  · exact free before
  · exact new made

/-- A kept handle stands for the same value after some steps. -/
theorem Owned.step {v : Handle} {t : Value} {ids : List CellId}
    (holds : Holds m.heap m.captures v t ids) (held : ∀ id ∈ ids, kept id)
    (step : Step may kept m kept' m') : Holds m'.heap m'.captures v t ids :=
  holds.transport (fun id member => by simp [Heap.items, step.frozen id (held id member)])
    fun _ _ _ captured s member => step.made (captured s member)

/-- Every way down from a binding ends. -/
theorem Isolated.ends (isolated : Isolated kept m) {id : ScopeId} {name : String} {v : Handle}
    (bound : m.world.scopes.local? id name = some v) : m.heap.ends v = true := by
  obtain ⟨t, ids, holds, once, held⟩ := isolated.owned id name v bound
  exact holds.ends once fun c member => isolated.apart.made c (held c member)

/-- What is bound stands for the same value after some steps. -/
theorem Step.view_bound (step : Step may kept m kept' m') (isolated : Isolated kept m)
    {id : ScopeId} {name : String} {v : Handle}
    (bound : m.world.scopes.local? id name = some v) : m'.heap.view v = m.heap.view v := by
  obtain ⟨t, ids, holds, once, held⟩ := isolated.owned id name v bound
  have before := holds.view once fun c member => isolated.apart.made c (held c member)
  have after := (Owned.step holds held step).view once fun c member =>
    step.isolated.apart.made c (step.grown c (held c member))
  rw [before, after]

namespace Act

/-- Whatever its outcome, a computation keeps bindings isolated, and a result is good. -/
def Isolating (may : ScopeId → Prop) (kept : CellId → Prop) (m : Machine) {α : Type} (act : Act α)
    (good : (CellId → Prop) → Machine → α → Prop) : Prop :=
  ∃ kept', match act m with
    | .ok a m' => Step may kept m kept' m' ∧ good kept' m' a
    | .error _ m' => Step may kept m kept' m'

variable {α β : Type}

/-- A computation that runs like another one is isolating when that one is. -/
theorem Isolating.congr {act act' : Act α} {good : (CellId → Prop) → Machine → α → Prop}
    (safe : Isolating may kept m act' good) (same : act m = act' m) :
    Isolating may kept m act good := by
  simpa only [Isolating, same] using safe

/-- An isolating computation that ends with a result keeps bindings isolated, and the result is good. -/
theorem Isolating.ok {act : Act α} {good : (CellId → Prop) → Machine → α → Prop}
    (safe : Isolating may kept m act good) {a : α} (ran : act m = .ok a m') :
    ∃ kept', Step may kept m kept' m' ∧ good kept' m' a := by
  obtain ⟨kept', outcome⟩ := safe
  simp only [ran] at outcome
  exact ⟨kept', outcome⟩

/-- A result that needs no work is isolating. -/
theorem isolating_pure (isolated : Isolated kept m) {a : α}
    {good : (CellId → Prop) → Machine → α → Prop} (fine : good kept m a) :
    Isolating may kept m (pure a) good :=
  ⟨kept, isolated.refl, fine⟩

/-- A fault without work is isolating. -/
theorem isolating_throw (isolated : Isolated kept m) {fault : Fault}
    {good : (CellId → Prop) → Machine → α → Prop} : Isolating may kept m (throw fault) good :=
  ⟨kept, isolated.refl⟩

/-- Isolating computations can follow one another, the later within the permission of the first. -/
theorem Isolating.bindWithin {act : Act α} {next : α → Act β}
    {good : (CellId → Prop) → Machine → α → Prop} {fine : (CellId → Prop) → Machine → β → Prop}
    (first : Isolating may kept m act good) (within : α → ScopeId → Prop)
    (second : ∀ kept' m' a, Step may kept m kept' m' → good kept' m' a →
      (∀ id, within a id → Writable may m id) ∧ Isolating (within a) kept' m' (next a) fine) :
    Isolating may kept m (act >>= next) fine := by
  -- The second computation starts where the first one ended with a result.
  obtain ⟨kept', first⟩ := first
  simp only [Isolating, Bind.bind, EStateM.bind]
  cases ran : act m with
  | error fault m' =>
    simp only [ran] at first
    exact ⟨kept', first⟩
  -- The second computation goes on where the first one has stopped.
  | ok a m' =>
    simp only [ran] at first
    obtain ⟨covered, kept'', later⟩ := second kept' m' a first.1 first.2
    refine ⟨kept'', ?_⟩
    cases ran' : next a m' with
    | ok b m'' =>
      simp only [ran'] at later ⊢
      exact ⟨first.1.trans later.1 covered, later.2⟩
    | error fault m'' =>
      simp only [ran'] at later ⊢
      exact first.1.trans later covered

/-- Isolating computations with one permission can follow one another. -/
theorem Isolating.bind {act : Act α} {next : α → Act β}
    {good : (CellId → Prop) → Machine → α → Prop} {fine : (CellId → Prop) → Machine → β → Prop}
    (first : Isolating may kept m act good)
    (second : ∀ kept' m' a, Step may kept m kept' m' → good kept' m' a →
      Isolating may kept' m' (next a) fine) :
    Isolating may kept m (act >>= next) fine :=
  first.bindWithin (fun _ => may) fun kept' m' a step fine =>
    ⟨fun _ allowed _ => .inl allowed, second kept' m' a step fine⟩

/-- What is good of a result may be weakened. -/
theorem Isolating.imp {act : Act α} {good fine : (CellId → Prop) → Machine → α → Prop}
    (ran : Isolating may kept m act good)
    (weaker : ∀ kept' m' a, Step may kept m kept' m' → good kept' m' a → fine kept' m' a) :
    Isolating may kept m act fine := by
  obtain ⟨kept', ran⟩ := ran
  refine ⟨kept', ?_⟩
  cases outcome : act m with
  | ok a m' =>
    simp only [outcome] at ran ⊢
    exact ⟨ran.1, weaker kept' m' a ran.1 ran.2⟩
  | error fault m' => simpa only [outcome] using ran

/-- A computation with a smaller permission is isolating with a larger one. -/
theorem Isolating.widen {act : Act α} {good : (CellId → Prop) → Machine → α → Prop}
    (ran : Isolating may' kept m act good) (isolated : Isolated kept m)
    (covered : ∀ id, may' id → Writable may m id) : Isolating may kept m act good := by
  obtain ⟨kept', ran⟩ := ran
  refine ⟨kept', ?_⟩
  -- Ending and faulting are alike here: the step that was taken is covered by the larger
  -- permission.
  cases outcome : act m with
  | ok a m' =>
    simp only [outcome] at ran ⊢
    exact ⟨isolated.refl.trans ran.1 covered, ran.2⟩
  | error fault m' =>
    simp only [outcome] at ran ⊢
    exact isolated.refl.trans ran covered

end Act
end QLisp.Shared
