import QLisp.Proofs.Shared.Act
import QLisp.Proofs.Shared.Edit
import QLisp.Proofs.Shared.Footprint

/-!
A machine that mirrors a world of immutable values.

Bindings stand on containers of a store that nobody changes. A computation owns the containers of
the handles it is given and those made while it runs, and follows a run on immutable values when it
ends in a machine that mirrors the world that the run leaves. A machine is proper when every list
has a container and every function a quoted body, as in all that programs make.
-/

namespace QLisp.Shared

/-- The rule that functions captured scopes of the machine and, if all is proper, are well formed. -/
def Machine.sound (m : Machine) (proper : Prop) : HandleRule where
  functions _ body scope :=
    (proper → ∃ items, body = .qexpr items) ∧ ∀ s ∈ scope, m.world.scopes.Made s
  bare := ¬ proper

/-- A binding of a machine stands on the store for the value that the world binds. -/
def Stored (proper : Prop) (store : CellId → Prop)
    (m : Machine) : Option Handle → Option Value → Prop
  | none, none => True
  | some v, some t => ∃ ids, Holds m.heap (m.sound proper) v t ids ∧ ids.Nodup ∧ ∀ c ∈ ids, store c
  | _, _ => False

/-- A machine mirrors a world: all that a program can see of either is the same. -/
structure Mirrors (proper : Prop) (mine store : CellId → Prop) (m : Machine) (w : World Value) :
    Prop where
  /-- What is made from now on may be changed. -/
  room : ∀ c, ¬ m.heap.Made c → mine c
  /-- The store has been made. -/
  stored : ∀ c, store c → m.heap.Made c
  /-- There is a global scope. -/
  global : m.world.scopes.Made Scopes.global
  /-- Parents are made before their children. -/
  ordered : m.world.scopes.ParentsFirst
  /-- As many scopes have been made. -/
  size : m.world.scopes.made.size = w.scopes.made.size
  /-- The scopes have the same parents. -/
  parent? : ∀ id, m.world.scopes.parent? id = w.scopes.parent? id
  /-- The scopes bind the same names to the same values. -/
  bound : ∀ id name, Stored proper store m (m.world.scopes.local? id name) (w.scopes.local? id name)
  /-- The same text has been printed. -/
  output : m.world.output = w.output
  /-- The limit is the same. -/
  limit : m.world.limit = w.limit
  /-- The files are the same. -/
  files : m.world.files = w.files
  /-- The same files have been asked for. -/
  asked : m.world.asked = w.asked

/-- How many reductions are in progress does not matter. -/
theorem Mirrors.atDepth {proper : Prop} {mine store : CellId → Prop} {m : Machine} {w : World Value}
    (mirrors : Mirrors proper mine store m w) (depth : Nat) :
    Mirrors proper mine store { m with depth := depth } w :=
  { mirrors with }

/-- A machine after steps that changed none but some containers, and the store not at all. -/
structure Moves (mine store : CellId → Prop) (m : Machine) (store' : CellId → Prop)
    (m' : Machine) : Prop where
  /-- No container is lost. -/
  size : m.heap.containers.size ≤ m'.heap.containers.size
  /-- Other containers are as they were. -/
  frame : ∀ c, m.heap.Made c → ¬ mine c → m'.heap.container c = m.heap.container c
  /-- The store is as it was. -/
  frozen : ∀ c, store c → m'.heap.container c = m.heap.container c
  /-- Nothing is taken out of the store. -/
  grown : ∀ c, store c → store' c
  /-- What goes into the store has been made since. -/
  fresh : ∀ c, store' c → store c ∨ ¬ m.heap.Made c
  /-- No scope is lost. -/
  scopes : ∀ s, m.world.scopes.Made s → m'.world.scopes.Made s
  /-- As many reductions are in progress. -/
  depth : m'.depth = m.depth
  /-- The limit is the same. -/
  limit : m'.world.limit = m.world.limit

/-- Containers that a computation owns: each once, made, outside the store and among its own. -/
structure Free (mine store : CellId → Prop) (h : Heap) (ids : List CellId) : Prop where
  /-- No container is named twice. -/
  once : ids.Nodup
  /-- The containers have been made. -/
  made : ∀ c ∈ ids, h.Made c
  /-- The containers are outside the store. -/
  outside : ∀ c ∈ ids, ¬ store c
  /-- The containers may be changed. -/
  mine : ∀ c ∈ ids, mine c

/-- The containers that a computation may change when it owns some: these and those not made yet. -/
def Machine.only (m : Machine) (ids : List CellId) (c : CellId) : Prop :=
  c ∈ ids ∨ ¬ m.heap.Made c

variable {proper : Prop} {mine mine' store store' store'' : CellId → Prop} {m m' m'' : Machine}
  {w : World Value}
  {h h' : Heap} {ids ids' : List CellId}

/-- Handles stand for what they did after containers elsewhere were edited. -/
theorem HoldsAll.edit {rule : HandleRule} {vs : List Handle} {ts : List Value}
    (holds : HoldsAll h rule vs ts ids) (edits : Edits ids' h h') (made : ∀ c ∈ ids, h.Made c)
    (other : ∀ c ∈ ids, c ∉ ids') : HoldsAll h' rule vs ts ids :=
  holds.transport (fun c member => edits.items (made c member) (other c member)) fun _ _ _ => id

/-- Containers among which another one is not are different from that one. -/
theorem notMem_singleton {a : CellId} (outside : a ∉ ids) : ∀ c ∈ ids, c ∉ [a] :=
  fun _ member here => outside (List.mem_singleton.mp here ▸ member)

/-- Containers that have been made and are not owned may not be changed. -/
theorem Machine.not_only (made : ∀ c ∈ ids', m.heap.Made c) (apart : ∀ c ∈ ids', c ∉ ids) :
    ∀ c ∈ ids', ¬ m.only ids c := by
  rintro c member (owned | new)
  · exact apart c member owned
  · exact new (made c member)

namespace Free

/-- No container is owned by an atom. -/
theorem nil : Free mine store h [] :=
  ⟨List.nodup_nil, by simp, by simp, by simp⟩

/-- Fewer containers are owned too. -/
theorem sub (free : Free mine store h ids) (once : ids'.Nodup) (fewer : ∀ c ∈ ids', c ∈ ids) :
    Free mine store h ids' :=
  ⟨once, fun c member => free.made c (fewer c member), fun c member =>
    free.outside c (fewer c member), fun c member => free.mine c (fewer c member)⟩

/-- Some of the containers, in order, are owned too. -/
theorem sublist (free : Free mine store h ids) (fewer : ids'.Sublist ids) :
    Free mine store h ids' :=
  free.sub (fewer.nodup free.once) fun _ member => fewer.subset member

/-- The order in which containers are named does not matter. -/
theorem perm (free : Free mine store h ids) (same : ids.Perm ids') : Free mine store h ids' :=
  free.sub (same.nodup_iff.mp free.once) fun _ member => same.mem_iff.mpr member

/-- The first of two groups of containers is owned. -/
theorem left (free : Free mine store h (ids ++ ids')) : Free mine store h ids :=
  free.sublist (List.sublist_append_left ids ids')

/-- The second of two groups of containers is owned. -/
theorem right (free : Free mine store h (ids ++ ids')) : Free mine store h ids' :=
  free.sublist (List.sublist_append_right ids ids')

/-- Two groups of containers that are owned together have none in common. -/
theorem disjoint (free : Free mine store h (ids ++ ids')) {c : CellId} (first : c ∈ ids)
    (second : c ∈ ids') : False :=
  (List.nodup_append.mp free.once).2.2 c first c second rfl

/-- Two groups of containers with none in common are owned together. -/
theorem append (first : Free mine store h ids) (second : Free mine store h ids')
    (apart : ∀ c ∈ ids, c ∉ ids') : Free mine store h (ids ++ ids') where
  once := List.nodup_append.mpr ⟨first.once, second.once, fun c here _ there same =>
    apart c here (same ▸ there)⟩
  made c member := (List.mem_append.mp member).elim (first.made c) (second.made c)
  outside c member := (List.mem_append.mp member).elim (first.outside c) (second.outside c)
  mine c member := (List.mem_append.mp member).elim (first.mine c) (second.mine c)

/-- Owned containers stay owned when others are made or changed. -/
theorem edit (free : Free mine store h ids) (edits : Edits ids' h h') : Free mine store h' ids :=
  ⟨free.once, fun c member => edits.made (free.made c member), free.outside, free.mine⟩

/-- What is owned may be changed by a computation that owns just that. -/
theorem only (free : Free mine store m.heap ids) : Free (m.only ids) store m.heap ids :=
  { free with mine := fun _ => .inl }

/-- What was owned before and what is owned after a computation have nothing in common. -/
theorem later {kept : List CellId} (early : Free mine store m.heap ids)
    (apart : ∀ c ∈ ids, c ∉ kept) (late : Free (m.only kept) store' m'.heap ids')
    (stays : Free mine store' m'.heap ids) (wider : ∀ c, m.only kept c → mine c) :
    Free mine store' m'.heap (ids ++ ids') := by
  refine stays.append { late with mine := fun c member => wider c (late.mine c member) } ?_
  exact fun c here there => Machine.not_only early.made apart c here (late.mine c there)

end Free

namespace Moves

/-- A machine is reached in no step. -/
theorem refl (mine store : CellId → Prop) (m : Machine) : Moves mine store m store m :=
  ⟨Nat.le_refl _, fun _ _ _ => rfl, fun _ _ => rfl, fun _ => id, fun _ => .inl, fun _ => id, rfl, rfl⟩

/-- Containers stay made. -/
theorem made (moves : Moves mine store m store' m') {c : CellId} (there : m.heap.Made c) :
    m'.heap.Made c :=
  Nat.lt_of_lt_of_le there moves.size

/-- Steps can be taken one after the other. -/
theorem trans (first : Moves mine store m store' m') (second : Moves mine store' m' store'' m'') :
    Moves mine store m store'' m'' where
  size := Nat.le_trans first.size second.size
  frame c there other := (second.frame c (first.made there) other).trans (first.frame c there other)
  frozen c held := (second.frozen c (first.grown c held)).trans (first.frozen c held)
  grown c held := second.grown c (first.grown c held)
  fresh c held := by
    -- What is new to the second step was made by it or before the first.
    rcases second.fresh c held with before | new
    · exact first.fresh c before
    · exact .inr fun there => new (first.made there)
  scopes s there := second.scopes s (first.scopes s there)
  depth := second.depth.trans first.depth
  limit := second.limit.trans first.limit

/-- More containers may be changed than are. -/
theorem mono (moves : Moves mine' store m store' m') (more : ∀ c, mine' c → mine c) :
    Moves mine store m store' m' :=
  { moves with frame := fun c there other => moves.frame c there fun held => other (more c held) }

/-- Changing owned containers is a step. -/
theorem of_edits (edits : Edits ids m.heap h') (free : ∀ c ∈ ids, mine c ∧ ¬ store c)
    (stored : ∀ c, store c → m.heap.Made c) : Moves mine store m store { m with heap := h' } where
  size := edits.size
  frame c there other := edits.frame c there fun member => other (free c member).1
  frozen c held := edits.frame c (stored c held) fun member => (free c member).2 held
  grown _ := id
  fresh _ := .inl
  scopes _ := id
  depth := rfl
  limit := rfl

/-- A change of the world that leaves the scopes and the limit alone is a step. -/
theorem of_world {world : World Handle} (scopes : world.scopes = m.world.scopes)
    (limit : world.limit = m.world.limit) :
    Moves mine store m store { m with world := world } :=
  { refl mine store m with scopes := fun _ there => scopes ▸ there, limit := limit }

/-- What is sound stays so while scopes are made. -/
theorem sound (moves : Moves mine store m store' m') {formals body : Value}
    {scope : Option ScopeId} (fits : (m.sound proper).functions formals body scope) :
    (m'.sound proper).functions formals body scope :=
  ⟨fits.1, fun s member => moves.scopes s (fits.2 s member)⟩

/-- A handle on other containers stands for what it did. -/
theorem holds (moves : Moves mine store m store' m') {v : Handle} {t : Value}
    (holds : Holds m.heap (m.sound proper) v t ids) (made : ∀ c ∈ ids, m.heap.Made c)
    (other : ∀ c ∈ ids, ¬ mine c) : Holds m'.heap (m'.sound proper) v t ids :=
  holds.transport (fun c member => by
    simp [Heap.items, moves.frame c (made c member) (other c member)]) fun _ _ _ => moves.sound

/-- Handles on other containers stand for what they did. -/
theorem holdsAll (moves : Moves mine store m store' m') {vs : List Handle} {ts : List Value}
    (holds : HoldsAll m.heap (m.sound proper) vs ts ids) (made : ∀ c ∈ ids, m.heap.Made c)
    (other : ∀ c ∈ ids, ¬ mine c) : HoldsAll m'.heap (m'.sound proper) vs ts ids :=
  holds.transport (fun c member => by
    simp [Heap.items, moves.frame c (made c member) (other c member)]) fun _ _ _ => moves.sound

/-- Owned containers stay owned. -/
theorem free (moves : Moves mine' store m store' m') (free : Free mine store m.heap ids) :
    Free mine store' m'.heap ids where
  once := free.once
  made c member := moves.made (free.made c member)
  outside c member held := by
    -- What the store has gained had not been made yet.
    rcases moves.fresh c held with before | new
    · exact free.outside c member before
    · exact new (free.made c member)
  mine := free.mine

end Moves

/-- What is bound stands for the same value after the store has grown. -/
theorem Stored.move (moves : Moves mine store m store' m') {found : Option Handle}
    {value : Option Value}
    (stored : Stored proper store m found value) : Stored proper store' m' found value := by
  -- The store only grows, and its containers are as they were.
  cases found with
  | none => cases value <;> exact stored
  | some v =>
    cases value with
    | none => exact stored
    | some t =>
      obtain ⟨ids, holds, once, held⟩ := stored
      refine ⟨ids, holds.transport (fun c member => ?_) fun _ _ _ => moves.sound, once,
        fun c member => moves.grown c (held c member)⟩
      simp [Heap.items, moves.frozen c (held c member)]

namespace Mirrors

/-- More containers may be changed. -/
theorem mono (mirrors : Mirrors proper mine' store m w) (more : ∀ c, mine' c → mine c) :
    Mirrors proper mine store m w :=
  { mirrors with room := fun c new => more c (mirrors.room c new) }

/-- Only some containers and those not made yet may be changed. -/
theorem narrow (mirrors : Mirrors proper mine store m w) (ids : List CellId) :
    Mirrors proper (m.only ids) store m w :=
  { mirrors with room := fun _ => .inr }

/-- Owned containers and those not made yet are among the ones that may be changed. -/
theorem only (mirrors : Mirrors proper mine store m w) (ids : List CellId)
    (held : ∀ c ∈ ids, mine c) :
    ∀ c, m.only ids c → mine c
  | c, .inl member => held c member
  | c, .inr new => mirrors.room c new

/-- Changing owned containers leaves the mirror as it is. -/
theorem edit (mirrors : Mirrors proper mine store m w) (edits : Edits ids m.heap h')
    (free : ∀ c ∈ ids, mine c ∧ ¬ store c) : Mirrors proper mine store { m with heap := h' } w :=
  { mirrors with
    room := fun c new => mirrors.room c fun there => new (edits.made there)
    stored := fun c held => edits.made (mirrors.stored c held)
    bound := fun id name => (mirrors.bound id name).move (.of_edits edits free mirrors.stored) }

/-- The worlds have made the same scopes. -/
theorem made (mirrors : Mirrors proper mine store m w) {id : ScopeId} :
    w.scopes.Made id ↔ m.world.scopes.Made id := by
  simp [Scopes.Made, mirrors.size]

/-- The outermost scope of a chain is the same. -/
theorem root (mirrors : Mirrors proper mine store m w) (id : ScopeId) :
    m.world.scopes.root id = w.scopes.root id :=
  Scopes.root_congr mirrors.parent? id

/-- Looking a name up finds a handle on the value that the world finds. -/
theorem lookup? (mirrors : Mirrors proper mine store m w) (id : ScopeId) (name : String) :
    Stored proper store m (m.world.scopes.lookup? id name) (w.scopes.lookup? id name) := by
  -- The chains are the same, and the first scope that binds the name is.
  have chain : m.world.scopes.chain id = w.scopes.chain id := Scopes.chain_congr mirrors.parent? id
  simp only [Scopes.lookup?, chain]
  induction w.scopes.chain id with
  | nil => trivial
  | cons s rest ih =>
    -- The first scope of the chain binds the name on both sides or on neither.
    have here := mirrors.bound s name
    simp only [List.findSome?_cons]
    cases found : m.world.scopes.local? s name with
    | none =>
      cases value : w.scopes.local? s name with
      | none => exact ih
      | some t => simp [found, value, Stored] at here
    | some v =>
      cases value : w.scopes.local? s name with
      | none => simp [found, value, Stored] at here
      | some t => simpa [found, value] using here

end Mirrors

end QLisp.Shared
