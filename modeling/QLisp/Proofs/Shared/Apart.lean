import QLisp.Proofs.Shared.Container
import QLisp.Proofs.Shared.Footprint

/-!
Containers that are kept apart from all others.

Some containers are kept, and no other container has a handle on one of them. A list operation on
handles that lead to no kept container changes none, and gives no handle on one.
-/

namespace QLisp.Shared

namespace Handle

/-- The containers that a handle names, without looking into them. -/
def cells : Handle → List CellId
  | .lambda formals body _ => formals.cells ++ body.cells
  | .list _ id => [id]
  | _ => []

/-- The scopes that a handle names, without looking into containers. -/
def scopes : Handle → List ScopeId
  | .lambda formals body scope => scope.toList ++ (formals.scopes ++ body.scopes)
  | _ => []

end Handle

variable {kept : CellId → Prop} {known : ScopeId → Prop}

/-- A handle names containers that are made and not kept, and known scopes. -/
structure Outside (kept : CellId → Prop) (known : ScopeId → Prop) (h : Heap) (v : Handle) :
    Prop where
  /-- The containers that the handle names are made and not kept. -/
  cells : ∀ id ∈ v.cells, h.Made id ∧ ¬ kept id
  /-- The scopes that the handle names are known. -/
  scopes : ∀ s ∈ v.scopes, known s

/-- A handle that names neither a container nor a scope is outside. -/
theorem outside_of_plain {h : Heap} {v : Handle} (cells : v.cells = []) (scopes : v.scopes = []) :
    Outside kept known h v :=
  ⟨by simp [cells], by simp [scopes]⟩

/-- No value is outside. -/
theorem outside_none {h : Heap} : Outside kept known h .none :=
  outside_of_plain rfl rfl

/-- A list is outside when its container is. -/
theorem outside_list {h : Heap} {kind : ListKind} {id : CellId} :
    Outside kept known h (.list kind id) ↔ h.Made id ∧ ¬ kept id := by
  constructor
  · intro out
    exact out.cells id (by simp [Handle.cells])
  · intro free
    exact ⟨by simpa [Handle.cells] using free, by simp [Handle.scopes]⟩

/-- A function is outside when its parts are and its scope is known. -/
theorem outside_lambda {h : Heap} {formals body : Handle} {scope : Option ScopeId} :
    Outside kept known h (.lambda formals body scope) ↔
      Outside kept known h formals ∧ Outside kept known h body ∧ ∀ s ∈ scope, known s := by
  constructor
  -- Each part has its cells and scopes among those of the whole.
  · intro out
    refine ⟨⟨fun id member => out.cells id ?_, fun s member => out.scopes s ?_⟩,
      ⟨fun id member => out.cells id ?_, fun s member => out.scopes s ?_⟩,
      fun s member => out.scopes s ?_⟩ <;>
      simp_all [Handle.cells, Handle.scopes]
  · rintro ⟨formal, bodied, captured⟩
    -- Every cell and every scope of the whole is one of a part.
    constructor
    · intro id member
      rcases List.mem_append.mp member with inner | inner
      · exact formal.cells id inner
      · exact bodied.cells id inner
    · intro s member
      simp only [Handle.scopes, List.mem_append, Option.mem_toList] at member
      rcases member with own | inner | inner
      · exact captured s own
      · exact formal.scopes s inner
      · exact bodied.scopes s inner

/-- No container outside the kept ones has a handle on a kept one. -/
structure Apart (kept : CellId → Prop) (known : ScopeId → Prop) (h : Heap) : Prop where
  /-- Every kept container has been made. -/
  made : ∀ id, kept id → h.Made id
  /-- What is in the slots of any other container is outside. -/
  slots : ∀ id, h.Made id → ¬ kept id → ∀ v ∈ (h.container id).slots, Outside kept known h v

/-- A heap after some steps: kept containers are unchanged and still apart. -/
structure Next (kept : CellId → Prop) (known : ScopeId → Prop) (h h' : Heap) : Prop where
  /-- The kept containers are still apart. -/
  apart : Apart kept known h'
  /-- No container is lost. -/
  size : h.containers.size ≤ h'.containers.size
  /-- No kept container is changed. -/
  frozen : ∀ id, kept id → h'.container id = h.container id

/-- A heap whose kept containers are apart is its own next one. -/
theorem Apart.refl {h : Heap} (apart : Apart kept known h) : Next kept known h h :=
  ⟨apart, Nat.le_refl _, fun _ _ => rfl⟩

/-- Steps can be taken one after the other. -/
theorem Next.trans {h h' h'' : Heap} (first : Next kept known h h')
    (second : Next kept known h' h'') : Next kept known h h'' where
  apart := second.apart
  size := Nat.le_trans first.size second.size
  frozen id held := (second.frozen id held).trans (first.frozen id held)

/-- Containers stay made. -/
theorem Next.made {h h' : Heap} (next : Next kept known h h') {id : CellId} (made : h.Made id) :
    h'.Made id :=
  Nat.lt_of_lt_of_le made next.size

/-- What was outside stays outside. -/
theorem Outside.next {h h' : Heap} {v : Handle} (out : Outside kept known h v)
    (next : Next kept known h h') : Outside kept known h' v :=
  ⟨fun id member => (out.cells id member).imp_left next.made, out.scopes⟩

/-- Changing a container that is not kept to hold only what is outside keeps the others apart. -/
theorem Apart.change {h : Heap} (apart : Apart kept known h) {id : CellId} (made : h.Made id)
    (free : ¬ kept id) {f : Container → Container}
    (fine : ∀ v ∈ (f (h.container id)).slots, Outside kept known h v) :
    Next kept known h (h.change id f) := by
  -- Only the slots of the changed container differ.
  have grown : ∀ v, Outside kept known h v → Outside kept known (h.change id f) v := fun v out =>
    ⟨fun c member => (out.cells c member).imp_left fun there => by simpa [Heap.Made] using there,
      out.scopes⟩
  -- Three things are left: what slots hold, how many containers there are, and the kept ones.
  refine ⟨⟨fun c held => ?_, fun c there loose v member => ?_⟩, by simp, fun c held => ?_⟩
  · simpa [Heap.Made] using apart.made c held
  · by_cases same : c = id
    -- The changed container holds what has been assumed of its values.
    · subst c
      rw [Heap.container_change_self made] at member
      exact grown v (fine v member)
    -- Any other container has its values as before.
    · rw [Heap.container_change_of_ne same] at member
      exact grown v (apart.slots c (by simpa [Heap.Made] using there) loose v member)
  -- The changed container is not among those that are kept.
  · exact Heap.container_change_of_ne (by rintro rfl; exact free held) f

/-- Making a container of what is outside keeps the others apart. -/
theorem Apart.alloc {h : Heap} (apart : Apart kept known h) {items : List Handle}
    (fine : ∀ v ∈ items, Outside kept known h v) :
    Next kept known h (h.alloc items).2 ∧ ¬ kept (h.alloc items).1 := by
  -- What was outside stays so, since a new container is added behind the others.
  have grown : ∀ v, Outside kept known h v → Outside kept known (h.alloc items).2 v := fun v out =>
    ⟨fun c member => (out.cells c member).imp_left fun there =>
      Nat.lt_of_lt_of_le there (by simp), out.scopes⟩
  refine ⟨⟨⟨fun c held => ?_, fun c there loose v member => ?_⟩, by simp, fun c held => ?_⟩,
    fun held => ?_⟩
  · exact Nat.lt_of_lt_of_le (apart.made c held) (by simp)
  -- The container was there before, or it is the new one.
  · rcases Heap.made_alloc.mp there with old | rfl
    · rw [Heap.container_alloc_of_made old] at member
      exact grown v (apart.slots c old loose v member)
    · rw [Heap.container_alloc_self, Container.slots_ofList] at member
      exact grown v (fine v member)
  · exact Heap.container_alloc_of_made (apart.made c held) items
  · have := apart.made _ held
    simp [Heap.Made] at this

/-- The elements of a container that is not kept are outside. -/
theorem Apart.items {h : Heap} (apart : Apart kept known h) {id : CellId} (made : h.Made id)
    (free : ¬ kept id) {v : Handle} (member : v ∈ h.items id) : Outside kept known h v :=
  apart.slots id made free v (Container.mem_slots_of_mem_items member)

/-- The elements of a list that is outside are outside. -/
theorem Apart.elements {h : Heap} (apart : Apart kept known h) {v : Handle}
    (out : Outside kept known h v) {w : Handle} (member : w ∈ h.elements v) :
    Outside kept known h w := by
  cases v with
  | list kind id =>
    obtain ⟨made, free⟩ := outside_list.mp out
    exact apart.items made free member
  | _ => simp [Heap.elements] at member

/-- The functions inside the view of a handle that is outside captured known scopes. -/
theorem Apart.obeys_viewWith {h : Heap} (apart : Apart kept known h) (depth : Nat) :
    ∀ v, Outside kept known h v →
      (Heap.viewWith (h.viewItems depth) v).Obeys (.captures known) := by
  -- The depth decreases at each container, and a function's parts are smaller handles.
  induction depth with
  | zero =>
    -- Without depth a list is not looked into, but the parts of a function are.
    intro v out
    induction v with
    | lambda formals body scope formalIh bodyIh =>
      obtain ⟨formal, bodied, captured⟩ := outside_lambda.mp out
      exact ⟨captured, formalIh formal, bodyIh bodied⟩
    | _ => trivial
  | succ depth ih =>
    -- With some depth left the elements of a list are seen, at one depth less.
    intro v out
    induction v with
    | lambda formals body scope formalIh bodyIh =>
      obtain ⟨formal, bodied, captured⟩ := outside_lambda.mp out
      exact ⟨captured, formalIh formal, bodyIh bodied⟩
    | list kind id =>
      obtain ⟨made, free⟩ := outside_list.mp out
      refine Value.obeyAll_iff.mpr fun t member => ?_
      -- An element of the list lies outside as well.
      obtain ⟨w, inside, rfl⟩ := List.mem_map.mp member
      exact ih w (apart.items made free inside)
    | _ => trivial

/-- The functions inside the view of a handle that is outside captured known scopes. -/
theorem Apart.obeys_view {h : Heap} (apart : Apart kept known h) {v : Handle}
    (out : Outside kept known h v) : (h.view v).Obeys (.captures known) :=
  apart.obeys_viewWith _ v out

mutual

/-- Placing a value whose functions captured known scopes makes a handle that is outside. -/
theorem Apart.place {h : Heap} (apart : Apart kept known h) (t : Value)
    (obeys : t.Obeys (.captures known)) :
    Next kept known h (h.place t).2 ∧ Outside kept known (h.place t).2 (h.place t).1 := by
  -- A function is placed part by part, and a list after its elements.
  cases t with
  | lambda formals body scope =>
    obtain ⟨captured, formalObeys, bodyObeys⟩ := obeys
    -- What is placed second leaves the first part where it is.
    obtain ⟨next, formal⟩ := apart.place formals formalObeys
    obtain ⟨next', bodied⟩ := next.apart.place body bodyObeys
    exact ⟨next.trans next', outside_lambda.mpr ⟨formal.next next', bodied, captured⟩⟩
  | list kind items =>
    obtain ⟨next, inside⟩ := apart.placeAll items obeys
    -- The list is made after its elements, which are outside of what is kept.
    obtain ⟨next', free⟩ := next.apart.alloc inside
    exact ⟨next.trans next', outside_list.mpr ⟨by simp [Heap.Made, Heap.place], free⟩⟩
  | _ => exact ⟨apart.refl, outside_of_plain rfl rfl⟩

/-- Placing values whose functions captured known scopes makes handles that are outside. -/
theorem Apart.placeAll {h : Heap} (apart : Apart kept known h) (ts : List Value)
    (obey : Value.ObeyAll (.captures known) ts) :
    Next kept known h (h.placeAll ts).2 ∧
      ∀ v ∈ (h.placeAll ts).1, Outside kept known (h.placeAll ts).2 v := by
  cases ts with
  | nil => exact ⟨apart.refl, by simp [Heap.placeAll]⟩
  -- What is outside after the first value is so after the others.
  | cons t rest =>
    obtain ⟨next, head⟩ := apart.place t obey.1
    obtain ⟨next', tail⟩ := next.apart.placeAll rest obey.2
    refine ⟨next.trans next', fun v member => ?_⟩
    simp only [Heap.placeAll, List.mem_cons] at member
    rcases member with rfl | member
    · exact head.next next'
    · exact tail v member

end

end QLisp.Shared
