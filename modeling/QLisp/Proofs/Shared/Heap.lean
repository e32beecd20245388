import QLisp.Shared.ListOp

/-! Laws of the heap: what changing a container, making one and placing a value leave alone. -/

namespace QLisp.Shared.Heap

/-- The container with an identity has been made. -/
def Made (h : Heap) (id : CellId) : Prop :=
  id.index < h.containers.size

/-- A handle is an error exactly when what it is seen as is one, whatever its containers hold. -/
theorem isError_view (h : Heap) (v : Handle) : (h.view v).isError = v.isError := by
  cases v <;> rfl

/-- The elements of a list are those of its container. -/
theorem elements_list (h : Heap) (kind : ListKind) (id : CellId) :
    h.elements (.list kind id) = h.items id := rfl

/-- Changing a container makes none. -/
@[simp] theorem size_change (h : Heap) (id : CellId) (f : Container → Container) :
    (h.change id f).containers.size = h.containers.size := by
  simp [change]

/-- A container that is changed is what the change makes of it. -/
theorem container_change_self {h : Heap} {id : CellId} (made : h.Made id)
    (f : Container → Container) : (h.change id f).container id = f (h.container id) := by
  simp only [Made] at made
  simp [container, change, Array.getElem_modify, made]

/-- Every other container stays as it is. -/
theorem container_change_of_ne {h : Heap} {id other : CellId} (different : other ≠ id)
    (f : Container → Container) : (h.change id f).container other = h.container other := by
  have : id.index ≠ other.index := by
    intro same
    cases id; cases other; simp_all
  simp [container, change, Array.getElem?_modify, this]

/-- Making a container adds one. -/
@[simp] theorem size_alloc (h : Heap) (items : List Handle) :
    (h.alloc items).2.containers.size = h.containers.size + 1 := by
  simp [alloc]

/-- A new container has the next identity. -/
@[simp] theorem alloc_index (h : Heap) (items : List Handle) :
    (h.alloc items).1 = ⟨h.containers.size⟩ := rfl

/-- After one is made, the containers are the old ones and the new one. -/
theorem made_alloc {h : Heap} {items : List Handle} {id : CellId} :
    (h.alloc items).2.Made id ↔ h.Made id ∨ id = ⟨h.containers.size⟩ := by
  cases id with
  | mk index =>
    simp only [Made, size_alloc, CellId.mk.injEq]
    omega

/-- A new container holds the elements it was made with. -/
theorem container_alloc_self (h : Heap) (items : List Handle) :
    (h.alloc items).2.container ⟨h.containers.size⟩ = .ofList items := by
  simp [container, alloc]

/-- Making a container leaves the others as they are. -/
theorem container_alloc_of_made {h : Heap} {id : CellId} (made : h.Made id)
    (items : List Handle) : (h.alloc items).2.container id = h.container id := by
  simp only [Made] at made
  simp [container, alloc, Array.getElem?_push, Nat.ne_of_lt made]

/-- One heap keeps every container of another as it was, and may hold more. -/
structure Keeps (h h' : Heap) : Prop where
  /-- No container is lost. -/
  size : h.containers.size ≤ h'.containers.size
  /-- No container that was there is changed. -/
  container : ∀ id, h.Made id → h'.container id = h.container id

/-- A heap keeps its own containers. -/
theorem Keeps.refl (h : Heap) : h.Keeps h := ⟨Nat.le_refl _, fun _ _ => rfl⟩

/-- Containers kept twice in a row are kept. -/
theorem Keeps.trans {h h' h'' : Heap} (first : h.Keeps h') (second : h'.Keeps h'') :
    h.Keeps h'' where
  size := Nat.le_trans first.size second.size
  container id made :=
    (second.container id (Nat.lt_of_lt_of_le made first.size)).trans (first.container id made)

/-- Making a container keeps the others. -/
theorem keeps_alloc (h : Heap) (items : List Handle) : h.Keeps (h.alloc items).2 where
  size := by simp
  container _ made := container_alloc_of_made made items

mutual

/-- Placing a value keeps every container. -/
theorem keeps_place (h : Heap) (v : Value) : h.Keeps (h.place v).2 := by
  -- A list is placed after its elements, and a function after its formals and its body.
  cases v with
  | lambda formals body scope =>
    simp only [place]
    exact (keeps_place h formals).trans (keeps_place _ body)
  | list kind items =>
    simp only [place]
    exact (keeps_placeAll h items).trans (keeps_alloc _ _)
  | _ => exact .refl h

/-- Placing values keeps every container. -/
theorem keeps_placeAll (h : Heap) (values : List Value) : h.Keeps (h.placeAll values).2 := by
  cases values with
  | nil => exact .refl h
  | cons v rest =>
    simp only [placeAll]
    exact (keeps_place h v).trans (keeps_placeAll _ rest)

end

end QLisp.Shared.Heap

namespace QLisp.Shared.ListOp

variable {β : Type} {h : Heap}

/-- Reading the elements of a container goes on with the heap as it is. -/
theorem items_bind (id : CellId) (next : List Handle → ListOp β) :
    (items id >>= next) h = next (h.items id) h := rfl

/-- Reading the elements of a list goes on with the heap as it is. -/
theorem elements_bind (v : Handle) (next : List Handle → ListOp β) :
    (elements v >>= next) h = next (h.elements v) h := rfl

end QLisp.Shared.ListOp
