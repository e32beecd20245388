import QLisp.Proofs.Shared.Heap

/-!
What list operations make of the elements of a list.

An operation on lists in known containers succeeds under its plain condition, changes these
containers and no other, and leaves the elements that one expects.
-/

namespace QLisp.Shared

namespace Container

/-- Adding elements puts them behind the others, whether or not they move to a longer strip. -/
@[simp] theorem items_append (c : Container) (more : List Handle) :
    (c.append more).items = c.items ++ more := by
  -- Both the extended strip and the longer one hold the elements in one stretch.
  simp only [append]
  split <;> rfl

/-- Giving up the elements leaves none. -/
@[simp] theorem items_clear (c : Container) : c.clear.items = [] := rfl

/-- An element in front comes before the others. -/
@[simp] theorem items_pushFront (c : Container) (v : Handle) :
    (c.pushFront v).items = v :: c.items := rfl

/-- The strip of the present age is the present one. -/
theorem stripAt_present (c : Container) : c.stripAt c.left.length = c.strip := by
  simp [stripAt]

/-- Changing the strip of the present age changes the present one. -/
theorem changeStrip_present (c : Container) (change : Strip → Strip) :
    c.changeStrip c.left.length change = { c with strip := change c.strip } := by
  simp [changeStrip]

end Container

namespace Strip

/-- Slots are counted from the first one, so an element lies behind the slots that were passed. -/
theorem slot_element (s : Strip) {index : Nat} (inside : index < s.items.length) :
    s.slot (s.passed.length + index) = s.items.getD index .none := by
  -- The number is past the passed slots and within the elements.
  have past : ¬ s.passed.length + index < s.passed.length := by omega
  simp only [slot, if_neg past, Nat.add_sub_cancel_left, if_pos inside]

/-- Putting a value into the slot of an element replaces that element. -/
theorem put_element (s : Strip) {index : Nat} (inside : index < s.items.length) (v : Handle) :
    s.put (s.passed.length + index) v = { s with items := s.items.set index v } := by
  have past : ¬ s.passed.length + index < s.passed.length := by omega
  simp only [put, if_neg past, Nat.add_sub_cancel_left, if_pos inside]

end Strip

/-- One heap comes from another by changing some containers and making others. -/
structure Edits (ids : List CellId) (h h' : Heap) : Prop where
  /-- No container is lost. -/
  size : h.containers.size ≤ h'.containers.size
  /-- No other container is changed. -/
  frame : ∀ c, h.Made c → c ∉ ids → h'.container c = h.container c

namespace Edits

variable {h h' h'' : Heap} {ids ids' : List CellId}

/-- A heap is an edit of itself. -/
theorem refl (ids : List CellId) (h : Heap) : Edits ids h h :=
  ⟨Nat.le_refl _, fun _ _ _ => rfl⟩

/-- Containers stay made. -/
theorem made (edits : Edits ids h h') {c : CellId} (there : h.Made c) : h'.Made c :=
  Nat.lt_of_lt_of_le there edits.size

/-- Edits can follow one another when the later ones change nothing else that was there. -/
theorem trans (first : Edits ids h h') (second : Edits ids' h' h'')
    (within : ∀ c ∈ ids', c ∈ ids ∨ ¬ h.Made c) : Edits ids h h'' where
  size := Nat.le_trans first.size second.size
  frame c there outside := by
    -- The second edit leaves the container alone, or it would be one of the first edit's.
    have untouched : c ∉ ids' := fun member => (within c member).elim outside fun new => new there
    rw [second.frame c (first.made there) untouched, first.frame c there outside]

/-- More containers may be named than are changed. -/
theorem mono (edits : Edits ids h h') (more : ∀ c ∈ ids, c ∈ ids') : Edits ids' h h' :=
  ⟨edits.size, fun c there outside => edits.frame c there fun member => outside (more c member)⟩

/-- The elements of any other container stay as they are. -/
theorem items (edits : Edits ids h h') {c : CellId} (there : h.Made c) (outside : c ∉ ids) :
    h'.items c = h.items c := by
  simp [Heap.items, edits.frame c there outside]

/-- A heap that keeps every container is an edit that changes none. -/
theorem of_keeps (kept : h.Keeps h') : Edits [] h h' :=
  ⟨kept.size, fun c there _ => kept.container c there⟩

/-- Changing one container edits that one. -/
theorem of_change (h : Heap) (id : CellId) (f : Container → Container) :
    Edits [id] h (h.change id f) where
  size := by simp
  frame c _ outside := Heap.container_change_of_ne (by simpa using outside) f

end Edits

namespace ListOp

variable {h : Heap} {id : CellId}

/-- Changing a container leaves the elements of the changed one. -/
theorem items_change (made : h.Made id) (f : Container → Container) :
    (h.change id f).items id = (f (h.container id)).items := by
  simp [Heap.items, Heap.container_change_self made]

/-- The first element is taken off a list that has one. -/
theorem popFront_ok (made : h.Made id) {first : Handle} {rest : List Handle}
    (found : h.items id = first :: rest) (kind : ListKind) :
    ∃ h', popFront (.list kind id) h = .ok first h' ∧ Edits [id] h h' ∧ h'.items id = rest := by
  -- The first slot is passed, and the elements behind it stay where they are.
  refine ⟨h.change id fun c => { c with strip := c.strip.advance }, ?_, .of_change h id _, ?_⟩
  · rw [popFront, storage, pure_bind, items_bind, found]
    rfl
  · -- The stretch begins one slot later.
    rw [items_change made]
    show (h.items id).drop 1 = rest
    rw [found]
    rfl

/-- An element is read where there is one. -/
theorem element_ok {v w : Handle} {index : Nat} (found : (h.elements v)[index]? = some w) :
    element v index h = .ok w h := by
  have fits : ¬ (index : Int) < 0 := by omega
  simp only [element, if_neg fits, Int.toNat_natCast]
  rw [elements_bind, found]
  rfl

/-- An element is taken out of a list that has it. -/
theorem take_ok {w : Handle} {index : Nat} (found : (h.items id)[index]? = some w)
    (kind : ListKind) : ∃ h', take (.list kind id) index h = .ok w h' ∧ Edits [id] h h' := by
  refine ⟨h.change id (·.clear), ?_, .of_change h id _⟩
  have read : element (.list kind id) index h = .ok w h := element_ok found
  show (element (.list kind id) index >>= fun taken => do
    change id (·.clear)
    return taken) h = _
  simp only [bind, EStateM.bind, read]
  rfl

/-- An element is put in front of a list. -/
theorem pushFront_ok (made : h.Made id) (v : Handle) (kind : ListKind) :
    ∃ h', pushFront (.list kind id) v h = .ok (.list kind id) h' ∧ Edits [id] h h' ∧
      h'.items id = v :: h.items id :=
  ⟨h.change id (·.pushFront v), rfl, .of_change h id _, items_change made _⟩

/-- A list is cut behind its first elements when it has as many. -/
theorem split_ok (made : h.Made id) {index : Nat} (enough : index ≤ (h.items id).length)
    (kind : ListKind) : ∃ w h', split (.list kind id) index h = .ok w h' ∧ Edits [id] h h' ∧
      h'.items id = (h.items id).take index := by
  -- What is cut off goes to a container made last, which leaves the list alone.
  let cut := h.change id fun c => { c with strip := c.strip.truncate index }
  have there : cut.Made id := by simpa [cut, Heap.Made] using made
  have kept := Edits.of_keeps (Heap.keeps_alloc cut ((h.items id).drop index))
  refine ⟨.list kind (cut.alloc ((h.items id).drop index)).1,
    (cut.alloc ((h.items id).drop index)).2, ?_, ?_, ?_⟩
  -- The index is within the list, so it is no fault.
  · have fits : ¬ ((index : Int) < 0 || ((h.items id).length : Int) < index) = true := by
      simp only [Bool.or_eq_true, decide_eq_true_eq]
      omega
    show (if (index : Int) < 0 || (h.items id).length < (index : Int) then throw .outOfRange
      else do
        change id fun c => { c with strip := c.strip.truncate (index : Int).toNat }
        make kind ((h.items id).drop (index : Int).toNat) : ListOp Handle) h = _
    rw [if_neg fits]
    rfl
  · exact (Edits.of_change h id _).trans kept (by simp)
  -- The new container is behind all others, so the list holds what was left of it.
  · rw [kept.items there (by simp)]
    exact items_change made _

/-- Two different lists are joined into the first. -/
theorem join_ok (made : h.Made id) {source : CellId} (different : id ≠ source)
    (kind kind' : ListKind) :
    ∃ h', join (.list kind id) (.list kind' source) h = .ok (.list kind id) h' ∧
      Edits [id, source] h h' ∧ h'.items id = h.items id ++ h.items source := by
  -- The elements are added first, and then the other list is emptied.
  let joined := h.change id (·.append (h.items source))
  have there : joined.Made id := by simpa [joined, Heap.Made] using made
  refine ⟨joined.change source (·.clear), ?_, ?_, ?_⟩
  · show (do
      unless id = source do change source (·.clear)
      return Handle.list kind id : ListOp Handle) joined = _
    -- The lists are different, so the second one is emptied.
    rw [if_neg different]
    rfl
  · exact ((Edits.of_change h id _).mono (by simp)).trans (Edits.of_change joined source _)
      fun c member => .inl (by simp_all)
  -- Emptying the other list leaves this one with all elements.
  · rw [(Edits.of_change joined source _).items there (by simpa using different)]
    rw [items_change made, Container.items_append]
    rfl

/-- A list of given elements is made in a fresh container. -/
theorem make_ok (h : Heap) (kind : ListKind) (items : List Handle) :
    ∃ h', make kind items h = .ok (.list kind ⟨h.containers.size⟩) h' ∧ Edits [] h h' ∧
      h'.Made ⟨h.containers.size⟩ ∧ h'.items ⟨h.containers.size⟩ = items := by
  refine ⟨(h.alloc items).2, rfl, .of_keeps (Heap.keeps_alloc h items), ?_, ?_⟩
  · simp [Heap.Made]
  · rw [Heap.items, Heap.container_alloc_self]
    rfl

/-- A slot of the present elements holds the element. -/
theorem slot_present {index : Nat} (inside : index < (h.items id).length) :
    h.slot (h.span id) index = (h.items id).getD index .none := by
  show ((h.container id).stripAt (h.container id).left.length).slot _ = _
  rw [Container.stripAt_present]
  exact Strip.slot_element _ inside

/-- Putting a value into a slot of the present elements replaces the element in place. -/
theorem put_present (made : h.Made id) {index : Nat} (inside : index < (h.items id).length)
    (v : Handle) :
    (h.put (h.span id) index v).items id = (h.items id).set index v ∧
      (h.put (h.span id) index v).span id = h.span id ∧
      Edits [id] h (h.put (h.span id) index v) := by
  -- The strip stays where it is, so the slots are the same ones.
  have changed : (h.put (h.span id) index v).container id = { h.container id with
      strip := { (h.container id).strip with items := (h.items id).set index v } } := by
    show (h.change id _).container id = _
    rw [Heap.container_change_self made]
    show (h.container id).changeStrip (h.container id).left.length _ = _
    rw [Container.changeStrip_present]
    exact congrArg (Container.mk · _) (Strip.put_element _ inside v)
  -- The elements, the span and the other containers are looked at in turn.
  refine ⟨?_, ?_, .of_change h id _⟩
  · rw [Heap.items, changed]
    rfl
  · rw [Heap.span, changed]
    simp [Container.span, Container.items, Heap.span, Heap.items]

end ListOp

end QLisp.Shared
