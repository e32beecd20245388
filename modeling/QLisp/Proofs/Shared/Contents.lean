import QLisp.Proofs.Shared.Edit

/-!
What lists that share storage hold after any operations on them.

An operation never shows where the elements of a list are kept, nor how many spare slots there are. It
does to its container what it would do to a plain list, and every list in that container sees the
outcome. An operation that faults has changed nothing.
-/

namespace QLisp.Shared

/-- The elements of every container, in the order in which the containers were made. -/
abbrev Contents := List (List Handle)

namespace Contents

/-- The elements of a container, and none if there is no such container. -/
def items (contents : Contents) (id : CellId) : List Handle :=
  contents.getD id.index []

/-- The contents after a container has got other elements. -/
def hold (contents : Contents) (id : CellId) (items : List Handle) : Contents :=
  contents.set id.index items

variable {contents : Contents} {id other : CellId}

/-- Other elements for a container make no container. -/
@[simp] theorem length_hold (contents : Contents) (id : CellId) (items : List Handle) :
    (contents.hold id items).length = contents.length := by
  simp [hold]

/-- A container holds what it has got. -/
theorem items_hold_self (made : id.index < contents.length) (items : List Handle) :
    (contents.hold id items).items id = items := by
  simp [Contents.items, hold, made]

/-- What a container gets does not show in another one. -/
theorem items_hold_of_ne (different : other ≠ id) (items : List Handle) :
    (contents.hold id items).items other = contents.items other := by
  have : id.index ≠ other.index := by
    intro same
    apply different
    cases id
    cases other
    simp_all
  simp [Contents.items, hold, this]

/-- A container that holds what it did leaves the contents as they are. -/
theorem hold_items (contents : Contents) (id : CellId) :
    contents.hold id (contents.items id) = contents := by
  apply List.ext_getElem?
  intro index
  simp only [hold, Contents.items, List.getElem?_set]
  -- Only at its own place could the container differ, and there it holds what it did.
  split
  · rename_i same
    subst same
    split
    · rename_i made
      simp [made]
    · rename_i missing
      simp [List.getElem?_eq_none (Nat.le_of_not_lt missing)]
  · rfl

/-- What a container got last counts. -/
theorem hold_hold (contents : Contents) (id : CellId) (items items' : List Handle) :
    (contents.hold id items).hold id items' = contents.hold id items' := by
  simp [hold]

/-- Elements for a container that was there do not touch one that has been added. -/
theorem hold_append (made : id.index < contents.length) (added items : List Handle) :
    hold (contents ++ [added]) id items = contents.hold id items ++ [added] := by
  simp [hold, made]

/-- A container that has been added holds its elements. -/
theorem items_append_last (last : id.index = contents.length) (added : List Handle) :
    items (contents ++ [added]) id = added := by
  simp [items, last]

/-- A container that was there holds what it did after one has been added. -/
theorem items_append (made : id.index < contents.length) (added : List Handle) :
    items (contents ++ [added]) id = contents.items id := by
  simp [items, List.getElem?_append_left made]

/-- A container that has been added can get other elements. -/
theorem hold_append_last (last : id.index = contents.length) (added items : List Handle) :
    hold (contents ++ [added]) id items = contents ++ [items] := by
  simp [hold, last]

end Contents

namespace Heap

variable {h : Heap} {id : CellId}

/-- The elements of every container. -/
def contents (h : Heap) : Contents :=
  h.containers.toList.map Container.items

/-- There are contents for each container. -/
@[simp] theorem length_contents (h : Heap) : h.contents.length = h.containers.size := by
  simp [contents]

/-- A container holds its elements. -/
@[simp] theorem items_contents (h : Heap) (id : CellId) : h.contents.items id = h.items id := by
  simp only [contents, Contents.items, items, container, List.getD_eq_getElem?_getD,
    Array.getD_eq_getD_getElem?, List.getElem?_map, Array.getElem?_toList]
  cases h.containers[id.index]? with
  | none => rfl
  | some c => rfl

/-- A change shows in the container that is changed. -/
theorem contents_change (h : Heap) (id : CellId) (f : Container → Container) :
    (h.change id f).contents = h.contents.hold id (f (h.container id)).items := by
  apply List.ext_getElem?
  intro index
  simp only [contents, change, Contents.hold, container, List.getElem?_map, Array.getElem?_toList,
    Array.getElem?_modify, List.getElem?_set, List.length_map, Array.length_toList,
    Array.getD_eq_getD_getElem?]
  -- The container that is changed shows the change if it has been made, and the others are as they
  -- were.
  split
  · rename_i same
    subst same
    split
    · rename_i made
      simp [made]
    · rename_i missing
      simp [Array.getElem?_eq_none (Nat.le_of_not_lt missing)]
  · rfl

/-- A new container comes after the others. -/
theorem contents_alloc (h : Heap) (items : List Handle) :
    (h.alloc items).2.contents = h.contents ++ [items] := by
  simp [contents, alloc, Container.ofList, Container.items, Strip.ofList]

end Heap

namespace ListOp

variable {h : Heap}

/-- A computation goes on after a result. -/
theorem bind_ok {α β : Type} {op : ListOp α} {a : α} {h' : Heap} (ran : op h = .ok a h')
    (next : α → ListOp β) : (op >>= next) h = next a h' := by
  simp only [Bind.bind, EStateM.bind, ran]

/-- A computation does not go on after a fault. -/
theorem bind_error {α β : Type} {op : ListOp α} {fault : Fault} {h' : Heap}
    (ran : op h = .error fault h') (next : α → ListOp β) :
    (op >>= next) h = .error fault h' := by
  simp only [Bind.bind, EStateM.bind, ran]

/-- An element is read without a change, unless the index is outside the list. -/
theorem element_run (v : Handle) (index : Int) (h : Heap) :
    element v index h = match if index < 0 then none else (h.elements v)[index.toNat]? with
      | some w => .ok w h
      | none => .error .outOfRange h := by
  by_cases below : index < 0
  · simp only [element, if_pos below]
    rfl
  · simp only [element, if_neg below]
    rw [elements_bind]
    cases (h.elements v)[index.toNat]? <;> rfl

end ListOp

/-- An operation on a list, with all that it is given. -/
inductive ListCommand where
  | append (list element : Handle)
  | pushFront (list element : Handle)
  | popFront (list : Handle)
  | take (list : Handle) (index : Int)
  | split (list : Handle) (index : Int)
  | join (list other : Handle)
  | retag (kind : ListKind) (list : Handle)

/-- The container of a list. -/
def Handle.container? : Handle → Option CellId
  | .list _ id => some id
  | _ => Option.none

/-- Goes on with the container of a list, or faults where there is none. -/
def Handle.inContainer {α : Type} (v : Handle) (next : ListKind → CellId → Except Fault α) :
    Except Fault α :=
  match v with
  | .list kind id => next kind id
  | v => .error (.notAList v.kind)

namespace ListCommand

/-- Carries out an operation. -/
def run : ListCommand → ListOp Handle
  | .append list element => ListOp.append list element
  | .pushFront list element => ListOp.pushFront list element
  | .popFront list => ListOp.popFront list
  | .take list index => ListOp.take list index
  | .split list index => ListOp.split list index
  | .join list other => ListOp.join list other
  | .retag kind list => ListOp.retag kind list

/-- What an operation means for plain lists: its result and the lists after it, or the fault. -/
def meaning (contents : Contents) : ListCommand → Except Fault (Handle × Contents)
  | .append list element => list.inContainer fun _ id =>
    .ok (list, contents.hold id (contents.items id ++ [element]))
  | .pushFront list element => list.inContainer fun _ id =>
    .ok (list, contents.hold id (element :: contents.items id))
  | .popFront list => list.inContainer fun _ id =>
    match contents.items id with
    | [] => .error .emptyList
    | first :: rest => .ok (first, contents.hold id rest)
  | .take list index => list.inContainer fun _ id =>
    match if index < 0 then none else (contents.items id)[index.toNat]? with
    | some taken => .ok (taken, contents.hold id [])
    | none => .error .outOfRange
  | .split list index => list.inContainer fun kind id =>
    if index < 0 || (contents.items id).length < index then .error .outOfRange
    -- What is cut off goes to a container that is made for it.
    else .ok (.list kind ⟨contents.length⟩,
      contents.hold id ((contents.items id).take index.toNat) ++
        [(contents.items id).drop index.toNat])
  | .join list other => list.inContainer fun _ id => other.inContainer fun _ source =>
    let joined := contents.hold id (contents.items id ++ contents.items source)
    .ok (list, if id = source then joined else joined.hold source [])
  | .retag kind list => list.inContainer fun _ id => .ok (.list kind id, contents)

/-- The containers that an operation may change: that of its list, and that of a list joined to it. -/
def changed : ListCommand → List CellId
  | .append list _ | .pushFront list _ | .popFront list | .take list _ | .split list _ =>
    list.container?.toList
  | .join list other => list.container?.toList ++ other.container?.toList
  | .retag _ _ => []

/-- What an operation makes of a heap is what it means for the contents, and changes nothing else. -/
def Agrees (command : ListCommand) (h : Heap) : Prop :=
  match command.run h with
  | .ok v h' => command.meaning h.contents = .ok (v, h'.contents) ∧ Edits command.changed h h'
  | .error fault h' => command.meaning h.contents = .error fault ∧ h' = h

variable {h : Heap}

/-- An operation with a result agrees when its contents do and it changed no more than it may. -/
theorem agrees_ok {command : ListCommand} (v : Handle) (h' : Heap) (ran : command.run h = .ok v h')
    (means : command.meaning h.contents = .ok (v, h'.contents)) (edits : Edits command.changed h h') :
    command.Agrees h := by
  rw [Agrees, ran]
  exact ⟨means, edits⟩

/-- An operation that faults at once agrees when it means that fault. -/
theorem agrees_error {command : ListCommand} (fault : Fault) (ran : command.run h = .error fault h)
    (means : command.meaning h.contents = .error fault) : command.Agrees h := by
  rw [Agrees, ran]
  exact ⟨means, rfl⟩

/-- Adding an element at the end is what it means, wherever the elements move to. -/
theorem agrees_append (list element : Handle) : (append list element).Agrees h := by
  cases list with
  | list kind id =>
    apply agrees_ok _ _ rfl
    · rw [Heap.contents_change, Container.items_append, meaning, Handle.inContainer,
        Heap.items_contents]
      rfl
    · exact .of_change h id _
  | _ => exact agrees_error _ rfl rfl

/-- Adding an element in front is what it means. -/
theorem agrees_pushFront (list element : Handle) : (pushFront list element).Agrees h := by
  cases list with
  | list kind id =>
    apply agrees_ok _ _ rfl
    · rw [Heap.contents_change, Container.items_pushFront, meaning, Handle.inContainer,
        Heap.items_contents]
      rfl
    · exact .of_change h id _
  | _ => exact agrees_error _ rfl rfl

/-- Taking the first element off is what it means. -/
theorem agrees_popFront (list : Handle) : (popFront list).Agrees h := by
  cases list with
  | list kind id =>
    -- The run looks at the first element, and moves on behind it.
    have run : (popFront (.list kind id)).run h = (match h.items id with
      | [] => throw .emptyList
      | first :: _ => do
        ListOp.change id fun c => { c with strip := c.strip.advance }
        return first : ListOp Handle) h := rfl
    -- An empty list has no first element to take.
    cases found : h.items id with
    | nil =>
      apply agrees_error .emptyList
      · rw [run, found]
        rfl
      · simp only [meaning, Handle.inContainer, Heap.items_contents, found]
    | cons first rest =>
      apply agrees_ok first
      · rw [run, found]
        rfl
      · -- Passing the first slot leaves the elements behind it.
        have left : (h.container id).strip.advance.items = rest := by
          show (h.items id).drop 1 = rest
          rw [found]
          rfl
        simp only [meaning, Handle.inContainer, Heap.items_contents, found, Heap.contents_change,
          Container.items, left]
      · exact .of_change h id _
  | _ => exact agrees_error _ rfl rfl

/-- Taking an element and giving up the others is what it means. -/
theorem agrees_take (list : Handle) (index : Int) : (take list index).Agrees h := by
  cases list with
  | list kind id =>
    -- The run reads the element first, and then empties the list.
    have run : (take (.list kind id) index).run h = (do
        let taken ← ListOp.element (.list kind id) index
        ListOp.change id (·.clear)
        return taken : ListOp Handle) h := rfl
    have read := ListOp.element_run (.list kind id) index h
    rw [Heap.elements_list] at read
    -- An index beyond the list is a fault, and then nothing is given up.
    cases found : if index < 0 then none else (h.items id)[index.toNat]? with
    | none =>
      rw [found] at read
      apply agrees_error .outOfRange
      · rw [run, ListOp.bind_error read]
      · simp only [meaning, Handle.inContainer, Heap.items_contents, found]
    | some taken =>
      rw [found] at read
      apply agrees_ok taken
      · rw [run, ListOp.bind_ok read]
        rfl
      · simp only [meaning, Handle.inContainer, Heap.items_contents, found, Heap.contents_change,
          Container.items_clear]
      · exact .of_change h id _
  | _ => exact agrees_error _ rfl rfl

/-- Cutting a list is what it means: what is cut off is in a container made last. -/
theorem agrees_split (list : Handle) (index : Int) : (split list index).Agrees h := by
  cases list with
  | list kind id =>
    -- The run checks the index, cuts the list, and makes a container of what is cut off.
    have run : (split (.list kind id) index).run h =
        (if index < 0 || (h.items id).length < index then throw .outOfRange
        else do
          ListOp.change id fun c => { c with strip := c.strip.truncate index.toNat }
          ListOp.make kind ((h.items id).drop index.toNat) : ListOp Handle) h := rfl
    -- The index has to be one of the list, or the one behind its last element.
    by_cases outside : index < 0 || (h.items id).length < index
    · apply agrees_error .outOfRange
      · rw [run, if_pos outside]
        rfl
      · rw [meaning, Handle.inContainer, Heap.items_contents, if_pos outside]
    · let cut := h.change id fun c => { c with strip := c.strip.truncate index.toNat }
      have kept := Edits.of_keeps (Heap.keeps_alloc cut ((h.items id).drop index.toNat))
      apply agrees_ok (.list kind ⟨h.containers.size⟩)
        ((cut.alloc ((h.items id).drop index.toNat)).2)
      · rw [run, if_neg outside]
        show EStateM.Result.ok (Handle.list kind ⟨cut.containers.size⟩) _ = _
        rw [Heap.size_change]
        rfl
      · rw [meaning, Handle.inContainer, Heap.items_contents, if_neg outside, Heap.contents_alloc,
          Heap.contents_change, Heap.length_contents]
        rfl
      · exact (Edits.of_change h id _).trans kept (by simp)
  | _ => exact agrees_error _ rfl rfl

/-- Joining two lists is what it means, also when both are in one container. -/
theorem agrees_join (list other : Handle) : (join list other).Agrees h := by
  cases list with
  | list kind id =>
    cases other with
    | list kind' source =>
      -- The elements are copied over first, and the other container is emptied after that.
      let joined := h.change id (·.append (h.items source))
      have run : (join (.list kind id) (.list kind' source)).run h = (do
          unless id = source do ListOp.change source (·.clear)
          return Handle.list kind id : ListOp Handle) joined := rfl
      -- Whatever else happens, the elements are put together in the first list.
      have contents : joined.contents = h.contents.hold id (h.items id ++ h.items source) := by
        rw [Heap.contents_change, Container.items_append]
        rfl
      have edits : Edits [id, source] h joined := (Edits.of_change h id _).mono (by simp)
      -- In one container the elements are doubled, and nothing is emptied.
      by_cases same : id = source
      · apply agrees_ok (.list kind id) joined
        · rw [run, if_pos same]
          rfl
        · simp only [meaning, Handle.inContainer, Heap.items_contents, if_pos same, contents]
        · exact edits
      · apply agrees_ok (.list kind id) (joined.change source (·.clear))
        · rw [run, if_neg same]
          rfl
        · simp only [meaning, Handle.inContainer, Heap.items_contents, if_neg same, contents,
            Heap.contents_change joined, Container.items_clear]
        · apply edits.trans (Edits.of_change joined source _)
          simp
    | _ => exact agrees_error _ rfl rfl
  | _ => exact agrees_error _ rfl rfl

/-- Giving a list another kind is what it means. -/
theorem agrees_retag (kind : ListKind) (list : Handle) : (retag kind list).Agrees h := by
  cases list with
  | list own id => exact agrees_ok _ _ rfl rfl (.refl [] h)
  | _ => exact agrees_error _ rfl rfl

/-- Every operation is what it means. -/
theorem agrees (command : ListCommand) (h : Heap) : command.Agrees h := by
  cases command with
  | append list element => exact agrees_append list element
  | pushFront list element => exact agrees_pushFront list element
  | popFront list => exact agrees_popFront list
  | take list index => exact agrees_take list index
  | split list index => exact agrees_split list index
  | join list other => exact agrees_join list other
  | retag kind list => exact agrees_retag kind list

/-- An operation that means a result has it, and leaves the contents that it means. -/
theorem run_ok (command : ListCommand) {v : Handle} {contents : Contents}
    (means : command.meaning h.contents = .ok (v, contents)) :
    ∃ h', command.run h = .ok v h' ∧ h'.contents = contents := by
  have agrees := command.agrees h
  rw [Agrees] at agrees
  -- The run is a result or a fault, and only a result is meant.
  cases ran : command.run h with
  -- The machine and the meaning agree on a result, so it is the one that is meant.
  | ok w h' =>
    rw [ran] at agrees
    obtain ⟨same, _⟩ := agrees
    cases means.symm.trans same
    exact ⟨h', rfl, rfl⟩
  -- A fault is not meant, where a result is.
  | error fault h' =>
    rw [ran] at agrees
    cases means.symm.trans agrees.1

/-- Carries out operations in order. After one that faults the next goes on. -/
def runAll : List ListCommand → Heap → List (Except Fault Handle) × Heap
  | [], h => ([], h)
  | command :: rest, h =>
    match command.run h with
    | .ok v h' => let (answers, h'') := runAll rest h'; (.ok v :: answers, h'')
    | .error fault h' => let (answers, h'') := runAll rest h'; (.error fault :: answers, h'')

/-- What operations in order mean for plain lists. -/
def meaningAll : List ListCommand → Contents → List (Except Fault Handle) × Contents
  | [], contents => ([], contents)
  | command :: rest, contents =>
    match command.meaning contents with
    | .ok (v, contents') =>
      let (answers, contents'') := meaningAll rest contents'; (.ok v :: answers, contents'')
    | .error fault =>
      let (answers, contents') := meaningAll rest contents; (.error fault :: answers, contents')

/-- Any operations in order are what they mean. -/
theorem runAll_means (commands : List ListCommand) (h : Heap) :
    meaningAll commands h.contents = ((runAll commands h).1, (runAll commands h).2.contents) := by
  -- Each operation starts from the contents that the one before it means.
  induction commands generalizing h with
  | nil => rfl
  -- A fault leaves the contents, and the next operation starts from there.
  | cons command rest ih =>
    have agrees := command.agrees h
    rw [Agrees] at agrees
    rw [meaningAll, runAll]
    cases ran : command.run h with
    | ok v h' =>
      rw [ran] at agrees
      simp only [agrees.1, ih h']
    | error fault h' =>
      rw [ran] at agrees
      obtain ⟨means, rfl⟩ := agrees
      simp only [means, ih h']

end ListCommand

namespace ListOp

variable {h : Heap} {kind kind' : ListKind} {id source : CellId}

/-- A list that is cut keeps its first elements, and the others are in a list that is made last. -/
theorem split_parts (kind : ListKind) {index : Nat} (inside : index ≤ (h.items id).length) :
    ∃ h', split (.list kind id) index h = .ok (.list kind ⟨h.containers.size⟩) h' ∧
      h'.contents = h.contents.hold id ((h.items id).take index) ++ [(h.items id).drop index] := by
  apply ListCommand.run_ok (.split (.list kind id) index)
  have fits : ¬ ((index : Int) < 0 || ((h.items id).length : Int) < index) = true := by
    simp only [Bool.or_eq_true, decide_eq_true_eq]
    omega
  simp only [ListCommand.meaning, Handle.inContainer, Heap.items_contents, if_neg fits,
    Heap.length_contents, Int.toNat_natCast]

/-- Two lists in different containers are joined into the first, and the second is left empty. -/
theorem join_parts (kind kind' : ListKind) (h : Heap) (different : id ≠ source) :
    ∃ h', join (.list kind id) (.list kind' source) h = .ok (.list kind id) h' ∧
      h'.contents = (h.contents.hold id (h.items id ++ h.items source)).hold source [] := by
  apply ListCommand.run_ok (.join (.list kind id) (.list kind' source))
  simp only [ListCommand.meaning, Handle.inContainer, Heap.items_contents, if_neg different]

/-- A list that is joined to itself is doubled. -/
theorem join_self (kind kind' : ListKind) (id : CellId) (h : Heap) :
    ∃ h', join (.list kind id) (.list kind' id) h = .ok (.list kind id) h' ∧
      h'.contents = h.contents.hold id (h.items id ++ h.items id) := by
  apply ListCommand.run_ok (.join (.list kind id) (.list kind' id))
  simp only [ListCommand.meaning, Handle.inContainer, Heap.items_contents, if_true]

/-- What is cut off a list and joined to it again restores the list. -/
theorem join_split (made : h.Made id) {index : Nat} (inside : index ≤ (h.items id).length) :
    ∃ h', (do join (.list kind id) (← split (.list kind id) index) : ListOp Handle) h =
        .ok (.list kind id) h' ∧ h'.contents = h.contents ++ [[]] := by
  have there : id.index < h.contents.length := by rwa [Heap.length_contents]
  have different : id ≠ ⟨h.containers.size⟩ := by
    rintro rfl
    exact Nat.lt_irrefl _ made
  -- First the list has its first elements, and the new container has the others.
  obtain ⟨h₁, cut, parts⟩ := split_parts kind inside
  have first : h₁.items id = (h.items id).take index := by
    rw [← Heap.items_contents, parts, Contents.items_append (by simpa using there),
      Contents.items_hold_self there]
  have last : h₁.items ⟨h.containers.size⟩ = (h.items id).drop index := by
    rw [← Heap.items_contents, parts, Contents.items_append_last (by simp)]
  -- Then the list has them all, and the new container has none.
  obtain ⟨h₂, joined, whole⟩ := join_parts kind kind h₁ different
  refine ⟨h₂, (bind_ok cut _).trans joined, ?_⟩
  calc h₂.contents
      = (h₁.contents.hold id (h.items id)).hold ⟨h.containers.size⟩ [] := by
        rw [whole, first, last, List.take_append_drop]
    _ = (h.contents ++ [(h.items id).drop index]).hold ⟨h.containers.size⟩ [] := by
        -- Only what the one list holds has changed, and it holds what it did.
        rw [parts, Contents.hold_append (by simpa using there), Contents.hold_hold,
          ← Heap.items_contents, Contents.hold_items]
    _ = h.contents ++ [[]] := Contents.hold_append_last (by simp) _ _

/-- An element that is put in front of a list and taken off again leaves the list as it was. -/
theorem popFront_pushFront (made : h.Made id) (element : Handle) :
    ∃ h', (do
        let _ ← pushFront (.list kind id) element
        popFront (.list kind' id) : ListOp Handle) h = .ok element h' ∧
      h'.contents = h.contents := by
  have there : id.index < h.contents.length := by rwa [Heap.length_contents]
  -- Both operations are followed by what they mean on the contents.
  obtain ⟨h₁, pushed, longer⟩ : ∃ h₁, pushFront (.list kind id) element h = .ok (.list kind id) h₁ ∧
      h₁.contents = h.contents.hold id (element :: h.items id) := by
    apply ListCommand.run_ok (.pushFront (.list kind id) element)
    simp only [ListCommand.meaning, Handle.inContainer, Heap.items_contents]
  have first : h₁.items id = element :: h.items id := by
    rw [← Heap.items_contents, longer, Contents.items_hold_self there]
  obtain ⟨h₂, popped, shorter⟩ : ∃ h₂, popFront (.list kind' id) h₁ = .ok element h₂ ∧
      h₂.contents = h₁.contents.hold id (h.items id) := by
    apply ListCommand.run_ok (.popFront (.list kind' id))
    simp only [ListCommand.meaning, Handle.inContainer, Heap.items_contents, first]
  refine ⟨h₂, (bind_ok pushed _).trans popped, ?_⟩
  rw [shorter, longer, Contents.hold_hold, ← Heap.items_contents, Contents.hold_items]

open ListCommand in
/--
After any operations on lists, however these share storage, lists are what plain lists would be.

The operations have had the results and the faults that they mean, and have left the contents that they
mean. Every list sees what its container holds, whatever its kind. A further operation changes nothing
but the container of its list, and the one that it joins to it and empties, and one that faults changes
nothing at all. What a cut leaves and what it cuts off are the old list in two parts, and joining them
restores it. An element put in front is the one that is taken off, and then the list is as it was. Two
joined lists are the elements of the first and then those of the second, which is left empty, and a list
joined to itself is doubled.
-/
theorem operations_conserve_elements (h : Heap) (history : List ListCommand) :
    meaningAll history h.contents = ((runAll history h).1, (runAll history h).2.contents) ∧
      let now := (runAll history h).2
      (∀ kind id, now.elements (.list kind id) = now.contents.items id) ∧
      (∀ command : ListCommand, command.Agrees now) ∧
      ∀ kind kind' id, now.Made id →
        (∀ index : Nat, index ≤ (now.items id).length →
          (∃ cut h', split (.list kind id) index now = .ok cut h' ∧
            h'.elements (.list kind' id) = (now.items id).take index ∧
            h'.elements (.list kind' id) ++ h'.elements cut = now.items id) ∧
          ∃ h', (do join (.list kind id) (← split (.list kind id) index) : ListOp Handle) now =
              .ok (.list kind id) h' ∧ h'.contents = now.contents ++ [[]]) ∧
        (∀ element, ∃ h', (do
            let _ ← pushFront (.list kind id) element
            popFront (.list kind' id) : ListOp Handle) now = .ok element h' ∧
          h'.contents = now.contents) ∧
        (∀ source, now.Made source → id ≠ source →
          ∃ h', join (.list kind id) (.list kind' source) now = .ok (.list kind id) h' ∧
            h'.elements (.list kind id) = now.items id ++ now.items source ∧
            h'.elements (.list kind' source) = []) ∧
        ∃ h', join (.list kind id) (.list kind' id) now = .ok (.list kind id) h' ∧
          h'.elements (.list kind id) = now.items id ++ now.items id := by
  refine ⟨runAll_means history h, fun kind id => (Heap.items_contents _ id).symm,
    fun command => command.agrees _, fun kind kind' id made => ?_⟩
  -- The laws hold on any heap, so what has been done before does not matter.
  generalize (runAll history h).2 = now at made ⊢
  have there : id.index < now.contents.length := by rwa [Heap.length_contents]
  refine ⟨fun index inside => ⟨?_, join_split made inside⟩,
    fun element => popFront_pushFront made element, fun source made' different => ?_, ?_⟩
  -- A cut leaves the elements before the index and makes a container of the others.
  · obtain ⟨h', cut, parts⟩ := split_parts kind inside
    refine ⟨_, h', cut, ?_⟩
    simp only [Heap.elements_list, ← Heap.items_contents h', parts]
    rw [Contents.items_append (by simpa using there), Contents.items_hold_self there,
      Contents.items_append_last (by simp), List.take_append_drop]
    exact ⟨rfl, rfl⟩
  -- Two lists in different containers change those two only.
  · obtain ⟨h', joined, whole⟩ := join_parts kind kind' now different
    have there' : source.index < now.contents.length := by rwa [Heap.length_contents]
    refine ⟨h', joined, ?_⟩
    simp only [Heap.elements_list, ← Heap.items_contents h', whole]
    rw [Contents.items_hold_of_ne different, Contents.items_hold_self there,
      Contents.items_hold_self (by simpa using there')]
    exact ⟨rfl, rfl⟩
  -- A list that is joined to itself has its elements twice.
  · obtain ⟨h', joined, whole⟩ := join_self kind kind' id now
    refine ⟨h', joined, ?_⟩
    simp only [Heap.elements_list, ← Heap.items_contents h', whole]
    exact Contents.items_hold_self there _

open ListCommand in
/-- A list that has been shortened in front and has moved to a longer strip is doubled. -/
theorem operations_conserve_elements_doubled :
    let a : Handle := .string (Text.encode "a")
    let b : Handle := .string (Text.encode "b")
    let now := (runAll [.popFront (.list .qexpr ⟨0⟩), .append (.list .sexpr ⟨0⟩) a,
      .popFront (.symbol "x")] ⟨#[.ofList [a, b]]⟩).2
    now.Made ⟨0⟩ ∧ now.items ⟨0⟩ = [b, a] ∧
      ∃ h', join (.list .sexpr ⟨0⟩) (.list .qexpr ⟨0⟩) now = .ok (.list .sexpr ⟨0⟩) h' ∧
        h'.elements (.list .sexpr ⟨0⟩) = [b, a, b, a] := by
  intro a b now
  have made : now.Made ⟨0⟩ := Nat.zero_lt_one
  have laws := operations_conserve_elements ⟨#[.ofList [a, b]]⟩ [.popFront (.list .qexpr ⟨0⟩),
    .append (.list .sexpr ⟨0⟩) a, .popFront (.symbol "x")]
  exact ⟨made, rfl, (laws.2.2.2 .sexpr .qexpr ⟨0⟩ made).2.2.2⟩

end ListOp
end QLisp.Shared
