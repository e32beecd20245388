import QLisp.Proofs.Shared.Act
import QLisp.Proofs.Shared.Apart

/-! List operations on handles that lead to no kept container are harmless to the kept ones. -/

namespace QLisp.Shared

variable {kept : CellId → Prop} {known : ScopeId → Prop}

namespace ListOp

/-- Whatever its outcome, an operation leaves kept containers alone, and a result is good. -/
def Harmless (kept : CellId → Prop) (known : ScopeId → Prop) {α : Type} (op : ListOp α) (h : Heap)
    (good : Heap → α → Prop) : Prop :=
  match op h with
  | .ok a h' => Next kept known h h' ∧ good h' a
  | .error _ h' => Next kept known h h'

variable {α β : Type} {h : Heap}

/-- A result that needs no work is harmless. -/
theorem harmless_pure (apart : Apart kept known h) {a : α} {good : Heap → α → Prop}
    (fine : good h a) : Harmless kept known (pure a) h good :=
  ⟨apart.refl, fine⟩

/-- A fault without work is harmless. -/
theorem harmless_throw (apart : Apart kept known h) {fault : Fault} {good : Heap → α → Prop} :
    Harmless kept known (throw fault) h good :=
  apart.refl

/-- An operation that does the same as a harmless one is harmless. -/
theorem Harmless.congr {op op' : ListOp α} {good : Heap → α → Prop}
    (safe : Harmless kept known op' h good) (same : op h = op' h) :
    Harmless kept known op h good := by
  unfold Harmless
  rw [same]
  exact safe

/-- Harmless operations can follow one another. -/
theorem Harmless.bind {op : ListOp α} {next : α → ListOp β} {good : Heap → α → Prop}
    {fine : Heap → β → Prop} (first : Harmless kept known op h good)
    (second : ∀ h' a, Next kept known h h' → good h' a → Harmless kept known (next a) h' fine) :
    Harmless kept known (op >>= next) h fine := by
  -- The second operation runs only when the first has a result.
  simp only [Harmless, Bind.bind, EStateM.bind] at first ⊢
  cases ran : op h with
  | error fault h' => simpa only [ran] using first
  | ok a h' =>
    -- What the second does starts where the first has ended.
    simp only [ran] at first
    have later := second h' a first.1 first.2
    simp only [Harmless] at later
    cases ran' : next a h' with
    | ok b h'' =>
      simp only [ran'] at later ⊢
      exact ⟨first.1.trans later.1, later.2⟩
    | error fault h'' =>
      simp only [ran'] at later ⊢
      exact first.1.trans later

/-- The container of a list that is outside is made and not kept. -/
theorem harmless_storage (apart : Apart kept known h) {v : Handle} (out : Outside kept known h v) :
    Harmless kept known (storage v) h fun h' id => h'.Made id ∧ ¬ kept id := by
  cases v with
  | list kind id => exact ⟨apart.refl, outside_list.mp out⟩
  | _ => exact apart.refl

/-- Changing a container that is not kept to hold only what is outside is harmless. -/
theorem harmless_change (apart : Apart kept known h) {id : CellId} (made : h.Made id)
    (free : ¬ kept id) {f : Container → Container}
    (fine : ∀ v ∈ (f (h.container id)).slots, Outside kept known h v) :
    Harmless kept known (change id f) h fun _ _ => True :=
  ⟨apart.change made free fine, trivial⟩

/-- Reading a slot of a container that is not kept gives what is outside. -/
theorem harmless_slot (apart : Apart kept known h) {span : Span} (made : h.Made span.container)
    (free : ¬ kept span.container) (index : Nat) :
    Harmless kept known (slot span index) h fun h' v => Outside kept known h' v := by
  refine ⟨apart.refl, ?_⟩
  show Outside kept known h (h.slot span index)
  simp only [Heap.slot]
  -- A slot of the container is filled or it is empty.
  rcases Strip.slot_mem ((h.container span.container).stripAt span.age) (span.start + index) with
    inside | none
  · exact apart.slots _ made free _ (Container.slots_stripAt inside)
  · rw [none]
    exact outside_none

/-- Putting what is outside into a slot of a container that is not kept is harmless. -/
theorem harmless_put (apart : Apart kept known h) {span : Span} (made : h.Made span.container)
    (free : ¬ kept span.container) {v : Handle} (out : Outside kept known h v) (index : Nat) :
    Harmless kept known (put span index v) h fun _ _ => True := by
  refine ⟨apart.change made free fun w member => ?_, trivial⟩
  rcases Container.mem_slots_changeStrip (· = v) (fun s w => Strip.mem_slots_put) member with
    old | rfl
  · exact apart.slots _ made free w old
  · exact out

/-- Placing a value whose functions captured known scopes is harmless. -/
theorem harmless_place (apart : Apart kept known h) {t : Value}
    (obeys : t.Obeys (.captures known)) :
    Harmless kept known (place t) h fun h' v => Outside kept known h' v :=
  apart.place t obeys

/-- Making a list of what is outside is harmless. -/
theorem harmless_make (apart : Apart kept known h) {kind : ListKind} {items : List Handle}
    (out : ∀ v ∈ items, Outside kept known h v) :
    Harmless kept known (make kind items) h fun h' v => Outside kept known h' v := by
  obtain ⟨next, free⟩ := apart.alloc out
  exact ⟨next, outside_list.mpr ⟨by simp [Heap.Made], free⟩⟩

/-- Giving a list another kind is harmless. -/
theorem harmless_retag (apart : Apart kept known h) {v : Handle} (out : Outside kept known h v)
    (kind : ListKind) : Harmless kept known (retag kind v) h fun h' w => Outside kept known h' w :=
  (harmless_storage apart out).bind fun _ _ next free =>
    harmless_pure next.apart (outside_list.mpr free)

/-- Adding an element at the end is harmless. -/
theorem harmless_append (apart : Apart kept known h) {v w : Handle}
    (list : Outside kept known h v) (element : Outside kept known h w) :
    Harmless kept known (append v w) h fun h' u => Outside kept known h' u := by
  refine (harmless_storage apart list).bind fun h' id next ⟨made, free⟩ => ?_
  refine (harmless_change next.apart made free fun u member => ?_).bind fun h'' _ next' _ =>
    harmless_pure next'.apart (list.next (next.trans next'))
  -- The slots are the old ones, that of the element, and empty ones.
  rcases Container.mem_slots_append member with old | new | none
  · exact next.apart.slots id made free u old
  · rw [List.mem_singleton.mp new]
    exact element.next next
  · exact none ▸ outside_none

/-- Adding an element in front is harmless. -/
theorem harmless_pushFront (apart : Apart kept known h) {v w : Handle}
    (list : Outside kept known h v) (element : Outside kept known h w) :
    Harmless kept known (pushFront v w) h fun h' u => Outside kept known h' u := by
  refine (harmless_storage apart list).bind fun h' id next ⟨made, free⟩ => ?_
  refine (harmless_change next.apart made free fun u member => ?_).bind fun h'' _ next' _ =>
    harmless_pure next'.apart (list.next (next.trans next'))
  rcases Container.mem_slots_pushFront member with old | rfl | rfl
  · exact next.apart.slots id made free u old
  · exact element.next next
  · exact outside_none

/-- The elements of a container that is not kept are outside. -/
theorem harmless_items (apart : Apart kept known h) {id : CellId} (made : h.Made id)
    (free : ¬ kept id) :
    Harmless kept known (items id) h fun h' vs => ∀ v ∈ vs, Outside kept known h' v :=
  ⟨apart.refl, fun _ => apart.items made free⟩

/-- Taking the first element off is harmless. -/
theorem harmless_popFront (apart : Apart kept known h) {v : Handle}
    (list : Outside kept known h v) :
    Harmless kept known (popFront v) h fun h' w => Outside kept known h' w := by
  refine (harmless_storage apart list).bind fun h' id next ⟨made, free⟩ => ?_
  refine (harmless_items next.apart made free).bind fun h'' items next' out => ?_
  -- An empty list has no first element to take.
  cases items with
  | nil => exact harmless_throw next'.apart
  | cons first rest =>
    refine (harmless_change next'.apart (next'.made made) free fun w member => ?_).bind
      fun _ _ next'' _ => harmless_pure next''.apart ((out first (by simp)).next next'')
    -- Passing a slot leaves all others, and empties none but its own.
    rcases Container.mem_slots_withStrip (· = .none) Strip.mem_slots_advance member with old | rfl
    · exact next'.apart.slots id (next'.made made) free w old
    · exact outside_none

/-- Reading an element is harmless. -/
theorem harmless_element (apart : Apart kept known h) {v : Handle} (list : Outside kept known h v)
    (index : Int) :
    Harmless kept known (element v index) h fun h' w => Outside kept known h' w := by
  simp only [element]
  split
  · exact harmless_throw apart
  · refine Harmless.congr ?_ (elements_bind v _)
    cases found : (h.elements v)[index.toNat]? with
    | none => exact harmless_throw apart
    | some w => exact harmless_pure apart (apart.elements list (List.mem_of_getElem? found))

/-- Taking an element and giving up the others is harmless. -/
theorem harmless_take (apart : Apart kept known h) {v : Handle} (list : Outside kept known h v)
    (index : Int) : Harmless kept known (take v index) h fun h' w => Outside kept known h' w := by
  refine (harmless_storage apart list).bind fun h' id next ⟨made, free⟩ => ?_
  refine (harmless_element next.apart (list.next next) index).bind fun h'' w next' out => ?_
  refine (harmless_change next'.apart (next'.made made) free fun u member => ?_).bind
    fun _ _ next'' _ => harmless_pure next''.apart (out.next next'')
  exact next'.apart.slots id (next'.made made) free u (Container.mem_slots_clear member)

/-- Cutting a list is harmless. -/
theorem harmless_split (apart : Apart kept known h) {v : Handle} (list : Outside kept known h v)
    (index : Int) : Harmless kept known (split v index) h fun h' w => Outside kept known h' w := by
  -- The elements behind the index move into a fresh container.
  cases v with
  | list kind id =>
    obtain ⟨made, free⟩ := outside_list.mp list
    refine (harmless_items apart made free).bind fun h' all next out => ?_
    split
    -- An index outside of the list is a fault, which changes nothing.
    · exact harmless_throw next.apart
    · refine (harmless_change next.apart (next.made made) free fun w member => ?_).bind
        fun _ _ next' _ => harmless_make next'.apart fun w member =>
          (out w (List.mem_of_mem_drop member)).next next'
      rcases Container.mem_slots_withStrip (· = .none) Strip.mem_slots_truncate member with
        old | rfl
      · exact next.apart.slots id (next.made made) free w old
      · exact outside_none
  | _ => exact harmless_throw apart

/-- Joining two lists is harmless. -/
theorem harmless_join (apart : Apart kept known h) {v w : Handle} (list : Outside kept known h v)
    (other : Outside kept known h w) :
    Harmless kept known (join v w) h fun h' u => Outside kept known h' u := by
  -- The elements of the second list move to the first, unless the two are one list.
  refine (harmless_storage apart list).bind fun h₁ id next₁ ⟨made, free⟩ => ?_
  refine (harmless_storage next₁.apart (other.next next₁)).bind
    fun h₂ source next₂ ⟨made', free'⟩ => ?_
  refine (harmless_items next₂.apart made' free').bind fun h₃ more next₃ out => ?_
  have grown : ∀ u ∈ ((h₃.container id).append more).slots, Outside kept known h₃ u := by
    intro u member
    rcases Container.mem_slots_append member with old | new | rfl
    · exact next₃.apart.slots id (next₃.made (next₂.made made)) free u old
    · exact out u new
    · exact outside_none
  refine (harmless_change next₃.apart (next₃.made (next₂.made made)) free grown).bind
    fun h₄ _ next₄ _ => ?_
  have still : Outside kept known h₄ v :=
    list.next (next₁.trans (next₂.trans (next₃.trans next₄)))
  split
  · exact harmless_pure next₄.apart still
  · have there : h₄.Made source := next₄.made (next₃.made made')
    refine (harmless_change next₄.apart there free' fun u member => ?_).bind fun _ _ next₅ _ =>
      harmless_pure next₅.apart (still.next next₅)
    exact next₄.apart.slots source there free' u (Container.mem_slots_clear member)

/-- Reading a value is harmless. -/
theorem harmless_view (apart : Apart kept known h) (v : Handle) :
    Harmless kept known (view v) h fun h' t => h' = h ∧ t = h.view v := by
  simp only [Harmless, view_run]
  cases h.ends v
  · exact apart.refl
  · exact ⟨apart.refl, rfl, rfl⟩

/-- Comparing two values is harmless. -/
theorem harmless_same (apart : Apart kept known h) (v v' : Handle) :
    Harmless kept known (same v v') h fun _ _ => True := by
  simp only [Harmless, same_run]
  cases h.same v v'
  · exact apart.refl
  · exact ⟨apart.refl, trivial⟩

/-- Copying a value whose functions captured known scopes is harmless. -/
theorem harmless_copy (apart : Apart kept known h) {v : Handle}
    (obeys : (h.view v).Obeys (.captures known)) :
    Harmless kept known (copy v) h fun h' w => Outside kept known h' w := by
  refine (harmless_view apart v).bind fun h' t _ ⟨same, read⟩ => ?_
  rw [same, read]
  exact harmless_place apart obeys

/-- The formals of a function that is outside are outside. -/
theorem harmless_formals (apart : Apart kept known h) {v : Handle} (out : Outside kept known h v) :
    Harmless kept known (formals v) h fun h' w => Outside kept known h' w := by
  cases v with
  | lambda formals body scope => exact harmless_pure apart (outside_lambda.mp out).1
  | _ => exact harmless_throw apart

/-- The body of a function that is outside is outside. -/
theorem harmless_body (apart : Apart kept known h) {v : Handle} (out : Outside kept known h v) :
    Harmless kept known (body v) h fun h' w => Outside kept known h' w := by
  cases v with
  | lambda formals body scope => exact harmless_pure apart (outside_lambda.mp out).2.1
  | _ => exact harmless_throw apart

end ListOp

namespace Act

variable {h : Heap}

/-- A requirement that only reads the heap is harmless along a list of handles. -/
theorem harmless_expectAll (apart : Apart kept known h)
    {check : Handle → ListOp (Except Failure Unit)} (reads : ∀ v, ∃ a, check v h = .ok a h)
    (handles : List Handle) :
    ListOp.Harmless kept known (expectAll check handles) h fun _ _ => True := by
  -- The first failure ends the walk, and no step changes the heap.
  induction handles with
  | nil => exact ListOp.harmless_pure apart trivial
  | cons v rest ih =>
    obtain ⟨a, ran⟩ := reads v
    simp only [ListOp.Harmless, expectAll, Bind.bind, EStateM.bind, ran] at ih ⊢
    cases a with
    | ok => exact ih
    | error failure => exact ⟨apart.refl, trivial⟩

/-- Requiring a quoted list that is not empty only reads the heap. -/
theorem expectItems_reads (p : Primitive) (v : Handle) : ∃ a, expectItems p v h = .ok a h := by
  simp only [expectItems]
  split
  · exact ⟨_, rfl⟩
  · simp only [ListOp.elements_bind]
    split <;> exact ⟨_, rfl⟩

/-- Requiring a clause of a selection only reads the heap. -/
theorem expectClause_reads (p : Primitive) (v : Handle) : ∃ a, expectClause p v h = .ok a h := by
  simp only [expectClause]
  split <;> exact ⟨_, rfl⟩

/-- Joining arguments to the first one is harmless. -/
theorem harmless_joinAll {arguments first : Handle} (count : Nat) :
    ∀ {h : Heap}, Apart kept known h → Outside kept known h arguments →
      Outside kept known h first →
      ListOp.Harmless kept known (joinAll arguments first count) h
        fun h' v => Outside kept known h' v := by
  -- Each round takes one argument off and joins it.
  induction count with
  | zero => exact fun apart _ _ => ListOp.harmless_throw apart
  | succ count ih =>
    intro h apart list out
    simp only [joinAll]
    show ListOp.Harmless kept known (if (h.elements arguments).isEmpty then pure first else _) h _
    split
    · exact ListOp.harmless_pure apart out
    · refine (ListOp.harmless_popFront apart list).bind fun h₁ v next₁ taken => ?_
      refine (ListOp.harmless_join next₁.apart (out.next next₁) taken).bind fun h₂ _ next₂ _ => ?_
      exact ih next₂.apart (list.next (next₁.trans next₂)) (out.next (next₁.trans next₂))

end Act

end QLisp.Shared
