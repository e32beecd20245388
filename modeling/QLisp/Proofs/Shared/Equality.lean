import QLisp.Proofs.Shared.Reachable
import QLisp.Proofs.Value.Equality

/-!
Equality of handles.

Where the way down from two handles ends, comparing them ends too and compares the values that they
stand for, however much storage they share. So equality is a partial equivalence on the values that are
not part of themselves, and a copy of such a value is the same as the value unless a NaN is inside it.
-/

namespace QLisp.Shared

namespace Heap

variable {h h' : Heap}

/-- No list on the way down from a handle is part of itself. -/
structure Acyclic (h : Heap) (v : Handle) : Prop where
  /-- Every container on the way down has been made. -/
  made (path : List Turn) (c : CellId) : h.LeadsTo v path c → h.Made c
  /-- No list in a container on the way down leads back to that container. -/
  once (path : List Turn) (c : CellId) : h.LeadsTo v path c →
    ∀ kind turn back, ¬ h.LeadsTo (.list kind c) (turn :: back) c

/-- The way down from a handle ends where it does from each container that the handle names. -/
theorem endsWith_of_cells {ends : CellId → Bool} {v : Handle} (inside : ∀ c ∈ v.cells, ends c) :
    endsWith ends v := by
  induction v with
  | lambda formals body scope formalIh bodyIh =>
    simp only [Handle.cells, List.forall_mem_append] at inside
    exact Bool.and_eq_true_iff.mpr ⟨formalIh inside.1, bodyIh inside.2⟩
  | list kind id => exact inside id (List.mem_singleton_self id)
  | _ => rfl

namespace Acyclic

variable {v : Handle} {passed : List CellId}

/-- A container that is entered is made and was not passed before. -/
theorem enter (acyclic : h.Acyclic v) (distinct : passed.Nodup) (made : ∀ c ∈ passed, h.Made c)
    (behind : ∀ path, ∀ c ∈ passed, ¬ h.LeadsTo v path c) {c : CellId} (named : c ∈ v.cells) :
    (c :: passed).Nodup ∧ ∀ c' ∈ c :: passed, h.Made c' := by
  obtain ⟨along, leads⟩ := h.leadsTo_of_mem_cells named
  constructor
  · exact List.nodup_cons.mpr ⟨fun passed => behind along c passed leads, distinct⟩
  · exact List.forall_mem_cons.mpr ⟨acyclic.made along c leads, made⟩

/-- The way down ends when it may enter as many containers as it has not passed yet. -/
theorem endsWith {depth : Nat} (acyclic : h.Acyclic v) (distinct : passed.Nodup)
    (made : ∀ c ∈ passed, h.Made c) (behind : ∀ path, ∀ c ∈ passed, ¬ h.LeadsTo v path c)
    (enough : h.containers.size ≤ depth + passed.length) :
    Heap.endsWith (h.endsWithin depth) v := by
  -- Each container that is entered is one more that has been passed.
  induction depth generalizing v passed with
  | zero =>
    refine endsWith_of_cells fun c named => ?_
    -- There would be one more distinct container than have been made.
    obtain ⟨distinct, made⟩ := acyclic.enter distinct made behind named
    have more := length_le_of_made distinct made
    rw [List.length_cons] at more
    omega
  | succ depth ih =>
    refine endsWith_of_cells fun c named => List.all_eq_true.mpr fun u member => ?_
    obtain ⟨distinct, made⟩ := acyclic.enter distinct made behind named
    -- From the handle a way leads to the list, and from there to any container of an element.
    obtain ⟨along, leads⟩ := h.leadsTo_of_mem_cells named
    obtain ⟨index, found⟩ := List.mem_iff_getElem?.mp member
    have inside : ∀ {path c'}, h.LeadsTo u path c' → ∀ kind,
        h.LeadsTo (.list kind c) (.item index :: path) c' := fun inner kind =>
      leadsTo_list.mpr (.inr ⟨index, u, _, rfl, found, inner⟩)
    have further : ∀ {path c'}, h.LeadsTo u path c' →
        h.LeadsTo v (along ++ .item index :: path) c' := fun inner =>
      leads.append (inside inner .sexpr)
    have lower : h.Acyclic u := ⟨fun path c' inner => acyclic.made _ c' (further inner),
      fun path c' inner => acyclic.once _ c' (further inner)⟩
    -- So the elements end with less depth.
    apply ih lower distinct made
    · -- Neither the list itself nor what was passed before comes again.
      intro path
      refine List.forall_mem_cons.mpr ⟨?_, ?_⟩
      · intro inner
        exact acyclic.once along c leads .sexpr _ path (inside inner .sexpr)
      · intro c' passed inner
        exact behind _ c' passed (further inner)
    · rw [List.length_cons]
      omega

/-- The way down ends where no list on it is part of itself. -/
theorem ends (acyclic : h.Acyclic v) : h.ends v :=
  acyclic.endsWith List.nodup_nil (fun _ member => absurd member List.not_mem_nil)
    (fun _ _ member => absurd member List.not_mem_nil) (Nat.le_add_right _ _)

/-- A value that is not part of itself stays as it is where containers are only made. -/
theorem view (acyclic : h.Acyclic v) (kept : h.Keeps h') :
    h'.ends v ∧ h'.view v = h.view v :=
  (Edits.of_keeps kept).view acyclic.ends fun path c leads =>
    ⟨acyclic.made path c leads, List.not_mem_nil⟩

end Acyclic

section Older

variable (older : ∀ index < h.containers.size, ∀ u ∈ h.items ⟨index⟩, ∀ c ∈ u.cells, c.index < index)

include older

/-- A container that is reached by a path is older than a bound on those that the start names. -/
theorem leadsTo_older {bound : Nat} {path : List Turn} {v : Handle} {c : CellId}
    (named : ∀ c ∈ v.cells, c.index < bound) (within : bound ≤ h.containers.size)
    (leads : h.LeadsTo v path c) : c.index < bound := by
  -- The bound falls from a list to its elements.
  induction path generalizing v bound with
  | nil =>
    obtain ⟨kind, here⟩ := leads
    cases here
    exact named c (List.mem_singleton_self c)
  | cons turn path ih =>
    cases v with
    -- Both parts of a function name what it names.
    | lambda formals body scope =>
      rcases leadsTo_lambda.mp leads with ⟨_, same, inner⟩ | ⟨_, same, inner⟩ <;> cases same
      · exact ih (fun c member => named c (List.mem_append_left _ member)) within inner
      · exact ih (fun c member => named c (List.mem_append_right _ member)) within inner
    -- The elements of a list are in older containers than the list itself.
    | list kind id =>
      rcases leadsTo_list.mp leads with ⟨same, _⟩ | ⟨_, u, _, same, found, inner⟩ <;> cases same
      have below := named id (List.mem_singleton_self id)
      have there : id.index < h.containers.size := Nat.lt_of_lt_of_le below within
      have inside := older id.index there u (List.mem_of_getElem? found)
      exact Nat.lt_trans (ih inside (Nat.le_of_lt there) inner) below
    | _ => simp [LeadsTo, follow?, part?] at leads

/-- No list is part of itself where every container names none but older ones. -/
theorem acyclic_of_older {v : Handle} (named : ∀ c ∈ v.cells, c.index < h.containers.size) :
    h.Acyclic v where
  made _ _ leads := leadsTo_older older named (Nat.le_refl _) leads
  once _ c leads kind turn back returns := by
    -- A way back would lead to a container that is older than itself.
    have made : h.Made c := leadsTo_older older named (Nat.le_refl _) leads
    rcases leadsTo_list.mp returns with ⟨same, _⟩ | ⟨_, u, _, _, found, inner⟩
    · cases same
    · have inside := older c.index made u (List.mem_of_getElem? found)
      exact Nat.lt_irrefl _ (leadsTo_older older inside (Nat.le_of_lt made) inner)

end Older

variable {depth depth' room : Nat}

/-- Lists are compared by their elements, once comparing these compares their values. -/
theorem sameItems_values {items items' : List Handle} {look look' : Handle → Value}
    (compared : ∀ v ∈ items, ∀ v' ∈ items',
      h.sameWith (h.sameItems depth) v v' = some ((look v).same (look' v'))) :
    h.sameItems (depth + 1) items items' =
      some (Value.sameAll (items.map look) (items'.map look')) := by
  -- The induction is on the elements; a first difference may be seen after the lengths.
  induction items generalizing items' with
  | nil => cases items' <;> simp [sameItems, Value.sameAll]
  | cons v rest ih =>
    cases items' with
    | nil => simp [sameItems, Value.sameAll]
    -- The first elements are compared, and then the others.
    | cons v' rest' =>
      have first := compared v List.mem_cons_self v' List.mem_cons_self
      have others := ih fun u member u' member' =>
        compared u (List.mem_cons_of_mem _ member) u' (List.mem_cons_of_mem _ member')
      simp only [sameItems, Value.sameAll, List.map_cons, List.length_cons,
        Nat.add_right_cancel_iff, List.zip_cons_cons, List.allM, first] at others ⊢
      -- Whether the first ones differ or not, the lengths are compared with the rest.
      cases (look v).same (look' v') <;> split at others <;> simp_all

/-- The elements of a handle are the elements of its value, one container less being followed. -/
theorem elements_ends {v : Handle} (list : v.isList) (ends : endsWith (h.endsWithin depth) v) :
    ∃ less, (∀ u ∈ h.elements v, less < depth ∧ endsWith (h.endsWithin less) u) ∧
      ∃ kind, v.kind = .list kind ∧ viewWith (h.viewItems depth) v =
        .list kind ((h.elements v).map (viewWith (h.viewItems less))) := by
  cases v with
  | list kind id =>
    -- Without a step left no container can be entered.
    cases depth with
    | zero => cases ends
    | succ less =>
      have inside : (h.items id).all (endsWith (h.endsWithin less)) = true := ends
      exact ⟨less, fun u member => ⟨less.lt_succ_self, List.all_eq_true.mp inside u member⟩, kind,
        rfl, rfl⟩
  | bareList kind => exact ⟨0, by simp [elements], kind, rfl, rfl⟩
  | _ => cases list

/-- A list is compared with any handle by the elements of both, if their kinds are the same. -/
theorem sameWith_elements {v : Handle} (list : v.isList) (v' : Handle)
    (sameItems : List Handle → List Handle → Option Bool) :
    h.sameWith sameItems v v' =
      if v.kind = v'.kind then sameItems (h.elements v) (h.elements v') else some false := by
  cases v with
  | list | bareList => cases v' <;> rfl
  | _ => cases list

/-- Lists that are compared by their elements are compared by their values. -/
theorem sameWith_lists (compared : ∀ {less less'} {u u' : Handle}, less < depth →
      endsWith (h.endsWithin less) u → endsWith (h.endsWithin less') u' →
      h.sameWith (h.sameItems room) u u' =
        some ((viewWith (h.viewItems less) u).same (viewWith (h.viewItems less') u')))
    {v v' : Handle} (list : v.isList) (ends : endsWith (h.endsWithin depth) v)
    (ends' : endsWith (h.endsWithin depth') v') :
    h.sameWith (h.sameItems (room + 1)) v v' =
      some ((viewWith (h.viewItems depth) v).same (viewWith (h.viewItems depth') v')) := by
  obtain ⟨less, inside, kind, kinded, viewed⟩ := elements_ends list ends
  rw [sameWith_elements list, kinded, viewed]
  -- Lists of the same kind are compared by their elements, and others differ.
  by_cases list' : v'.isList
  · obtain ⟨less', inside', kind', kinded', viewed'⟩ := elements_ends list' ends'
    rw [kinded', viewed', sameItems_values fun u member u' member' =>
      compared (inside u member).1 (inside u member).2 (inside' u' member').2]
    by_cases alike : kind = kind' <;> simp [Value.same, alike]
  · -- A value that is no list is the same as no list.
    cases v' with
    | list | bareList => exact absurd rfl list'
    | bare tag => cases tag <;> rfl
    | _ => rfl

/--
Where the way down from two handles ends, comparing them compares their values.

The comparison has to follow more containers than the way down from the first handle takes.
-/
theorem sameWith_values (enough : depth < room) {v v' : Handle}
    (ends : endsWith (h.endsWithin depth) v) (ends' : endsWith (h.endsWithin depth') v') :
    h.sameWith (h.sameItems room) v v' =
      some ((viewWith (h.viewItems depth) v).same (viewWith (h.viewItems depth') v')) := by
  -- From a list to its elements there are fewer containers to follow.
  induction room generalizing depth depth' v v' with
  | zero => exact absurd enough (Nat.not_lt_zero depth)
  | succ room ih =>
    have shorter : ∀ {less less'} {u u' : Handle}, less < depth →
        endsWith (h.endsWithin less) u → endsWith (h.endsWithin less') u' →
        h.sameWith (h.sameItems room) u u' =
          some ((viewWith (h.viewItems less) u).same (viewWith (h.viewItems less') u')) :=
      fun fewer down down' => ih (Nat.lt_of_lt_of_le fewer (Nat.le_of_lt_succ enough)) down down'
    -- A function is compared by its parts.
    induction v generalizing v' with
    | lambda formals body scope formalIh bodyIh =>
      -- A function is the same as a function only, and its scope makes no difference.
      cases v' with
      | lambda formals' body' scope' =>
        obtain ⟨formal, bodied⟩ := Bool.and_eq_true_iff.mp ends
        obtain ⟨formal', bodied'⟩ := Bool.and_eq_true_iff.mp ends'
        simp only [sameWith, viewWith, Value.same, formalIh formal formal', bodyIh bodied bodied']
        cases Value.same _ _ <;> rfl
      | _ => rfl
    -- Lists are followed into their containers, of which fewer are left.
    | list kind id => exact sameWith_lists shorter rfl ends ends'
    | bareList kind => exact sameWith_lists shorter rfl ends ends'
    | _ => cases v' <;> rfl

/-- Where the way down from two handles ends, comparing them compares the values they stand for. -/
theorem same_view {v v' : Handle} (ends : h.ends v) (ends' : h.ends v') :
    h.same v v' = some ((h.view v).same (h.view v')) :=
  sameWith_values (Nat.lt_succ_of_le (Nat.le_mul_self _)) ends ends'

end Heap

/-- Everything that a register leads to has been made, so it holds a value unless it is cyclic. -/
theorem Host.Reachable.acyclic {host : Host} (reachable : host.Reachable) {name : String}
    (once : ∀ path c, host.machine.heap.LeadsTo (host.register name) path c →
      ∀ kind turn back, ¬ host.machine.heap.LeadsTo (.list kind c) (turn :: back) c) :
    host.machine.heap.Acyclic (host.register name) := by
  obtain ⟨kept, secure⟩ := reachable.secure
  exact ⟨fun path c leads => (secure.isolated.apart.leadsTo path (secure.registers name) leads).1,
    once⟩

namespace ListOp

variable {h : Heap} {a b c : Handle}

/-- Two handles are compared by their values where no list is part of itself. -/
theorem same_ok (first : h.Acyclic a) (second : h.Acyclic b) :
    same a b h = .ok ((h.view a).same (h.view b)) h := by
  rw [same_run, h.same_view first.ends second.ends]

/-- Two handles are found the same exactly when their values are. -/
theorem same_ok_iff (first : h.Acyclic a) (second : h.Acyclic b) :
    same a b h = .ok true h ↔ (h.view a).same (h.view b) := by
  rw [same_ok first second]
  simp

/-- A copy stands for the value that was copied, and that stays what it was. -/
theorem copy_ok (acyclic : h.Acyclic a) : ∃ copied h', copy a h = .ok copied h' ∧
    h'.same a copied = some ((h.view a).same (h.view a)) := by
  -- The copy stands on fresh containers of its own, and those of the value are left alone.
  obtain ⟨_, ids, holds, distinct, fresh⟩ := exists_placed h (h.view a)
  have made : ∀ id ∈ ids, (h.place (h.view a)).2.Made id := fun id member => (fresh id member).2
  obtain ⟨ends, viewed⟩ := acyclic.view (h.keeps_place (h.view a))
  refine ⟨_, _, (copy_run a h).trans (if_pos acyclic.ends), ?_⟩
  rw [Heap.same_view ends (holds.ends distinct made), viewed, Heap.view_place]

/--
Equality is a partial equivalence on the values that are not part of themselves.

It answers for any two of them, in either order the same, and it is transitive. A value is the same as
itself, and as a copy of itself, exactly when no NaN is inside it. Values that are the same have one
text when no zero is inside the first.
-/
theorem same_partial_equivalence (first : h.Acyclic a) (second : h.Acyclic b) (third : h.Acyclic c) :
    (∃ answer, same a b h = .ok answer h ∧ same b a h = .ok answer h) ∧
      (same a b h = .ok true h → same b c h = .ok true h → same a c h = .ok true h) ∧
      (same a a h = .ok true h ↔ ∀ x ∈ (h.view a).numbers, x.isNaN = false) ∧
      (∃ copied h', copy a h = .ok copied h' ∧
        (same a copied h' = .ok true h' ↔ ∀ x ∈ (h.view a).numbers, x.isNaN = false)) ∧
      (same a b h = .ok true h → (∀ x ∈ (h.view a).numbers, x.magnitude ≠ 0) →
        (h.view a).render = (h.view b).render) := by
  -- Each part is the one about values, read through what comparing two handles decides.
  refine ⟨⟨_, same_ok first second, ?_⟩, ?_, ?_, ?_, ?_⟩
  -- Comparing two handles either way decides the same.
  · rw [same_ok second first, Value.same_comm]
  -- What is the same as a third value by way of a second is so directly.
  · intro alike alike'
    rw [same_ok_iff first second] at alike
    rw [same_ok_iff second third] at alike'
    exact (same_ok_iff first third).mpr (Value.same_trans alike alike')
  · rw [same_ok_iff first first, Value.same_self_iff]
  -- A copy is compared as the value that it shows.
  · obtain ⟨copied, h', ran, compared⟩ := copy_ok first
    refine ⟨copied, h', ran, ?_⟩
    rw [same_run, compared, ← Value.same_self_iff]
    simp
  -- What is the same has the same text, unless it holds a zero.
  · intro alike nonzero
    rw [same_ok_iff first second] at alike
    exact Value.spell_of_same alike nonzero []

/-- A list that holds one list twice is the same as a list of two lists, and as its own copy. -/
theorem same_partial_equivalence_sharing :
    let h : Heap := ⟨#[.ofList [.number (.ofInt 1), .string (Text.encode "a")],
      .ofList [.number (.ofInt 1), .string (Text.encode "a")], .ofList [.list .qexpr ⟨0⟩, .list .qexpr ⟨0⟩],
      .ofList [.list .qexpr ⟨0⟩, .list .qexpr ⟨1⟩]]⟩
    h.Acyclic (.list .qexpr ⟨2⟩) ∧ h.Acyclic (.list .qexpr ⟨3⟩) ∧
      same (.list .qexpr ⟨2⟩) (.list .qexpr ⟨3⟩) h = .ok true h ∧
      (h.view (.list .qexpr ⟨2⟩)).render = (h.view (.list .qexpr ⟨3⟩)).render ∧
      ∃ copied h', copy (.list .qexpr ⟨2⟩) h = .ok copied h' ∧
        same (.list .qexpr ⟨2⟩) copied h' = .ok true h' := by
  intro h
  -- Every container holds only older ones, so the ways down end.
  have older : ∀ index < h.containers.size, ∀ u ∈ h.items ⟨index⟩, ∀ c ∈ u.cells,
      c.index < index := by decide
  have sharing : h.Acyclic (.list .qexpr ⟨2⟩) := Heap.acyclic_of_older older (by decide)
  have separate : h.Acyclic (.list .qexpr ⟨3⟩) := Heap.acyclic_of_older older (by decide)
  -- The list that shares its element is compared with one that does not.
  obtain ⟨_, _, _, ⟨copied, h', ran, compared⟩, text⟩ :=
    same_partial_equivalence sharing separate separate
  have alike : same (.list .qexpr ⟨2⟩) (.list .qexpr ⟨3⟩) h = .ok true h :=
    (same_ok_iff sharing separate).mpr (by decide +kernel)
  exact ⟨sharing, separate, alike, text alike (by decide +kernel), copied, h', ran,
    compared.mpr (by decide +kernel)⟩

end ListOp

end QLisp.Shared
