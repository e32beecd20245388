import QLisp.Proofs.Shared.Edit
import QLisp.Proofs.Shared.Isolation

/-!
Paths from a handle down to a container.

A path goes into the elements of lists and into the formals and bodies of functions. A handle that
owns a tree of containers reaches each of them along one path, and a handle that leads to no kept
container reaches none along any.
-/

namespace QLisp.Shared

/-- One step of a path: an element of a list, or a part of a function. -/
inductive Turn where
  | item (index : Nat)
  | formals
  | body
  deriving DecidableEq, Repr

namespace Heap

/-- The part of a handle that one step of a path leads to. -/
def part? (h : Heap) : Handle → Turn → Option Handle
  | .list _ id, .item index => (h.items id)[index]?
  | .lambda formals _ _, .formals => some formals
  | .lambda _ body _, .body => some body
  | _, _ => none

/-- The handle at the end of a path. -/
def follow? (h : Heap) : Handle → List Turn → Option Handle
  | v, [] => some v
  | v, turn :: path => do h.follow? (← h.part? v turn) path

/-- A path leads from a handle to a list in a container. -/
def LeadsTo (h : Heap) (v : Handle) (path : List Turn) (c : CellId) : Prop :=
  ∃ kind, h.follow? v path = some (.list kind c)

/-- A path from a list ends in its container or goes on from an element. -/
theorem leadsTo_list {h : Heap} {kind : ListKind} {id c : CellId} {path : List Turn} :
    h.LeadsTo (.list kind id) path c ↔ (path = [] ∧ c = id) ∨
      ∃ index part rest, path = .item index :: rest ∧ (h.items id)[index]? = some part ∧
        h.LeadsTo part rest c := by
  constructor
  · rintro ⟨found, leads⟩
    -- The path is at its end, or its first turn goes to an element.
    rcases path with _ | ⟨index | _ | _, rest⟩
    · cases leads
      exact .inl ⟨rfl, rfl⟩
    · obtain ⟨part, inside, inner⟩ := Option.bind_eq_some_iff.mp leads
      exact .inr ⟨index, part, rest, rfl, inside, found, inner⟩
    · simp [follow?, part?] at leads
    · simp [follow?, part?] at leads
  · rintro (⟨rfl, rfl⟩ | ⟨index, part, rest, rfl, inside, found, inner⟩)
    · exact ⟨kind, rfl⟩
    · exact ⟨found, by simp [follow?, part?, inside, inner]⟩

/-- A path from a function goes on from its formals or from its body. -/
theorem leadsTo_lambda {h : Heap} {formals body : Handle} {scope : Option ScopeId} {c : CellId}
    {path : List Turn} :
    h.LeadsTo (.lambda formals body scope) path c ↔
      (∃ rest, path = .formals :: rest ∧ h.LeadsTo formals rest c) ∨
        ∃ rest, path = .body :: rest ∧ h.LeadsTo body rest c := by
  cases path with
  | nil => simp [LeadsTo, follow?]
  | cons turn rest => cases turn <;> simp [LeadsTo, follow?, part?]

/-- An atom leads nowhere. -/
theorem not_leadsTo_atom {h : Heap} {v : Handle} {t : Value} (atomic : v.atom? = some t)
    (path : List Turn) (c : CellId) : ¬ h.LeadsTo v path c := by
  cases v <;> simp only [Handle.atom?, reduceCtorEq] at atomic <;>
    cases path <;> simp [LeadsTo, follow?, part?]

/-- A list of atoms leads to its own container only. -/
theorem eq_of_leadsTo_atoms {h : Heap} {kind : ListKind} {id c : CellId} {path : List Turn}
    (atoms : ∀ v ∈ h.items id, v.atom?.isSome) (leads : h.LeadsTo (.list kind id) path c) : c = id := by
  rcases leadsTo_list.mp leads with ⟨_, same⟩ | ⟨index, v, rest, _, found, inner⟩
  · exact same
  · obtain ⟨t, atomic⟩ := Option.isSome_iff_exists.mp (atoms v (List.mem_of_getElem? found))
    exact absurd inner (not_leadsTo_atom atomic rest c)

/-- A list without a container leads nowhere. -/
theorem not_leadsTo_bareList {h : Heap} {kind : ListKind} (path : List Turn) (c : CellId) :
    ¬ h.LeadsTo (.bareList kind) path c := by
  cases path <;> simp [LeadsTo, follow?, part?]

end Heap

variable {h : Heap} {rule : HandleRule}

mutual

/-- Every container that a handle leads to is in its footprint. -/
theorem Holds.mem_of_leadsTo {v : Handle} {t : Value} {ids : List CellId}
    (holds : Holds h rule v t ids) {path : List Turn} {c : CellId}
    (leads : h.LeadsTo v path c) : c ∈ ids := by
  -- The first step of the path leaves a list or a function for one of its parts.
  cases holds with
  | atom atomic => exact absurd leads (Heap.not_leadsTo_atom atomic path c)
  -- A container of a part is one of the whole.
  | lambda _ formal bodied =>
    rcases Heap.leadsTo_lambda.mp leads with ⟨rest, _, inner⟩ | ⟨rest, _, inner⟩
    · exact List.mem_append_left _ (formal.mem_of_leadsTo inner)
    · exact List.mem_append_right _ (bodied.mem_of_leadsTo inner)
  | list inside =>
    rcases Heap.leadsTo_list.mp leads with ⟨_, rfl⟩ | ⟨index, part, rest, _, found, inner⟩
    · exact List.mem_cons_self
    · exact List.mem_cons_of_mem _ (inside.mem_of_leadsTo found inner)
  | bareList => exact absurd leads (Heap.not_leadsTo_bareList path c)

/-- Every container that one of some handles leads to is in their footprint. -/
theorem HoldsAll.mem_of_leadsTo {vs : List Handle} {ts : List Value} {ids : List CellId}
    (holds : HoldsAll h rule vs ts ids) {index : Nat} {v : Handle} (found : vs[index]? = some v)
    {path : List Turn} {c : CellId} (leads : h.LeadsTo v path c) : c ∈ ids := by
  cases holds with
  | nil => simp at found
  | cons head tail =>
    -- The element is the first one or one of the others.
    cases index with
    | zero =>
      cases found
      exact List.mem_append_left _ (head.mem_of_leadsTo leads)
    | succ index =>
      exact List.mem_append_right _ (tail.mem_of_leadsTo (by simpa using found) leads)

end

mutual

/-- A handle that owns its containers leads to each along one path only. -/
theorem Holds.path_unique {v : Handle} {t : Value} {ids : List CellId}
    (holds : Holds h rule v t ids) (once : ids.Nodup) {path path' : List Turn} {c : CellId}
    (leads : h.LeadsTo v path c) (leads' : h.LeadsTo v path' c) : path = path' := by
  -- Two paths that part ways would meet one container in two footprints.
  cases holds with
  | atom atomic => exact absurd leads (Heap.not_leadsTo_atom atomic path c)
  | lambda _ formal bodied =>
    obtain ⟨onceFormal, onceBody, apart⟩ := List.nodup_append.mp once
    -- Both paths go through the same part, since the parts are apart.
    rcases Heap.leadsTo_lambda.mp leads with ⟨rest, rfl, inner⟩ | ⟨rest, rfl, inner⟩
    · rcases Heap.leadsTo_lambda.mp leads' with ⟨rest', rfl, inner'⟩ | ⟨rest', rfl, inner'⟩
      · rw [formal.path_unique onceFormal inner inner']
      · exact absurd rfl (apart c (formal.mem_of_leadsTo inner) c (bodied.mem_of_leadsTo inner'))
    · rcases Heap.leadsTo_lambda.mp leads' with ⟨rest', rfl, inner'⟩ | ⟨rest', rfl, inner'⟩
      · exact absurd rfl (apart c (formal.mem_of_leadsTo inner') c (bodied.mem_of_leadsTo inner))
      · rw [bodied.path_unique onceBody inner inner']
  | list inside =>
    obtain ⟨outer, onceInside⟩ := List.nodup_cons.mp once
    -- A path ends at the list, or goes on in an element.
    rcases Heap.leadsTo_list.mp leads with ⟨rfl, rfl⟩ | ⟨index, part, rest, rfl, found, inner⟩
    · rcases Heap.leadsTo_list.mp leads' with ⟨rfl, _⟩ | ⟨index', part', rest', _, found', inner'⟩
      · rfl
      · exact absurd (inside.mem_of_leadsTo found' inner') outer
    · rcases Heap.leadsTo_list.mp leads' with ⟨_, rfl⟩ | ⟨index', part', rest', rfl, found', inner'⟩
      · exact absurd (inside.mem_of_leadsTo found inner) outer
      · obtain ⟨rfl, rfl⟩ := inside.path_unique onceInside found found' inner inner'
        rfl
  | bareList => exact absurd leads (Heap.not_leadsTo_bareList path c)

/-- Handles that own their containers lead to each from one place, along one path only. -/
theorem HoldsAll.path_unique {vs : List Handle} {ts : List Value} {ids : List CellId}
    (holds : HoldsAll h rule vs ts ids) (once : ids.Nodup) {index index' : Nat} {v v' : Handle}
    (found : vs[index]? = some v) (found' : vs[index']? = some v') {path path' : List Turn}
    {c : CellId} (leads : h.LeadsTo v path c) (leads' : h.LeadsTo v' path' c) :
    index = index' ∧ path = path' := by
  cases holds with
  | nil => simp at found
  | cons head tail =>
    obtain ⟨onceHead, onceTail, apart⟩ := List.nodup_append.mp once
    -- Two different elements have no container in common.
    cases index with
    | zero =>
      cases found
      cases index' with
      | zero =>
        cases found'
        exact ⟨rfl, head.path_unique onceHead leads leads'⟩
      -- The second path goes into a later element, which has other containers.
      | succ index' =>
        have inside := tail.mem_of_leadsTo (by simpa using found') leads'
        exact absurd rfl (apart c (head.mem_of_leadsTo leads) c inside)
    | succ index =>
      have inside := tail.mem_of_leadsTo (by simpa using found) leads
      cases index' with
      | zero =>
        cases found'
        exact absurd rfl (apart c (head.mem_of_leadsTo leads') c inside)
      | succ index' =>
        obtain ⟨same, along⟩ := tail.path_unique onceTail (by simpa using found)
          (by simpa using found') leads leads'
        exact ⟨by rw [same], along⟩

end

/-- A handle that leads to no kept container at its start leads to none further on. -/
theorem Apart.leadsTo {kept : CellId → Prop} {known : ScopeId → Prop}
    (apart : Apart kept known h) (path : List Turn) :
    ∀ {v : Handle} {c : CellId}, Outside kept known h v → h.LeadsTo v path c →
      h.Made c ∧ ¬ kept c := by
  -- Each step of the path stays outside.
  induction path with
  | nil =>
    intro v c out ⟨kind, here⟩
    cases here
    exact outside_list.mp out
  | cons turn path ih =>
    intro v c out leads
    cases v with
    | lambda formals body scope =>
      obtain ⟨formal, bodied, _⟩ := outside_lambda.mp out
      -- The path goes on in a part, which lies outside as well.
      rcases Heap.leadsTo_lambda.mp leads with ⟨_, same, inner⟩ | ⟨_, same, inner⟩ <;> cases same
      · exact ih formal inner
      · exact ih bodied inner
    | list kind id =>
      obtain ⟨made, free⟩ := outside_list.mp out
      rcases Heap.leadsTo_list.mp leads with ⟨same, _⟩ | ⟨_, part, _, same, found, inner⟩ <;>
        cases same
      exact ih (apart.items made free (List.mem_of_getElem? found)) inner
    | _ => simp [Heap.LeadsTo, Heap.follow?, Heap.part?] at leads

/-- A path to a container can be followed by a path from a list in that container. -/
theorem Heap.LeadsTo.append {v : Handle} {path more : List Turn} {kind : ListKind} {c c' : CellId}
    (leads : h.LeadsTo v path c) (further : h.LeadsTo (.list kind c) more c') :
    h.LeadsTo v (path ++ more) c' := by
  -- By induction on the first path; where it ends, the second goes on.
  induction path generalizing v with
  | nil =>
    obtain ⟨other, here⟩ := leads
    cases here
    exact leadsTo_list.mpr (leadsTo_list.mp further)
  | cons turn path ih =>
    obtain ⟨other, found⟩ := leads
    obtain ⟨part, turned, inner⟩ := Option.bind_eq_some_iff.mp found
    obtain ⟨last, ended⟩ := ih ⟨other, inner⟩
    exact ⟨last, by simp only [List.cons_append, follow?, turned]; exact ended⟩

/-- Where the way down from a handle ends, it ends from every container on it, and no later. -/
theorem Heap.endsWithin_of_leadsTo {depth : Nat} {v : Handle}
    (ends : endsWith (h.endsWithin depth) v = true) {path : List Turn} {c : CellId}
    (leads : h.LeadsTo v path c) : ∃ left ≤ depth, h.endsWithin left c = true := by
  -- Each step of the path goes into a part, from which the way down ends as well.
  induction path generalizing depth v with
  | nil =>
    -- The path has ended, so the depth is what it was.
    obtain ⟨kind, here⟩ := leads
    cases here
    exact ⟨depth, Nat.le_refl depth, ends⟩
  | cons turn path ih =>
    cases v with
    | lambda formals body scope =>
      obtain ⟨formal, bodied⟩ := Bool.and_eq_true_iff.mp ends
      rcases leadsTo_lambda.mp leads with ⟨_, same, inner⟩ | ⟨_, same, inner⟩ <;> cases same
      · exact ih formal inner
      · exact ih bodied inner
    | list kind id =>
      rcases leadsTo_list.mp leads with ⟨same, _⟩ | ⟨_, part, _, same, found, inner⟩ <;> cases same
      cases depth with
      | zero => cases ends
      | succ depth =>
        -- The element ends with one level less, and so does what it leads to.
        have inside := List.all_eq_true.mp ends part (List.mem_of_getElem? found)
        obtain ⟨left, less, there⟩ := ih inside inner
        exact ⟨left, Nat.le_succ_of_le less, there⟩
    | _ => simp [LeadsTo, follow?, part?] at leads

/-- From a list that is part of itself the way down is endless. -/
theorem Heap.endsWithin_cycle {id : CellId} {v : Handle} (member : v ∈ h.items id)
    {path : List Turn} (leads : h.LeadsTo v path id) (depth : Nat) :
    h.endsWithin depth id ≠ true := by
  -- Otherwise the way down would end sooner than it does.
  induction depth using Nat.strongRecOn with
  | ind depth ih =>
    intro within
    cases depth with
    | zero => cases within
    | succ depth =>
      have inside := List.all_eq_true.mp within v member
      obtain ⟨left, less, there⟩ := endsWithin_of_leadsTo inside leads
      exact ih left (Nat.lt_succ_of_le less) there

/-- Where the way down from a list ends, no element of it leads back to the list. -/
theorem Heap.not_leadsTo_self {kind : ListKind} {id : CellId} (ends : h.ends (.list kind id) = true)
    {v : Handle} (member : v ∈ h.items id) (path : List Turn) : ¬ h.LeadsTo v path id :=
  fun leads => endsWithin_cycle member leads _ ends

/-- An element from which the way down ends does not lead back to the list that it is in. -/
theorem Heap.not_leadsTo_list {id : CellId} {v : Handle} (ends : h.ends v = true)
    (member : v ∈ h.items id) (path : List Turn) : ¬ h.LeadsTo v path id := by
  intro leads
  obtain ⟨left, _, there⟩ := endsWithin_of_leadsTo ends leads
  exact endsWithin_cycle member leads left there

/-- Every container that a handle names is reached from it. -/
theorem Heap.leadsTo_of_mem_cells {v : Handle} {c : CellId} (named : c ∈ v.cells) :
    ∃ path, h.LeadsTo v path c := by
  -- By induction on the handle, whose containers are those of its parts.
  induction v with
  | lambda formals body scope formalIh bodyIh =>
    rcases List.mem_append.mp named with inner | inner
    · obtain ⟨path, leads⟩ := formalIh inner
      exact ⟨.formals :: path, leadsTo_lambda.mpr (.inl ⟨path, rfl, leads⟩)⟩
    · obtain ⟨path, leads⟩ := bodyIh inner
      exact ⟨.body :: path, leadsTo_lambda.mpr (.inr ⟨path, rfl, leads⟩)⟩
  | list kind id =>
    obtain rfl := List.mem_singleton.mp named
    exact ⟨[], kind, rfl⟩
  | _ => simp [Handle.cells] at named

/-- A handle is seen as before when the containers that it names are. -/
theorem Heap.viewWith_congr {ends ends' : CellId → Bool} {look look' : CellId → List Value}
    {v : Handle} (same : ∀ c ∈ v.cells, ends c = true → ends' c = true ∧ look' c = look c)
    (down : endsWith ends v = true) :
    endsWith ends' v = true ∧ viewWith look' v = viewWith look v := by
  -- By induction on the handle, whose parts are seen as before.
  induction v with
  | lambda formals body scope formalIh bodyIh =>
    obtain ⟨formal, bodied⟩ := Bool.and_eq_true_iff.mp down
    obtain ⟨formal', viewed⟩ := formalIh (fun c member => same c (List.mem_append_left _ member))
      formal
    obtain ⟨bodied', viewed'⟩ := bodyIh (fun c member => same c (List.mem_append_right _ member))
      bodied
    simp [endsWith, viewWith, formal', viewed, bodied', viewed']
  | list kind id =>
    obtain ⟨down', looked⟩ := same id (List.mem_singleton_self id) down
    exact ⟨down', congrArg (Value.list kind) looked⟩
  | _ => exact ⟨rfl, rfl⟩

/-- A container that leads to no edited one is seen as before, however far containers are followed. -/
theorem Edits.viewItems {h' : Heap} {ids : List CellId} (edits : Edits ids h h') {depth : Nat} :
    ∀ {depth' : Nat}, depth ≤ depth' → ∀ {id : CellId}, h.endsWithin depth id = true →
      (∀ path c, h.LeadsTo (.list .sexpr id) path c → h.Made c ∧ c ∉ ids) →
      h'.endsWithin depth' id = true ∧ h'.viewItems depth' id = h.viewItems depth id := by
  -- The depth decreases at each container.
  induction depth with
  | zero => exact fun _ _ ends => nomatch ends
  | succ depth ih =>
    intro depth' deep id ends apart
    obtain ⟨less, rfl⟩ : ∃ less, depth' = less + 1 := ⟨depth' - 1, by omega⟩
    obtain ⟨made, outside⟩ := apart [] id ⟨.sexpr, rfl⟩
    -- The container was there and has not been edited.
    have items : h'.items id = h.items id := edits.items made outside
    have part : ∀ v ∈ h.items id, Heap.endsWith (h'.endsWithin less) v = true ∧
        Heap.viewWith (h'.viewItems less) v = Heap.viewWith (h.viewItems depth) v := by
      intro v member
      obtain ⟨index, found⟩ := List.mem_iff_getElem?.mp member
      refine Heap.viewWith_congr (fun c named within => ?_) (List.all_eq_true.mp ends v member)
      -- What is on the way down from the container is on the way down from the list as well.
      obtain ⟨along, leads⟩ := h.leadsTo_of_mem_cells named
      refine ih (by omega) within fun path c' inner => ?_
      refine apart (.item index :: (along ++ path)) c' ?_
      refine Heap.leadsTo_list.mpr (.inr ⟨index, v, along ++ path, rfl, found, ?_⟩)
      exact leads.append inner
    constructor
    · show (h'.items id).all _ = true
      rw [items, List.all_eq_true]
      exact fun v member => (part v member).1
    · show (h'.items id).map _ = (h.items id).map _
      rw [items, List.map_congr_left fun v member => (part v member).2]

/-- What leads to no edited container is seen as before, however far containers are followed. -/
theorem Edits.viewWith {h' : Heap} {ids : List CellId} (edits : Edits ids h h') {depth depth' : Nat}
    (deep : depth ≤ depth') {v : Handle} (ends : Heap.endsWith (h.endsWithin depth) v = true)
    (apart : ∀ path c, h.LeadsTo v path c → h.Made c ∧ c ∉ ids) :
    Heap.endsWith (h'.endsWithin depth') v = true ∧
      Heap.viewWith (h'.viewItems depth') v = Heap.viewWith (h.viewItems depth) v := by
  refine Heap.viewWith_congr (fun c named within => ?_) ends
  obtain ⟨along, leads⟩ := h.leadsTo_of_mem_cells named
  exact edits.viewItems deep within fun path c' inner => apart _ c' (leads.append inner)

/-- What leads to no edited container is seen as before. -/
theorem Edits.view {h' : Heap} {ids : List CellId} (edits : Edits ids h h') {v : Handle}
    (ends : h.ends v = true) (apart : ∀ path c, h.LeadsTo v path c → h.Made c ∧ c ∉ ids) :
    h'.ends v = true ∧ h'.view v = h.view v :=
  edits.viewWith edits.size ends apart

/-- Where the way down from a list ends, it ends one step earlier from its elements. -/
theorem Heap.ends_list {kind : ListKind} {id : CellId} (ends : h.ends (.list kind id) = true) :
    ∃ depth, h.containers.size = depth + 1 ∧
      ∀ v ∈ h.items id, endsWith (h.endsWithin depth) v = true := by
  -- Looking at the list itself takes one step.
  have within : h.endsWithin h.containers.size id = true := ends
  cases size : h.containers.size with
  | zero =>
    rw [size] at within
    cases within
  | succ depth =>
    rw [size, endsWithin, List.all_eq_true] at within
    exact ⟨depth, rfl, within⟩

/-- A list without elements stands for the empty list. -/
theorem Heap.view_empty {id : CellId} (made : h.Made id) (empty : h.items id = [])
    (kind : ListKind) :
    h.ends (.list kind id) = true ∧ h.view (.list kind id) = .list kind [] := by
  -- There is a container, so there is a step to look at it.
  obtain ⟨depth, deep⟩ : ∃ depth, h.containers.size = depth + 1 :=
    ⟨h.containers.size - 1, by have : id.index < h.containers.size := made; omega⟩
  constructor
  · show h.endsWithin h.containers.size id = true
    rw [deep, endsWithin, empty]
    rfl
  · show Value.list kind (h.viewItems h.containers.size id) = _
    rw [deep, viewItems, empty]
    rfl

/-- Where the way down from a list ends, it ends from its elements. -/
theorem Heap.ends_element {kind : ListKind} {id : CellId} (ends : h.ends (.list kind id) = true)
    {v : Handle} (member : v ∈ h.items id) (made : ∀ path c, h.LeadsTo v path c → h.Made c) :
    h.ends v = true := by
  obtain ⟨depth, deep, within⟩ := ends_list ends
  rw [Heap.ends, deep]
  exact ((Edits.refl [] h).viewWith (Nat.le_succ depth) (within v member) fun path c leads =>
    ⟨made path c leads, List.not_mem_nil⟩).1

/-- Elements of a list whose way down has ended are seen as before after the list was edited. -/
theorem Edits.view_list {h' : Heap} {id : CellId} (edits : Edits [id] h h') {kind : ListKind}
    (ends : h.ends (.list kind id) = true)
    (made : ∀ path c, h.LeadsTo (.list kind id) path c → h.Made c)
    (fewer : ∀ v ∈ h'.items id, v ∈ h.items id) (kind' : ListKind) :
    h'.ends (.list kind' id) = true ∧
      h'.view (.list kind' id) = .list kind' ((h'.items id).map h.view) := by
  -- The elements are looked at from one step further down than the list.
  have sizes := edits.size
  obtain ⟨depth, deep, within⟩ := Heap.ends_list ends
  obtain ⟨depth', deep'⟩ : ∃ depth', h'.containers.size = depth' + 1 :=
    ⟨h'.containers.size - 1, by omega⟩
  have part : ∀ v ∈ h'.items id, Heap.endsWith (h'.endsWithin depth') v = true ∧
      Heap.viewWith (h'.viewItems depth') v = h.view v := by
    intro v member
    -- The element is one of those that the list had before.
    have inside := within v (fewer v member)
    obtain ⟨index, found⟩ := List.mem_iff_getElem?.mp (fewer v member)
    have apart : ∀ path c, h.LeadsTo v path c → h.Made c := fun path c leads =>
      made _ c (Heap.leadsTo_list.mpr (.inr ⟨index, v, path, rfl, found, leads⟩))
    obtain ⟨ends', viewed⟩ := edits.viewWith (show depth ≤ depth' by omega) inside
      fun path c leads => ⟨apart path c leads, fun here =>
        Heap.not_leadsTo_self ends (fewer v member) path (List.mem_singleton.mp here ▸ leads)⟩
    refine ⟨ends', viewed.trans (Eq.symm ?_)⟩
    rw [Heap.view, deep]
    exact ((Edits.refl [] h).viewWith (Nat.le_succ depth) inside fun path c leads =>
      ⟨apart path c leads, List.not_mem_nil⟩).2
  -- Both follow from the elements, one step up.
  constructor
  · show h'.endsWithin h'.containers.size id = true
    rw [deep', Heap.endsWithin, List.all_eq_true]
    exact fun v member => (part v member).1
  · show Value.list kind' (h'.viewItems h'.containers.size id) = _
    rw [deep', Heap.viewItems, List.map_congr_left fun v member => (part v member).2]

end QLisp.Shared
