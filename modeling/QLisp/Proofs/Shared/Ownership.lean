import QLisp.Proofs.Shared.Mirror
import QLisp.Proofs.Shared.Path

/-!
Handles from which no container is reached twice.

No list is then part of itself, and the containers below such handles form trees: the handles stand
for values, with a footprint that has no repetition.
-/

namespace QLisp.Shared

namespace Heap

/-- No container is reached from a handle along two paths. -/
def Single (h : Heap) (v : Handle) : Prop :=
  ∀ path path' c, h.LeadsTo v path c → h.LeadsTo v path' c → path = path'

/-- No container is reached from some handles twice, along two paths or from two of them. -/
def Once (h : Heap) (vs : List Handle) : Prop :=
  ∀ (index index' : Nat) v v' path path' c, vs[index]? = some v → vs[index']? = some v' →
    h.LeadsTo v path c → h.LeadsTo v' path' c → index = index' ∧ path = path'

variable {h : Heap}

/-- From one of the handles no container is reached twice. -/
theorem Once.single {vs : List Handle} {v : Handle} (once : h.Once vs) (member : v ∈ vs) :
    h.Single v := by
  obtain ⟨index, found⟩ := List.getElem?_of_mem member
  exact fun path path' c leads leads' => (once index index v v path path' c found found leads leads').2

/-- From the handles after the first no container is reached twice. -/
theorem Once.tail {v : Handle} {vs : List Handle} (once : h.Once (v :: vs)) : h.Once vs := by
  intro index index' u u' path path' c found found' leads leads'
  have both := once (index + 1) (index' + 1) u u' path path' c (by simpa using found)
    (by simpa using found') leads leads'
  exact ⟨Nat.succ.inj both.1, both.2⟩

/-- What is reached from the first handle is not reached from another one. -/
theorem Once.apart {v u : Handle} {vs : List Handle} (once : h.Once (v :: vs)) (member : u ∈ vs)
    {path path' : List Turn} {c : CellId} (leads : h.LeadsTo v path c) : ¬ h.LeadsTo u path' c := by
  intro leads'
  obtain ⟨index, found⟩ := List.getElem?_of_mem member
  have both := once 0 (index + 1) v u path path' c rfl (by simpa using found) leads leads'
  exact absurd both.1 (by simp)

/-- From the elements of a list no container is reached twice. -/
theorem Single.items {kind : ListKind} {id : CellId} (single : h.Single (.list kind id)) :
    h.Once (h.items id) := by
  intro index index' u u' path path' c found found' leads leads'
  have same := single (.item index :: path) (.item index' :: path') c
    (leadsTo_list.mpr (.inr ⟨index, u, path, rfl, found, leads⟩))
    (leadsTo_list.mpr (.inr ⟨index', u', path', rfl, found', leads'⟩))
  simpa using same

/-- A list is not part of itself. -/
theorem Single.not_inside {kind : ListKind} {id : CellId} (single : h.Single (.list kind id))
    {v : Handle} (member : v ∈ h.items id) (path : List Turn) : ¬ h.LeadsTo v path id := by
  -- The container would be reached at once, and by way of the element.
  intro leads
  obtain ⟨index, found⟩ := List.getElem?_of_mem member
  have same := single [] (.item index :: path) id (leadsTo_list.mpr (.inl ⟨rfl, rfl⟩))
    (leadsTo_list.mpr (.inr ⟨index, v, path, rfl, found, leads⟩))
  simp at same

/-- From the formals and the body of a function no container is reached twice. -/
theorem Single.parts {formals body : Handle} {scope : Option ScopeId}
    (single : h.Single (.lambda formals body scope)) : h.Single formals ∧ h.Single body ∧
      ∀ path path' c, h.LeadsTo formals path c → ¬ h.LeadsTo body path' c := by
  -- A path through the formals is never one through the body.
  refine ⟨fun path path' c leads leads' => ?_, fun path path' c leads leads' => ?_,
    fun path path' c leads leads' => ?_⟩
  -- Two paths through one part are the same, and so are the paths within.
  · have same := single (.formals :: path) (.formals :: path') c
      (leadsTo_lambda.mpr (.inl ⟨path, rfl, leads⟩)) (leadsTo_lambda.mpr (.inl ⟨path', rfl, leads'⟩))
    simpa using same
  · have same := single (.body :: path) (.body :: path') c
      (leadsTo_lambda.mpr (.inr ⟨path, rfl, leads⟩)) (leadsTo_lambda.mpr (.inr ⟨path', rfl, leads'⟩))
    simpa using same
  · have same := single (.formals :: path) (.body :: path') c
      (leadsTo_lambda.mpr (.inl ⟨path, rfl, leads⟩)) (leadsTo_lambda.mpr (.inr ⟨path', rfl, leads'⟩))
    simp at same

end Heap

variable {h : Heap} {rule : HandleRule} {kept : CellId → Prop} {known : ScopeId → Prop}

/-- A handle stands for a value on containers that it leads to, each met once. -/
def Owns (h : Heap) (rule : HandleRule) (v : Handle) : Prop :=
  ∃ t ids, Holds h rule v t ids ∧ ids.Nodup ∧ ∀ c ∈ ids, ∃ path, h.LeadsTo v path c

/-- Handles that each stand for a value, and share no container, stand for values together. -/
theorem Heap.Once.owns {vs : List Handle} (once : h.Once vs) (each : ∀ v ∈ vs, Owns h rule v) :
    ∃ ts ids, HoldsAll h rule vs ts ids ∧ ids.Nodup ∧
      ∀ c ∈ ids, ∃ v ∈ vs, ∃ path, h.LeadsTo v path c := by
  -- The induction is on the handles; the first shares no container with the others.
  induction vs with
  | nil => exact ⟨[], [], .nil, List.nodup_nil, by simp⟩
  | cons v vs ih =>
    obtain ⟨t, ids, head, nodup, reached⟩ := each v (by simp)
    obtain ⟨ts, ids', tail, nodup', reached'⟩ := ih once.tail fun u member => each u (by simp [member])
    refine ⟨t :: ts, ids ++ ids', .cons head tail, ?_, fun c member => ?_⟩
    -- The first handle reaches no container that another one reaches.
    · refine List.nodup_append.mpr ⟨nodup, nodup', ?_⟩
      rintro c early _ late rfl
      obtain ⟨path, leads⟩ := reached c early
      obtain ⟨u, member, path', leads'⟩ := reached' c late
      exact once.apart member leads leads'
    · rcases List.mem_append.mp member with early | late
      · exact ⟨v, by simp, reached c early⟩
      · obtain ⟨u, member, path, leads⟩ := reached' c late
        exact ⟨u, by simp [member], path, leads⟩

/-- A function stands for one when its parts stand for values and share no container. -/
theorem Owns.lambda {formals body : Handle} {scope : Option ScopeId}
    (fits : ∀ formals body, rule.functions formals body scope)
    (single : h.Single (.lambda formals body scope)) (formal : Owns h rule formals)
    (bodied : Owns h rule body) : Owns h rule (.lambda formals body scope) := by
  -- Both parts have containers of their own, since none is reached through both.
  obtain ⟨t, ids, holds, nodup, reached⟩ := formal
  obtain ⟨t', ids', holds', nodup', reached'⟩ := bodied
  refine ⟨.lambda t t' scope, ids ++ ids', .lambda (fits t t') holds holds', ?_, fun c member => ?_⟩
  · refine List.nodup_append.mpr ⟨nodup, nodup', ?_⟩
    rintro c early _ late rfl
    -- A container of both parts would be reached by two paths.
    obtain ⟨path, leads⟩ := reached c early
    obtain ⟨path', leads'⟩ := reached' c late
    exact single.parts.2.2 path path' c leads leads'
  · rcases List.mem_append.mp member with early | late
    · obtain ⟨path, leads⟩ := reached c early
      exact ⟨.formals :: path, Heap.leadsTo_lambda.mpr (.inl ⟨path, rfl, leads⟩)⟩
    · obtain ⟨path, leads⟩ := reached' c late
      exact ⟨.body :: path, Heap.leadsTo_lambda.mpr (.inr ⟨path, rfl, leads⟩)⟩

/-- A list stands for one when its elements stand for values and it is not part of itself. -/
theorem Owns.list {kind : ListKind} {id : CellId} (single : h.Single (.list kind id))
    (each : ∀ v ∈ h.items id, Owns h rule v) : Owns h rule (.list kind id) := by
  -- The container itself comes first, and is not among those of the elements.
  obtain ⟨ts, ids, inside, nodup, reached⟩ := single.items.owns each
  refine ⟨.list kind ts, id :: ids, .list inside, ?_, fun c member => ?_⟩
  · refine List.nodup_cons.mpr ⟨fun member => ?_, nodup⟩
    obtain ⟨v, member, path, leads⟩ := reached id member
    exact single.not_inside member path leads
  · rcases List.mem_cons.mp member with rfl | member
    · exact ⟨[], Heap.leadsTo_list.mpr (.inl ⟨rfl, rfl⟩)⟩
    · obtain ⟨v, member, path, leads⟩ := reached c member
      obtain ⟨index, found⟩ := List.getElem?_of_mem member
      exact ⟨.item index :: path, Heap.leadsTo_list.mpr (.inr ⟨index, v, path, rfl, found, leads⟩)⟩

/--
A handle from which no container is reached twice stands for a value.

The containers that have been seen on the way down are not met again, so there is an end to it.
-/
theorem Apart.owns (apart : Apart kept known h)
    (fits : ∀ formals body scope, (∀ s ∈ scope, known s) → rule.functions formals body scope)
    (bare : rule.bare) (room : Nat) : ∀ {v : Handle} {seen : List CellId}, seen.Nodup →
      (∀ c ∈ seen, h.Made c) → h.containers.size ≤ seen.length + room → Outside kept known h v →
      (∀ path c, h.LeadsTo v path c → c ∉ seen) → h.Single v → Owns h rule v := by
  -- The induction is on the containers that have not been seen, and then on the handle.
  induction room using Nat.strongRecOn with
  | ind room ih =>
    intro v
    induction v with
    | lambda formals body scope formalOwns bodyOwns =>
      intro seen nodup made enough outside new single
      obtain ⟨formalOutside, bodyOutside, captured⟩ := outside_lambda.mp outside
      obtain ⟨formalSingle, bodySingle, _⟩ := single.parts
      -- Both parts are outside, and what they lead to has not been seen either.
      refine .lambda (fun t t' => fits t t' scope captured) single ?_ ?_
      · exact formalOwns nodup made enough formalOutside (fun path c leads =>
          new (.formals :: path) c (Heap.leadsTo_lambda.mpr (.inl ⟨path, rfl, leads⟩))) formalSingle
      · exact bodyOwns nodup made enough bodyOutside (fun path c leads =>
          new (.body :: path) c (Heap.leadsTo_lambda.mpr (.inr ⟨path, rfl, leads⟩))) bodySingle
    | list kind id =>
      intro seen nodup made enough outside new single
      obtain ⟨there, free⟩ := outside_list.mp outside
      have fresh : id ∉ seen := new [] id (Heap.leadsTo_list.mpr (.inl ⟨rfl, rfl⟩))
      have nodup' : (id :: seen).Nodup := List.nodup_cons.mpr ⟨fresh, nodup⟩
      have made' : ∀ c ∈ id :: seen, h.Made c := by simpa using ⟨there, made⟩
      -- One more container has been seen, so there are fewer left.
      have fewer := length_le_of_made nodup' made'
      rw [List.length_cons] at fewer
      -- The list owns its container, and each element what it leads to.
      refine .list single fun v member => ?_
      refine ih (room - 1) (by omega) nodup' made' (by rw [List.length_cons]; omega)
        (apart.items there free member) (fun path c leads => ?_) (single.items.single member)
      obtain ⟨index, found⟩ := List.getElem?_of_mem member
      have early := new (.item index :: path) c
        (Heap.leadsTo_list.mpr (.inr ⟨index, v, path, rfl, found, leads⟩))
      -- An element leads neither back to its list nor to what was seen before.
      rw [List.mem_cons, not_or]
      exact ⟨fun same => single.not_inside member path (same ▸ leads), early⟩
    | bareList kind => exact fun _ _ _ _ _ _ => ⟨_, [], .bareList bare, List.nodup_nil, by simp⟩
    | _ => exact fun _ _ _ _ _ _ => ⟨_, [], .atom rfl, List.nodup_nil, by simp⟩

/-- Handles from which no container is reached twice stand for values on containers of their own. -/
theorem Apart.ownsAll (apart : Apart kept known h)
    (fits : ∀ formals body scope, (∀ s ∈ scope, known s) → rule.functions formals body scope)
    (bare : rule.bare) {vs : List Handle} (outside : ∀ v ∈ vs, Outside kept known h v)
    (once : h.Once vs) :
    ∃ ts ids, HoldsAll h rule vs ts ids ∧ ids.Nodup ∧ ∀ c ∈ ids, h.Made c ∧ ¬ kept c := by
  have each : ∀ v ∈ vs, Owns h rule v := fun v member =>
    apart.owns fits bare h.containers.size List.nodup_nil (by simp) (by simp) (outside v member)
      (by simp) (once.single member)
  obtain ⟨ts, ids, holds, nodup, reached⟩ := once.owns each
  refine ⟨ts, ids, holds, nodup, fun c member => ?_⟩
  obtain ⟨v, inside, path, leads⟩ := reached c member
  exact apart.leadsTo path (outside v inside) leads

/-- A function has a quoted list for its body, and a list has a container. -/
def Handle.Proper : Handle → Prop
  | .lambda _ body _ => ∃ id, body = .list .qexpr id
  | .bareList _ => False
  | _ => True

/-- Every handle that a path leads to is proper. -/
def Heap.Proper (h : Heap) (v : Handle) : Prop :=
  ∀ path u, h.follow? v path = some u → u.Proper

/-- What stands for a value is proper when every function stands for a quoted body and no list is bare. -/
theorem Holds.proper_follow (quoted : ∀ formals body scope, rule.functions formals body scope →
      ∃ items, body = .qexpr items) (full : ¬ rule.bare) (path : List Turn) :
    ∀ {v u : Handle} {t : Value} {ids : List CellId}, Holds h rule v t ids →
      h.follow? v path = some u → u.Proper := by
  -- By induction on the path, which ends here or goes on in a part.
  induction path with
  | nil =>
    rintro v u t ids holds ⟨⟩
    cases holds with
    | atom atomic => cases v <;> trivial
    | lambda function formal bodied =>
      -- A proper function is quoted, so its body is a list with a container.
      obtain ⟨items, rfl⟩ := quoted _ _ _ function
      rcases bodied.eq_list with ⟨id, _, rfl, _, _⟩ | ⟨allowed, _⟩
      · exact ⟨id, rfl⟩
      · exact absurd allowed full
    | list => trivial
    | bareList allowed => exact absurd allowed full
  | cons turn path ih =>
    intro v u t ids holds leads
    -- The path goes into a part first, and then on from there.
    rw [Heap.follow?, Option.bind_eq_bind, Option.bind_eq_some_iff] at leads
    obtain ⟨part, found, later⟩ := leads
    cases holds with
    | atom atomic => cases v <;> cases atomic <;> cases turn <;> cases found
    | lambda function formal bodied =>
      cases turn with
      | item => cases found
      | formals =>
        cases found
        exact ih formal later
      | body =>
        cases found
        exact ih bodied later
    | list inside =>
      cases turn with
      | formals => cases found
      | body => cases found
      | item index =>
        -- The part is the element of the list that stands for the value in the same place.
        have found : (h.items _)[index]? = some part := found
        obtain ⟨bound, _⟩ := List.getElem?_eq_some_iff.mp found
        obtain ⟨v, ids, seen, holds, _⟩ :=
          inside.element (List.getElem?_eq_getElem (inside.length_eq ▸ bound))
        obtain rfl : part = v := Option.some.inj (found.symm.trans seen)
        exact ih holds later
    | bareList => cases turn <;> cases found

variable {m : Machine} {proper : Prop}

/-- What stands for a value that is sound with all proper is proper. -/
theorem Holds.proper_of_sound {v : Handle} {t : Value} {ids : List CellId}
    (holds : Holds h (m.sound True) v t ids) : h.Proper v := by
  intro path u leads
  have quoted : ∀ formals body scope, (m.sound True).functions formals body scope →
      ∃ items, body = .qexpr items := fun _ _ _ function => function.1 trivial
  exact Holds.proper_follow quoted (fun bare => bare trivial) path holds leads

mutual

/-- A handle stands for a sound value when the handles inside it are proper if they have to be. -/
theorem Holds.sound {v : Handle} {t : Value} {ids : List CellId} (holds : Holds m.heap rule v t ids)
    (captured : ∀ {formals body scope}, rule.functions formals body scope →
      ∀ s ∈ scope, m.world.scopes.Made s)
    (fits : proper → m.heap.Proper v) : Holds m.heap (m.sound proper) v t ids := by
  -- A function that is proper has a quoted list for its body, and that is what it stands for.
  cases holds with
  | atom same => exact .atom same
  | lambda function formal bodied =>
    refine .lambda ⟨fun all => ?_, captured function⟩ (formal.sound captured fun all path u found =>
      fits all (.formals :: path) u found) (bodied.sound captured fun all path u found =>
      fits all (.body :: path) u found)
    -- The body of a function has a container, if all is proper.
    obtain ⟨id, rfl⟩ := fits all [] _ rfl
    cases bodied with
    | atom same => simp [Handle.atom?] at same
    | list => exact ⟨_, rfl⟩
  | list inside =>
    refine .list (inside.sound captured fun all u index found path u' leads => ?_)
    exact fits all (.item index :: path) u' (by simp [Heap.follow?, Heap.part?, found, leads])
  | bareList => exact .bareList fun all => fits all [] _ rfl

/-- Handles stand for sound values when those inside them are proper if they have to be. -/
theorem HoldsAll.sound {vs : List Handle} {ts : List Value} {ids : List CellId}
    (holds : HoldsAll m.heap rule vs ts ids)
    (captured : ∀ {formals body scope}, rule.functions formals body scope →
      ∀ s ∈ scope, m.world.scopes.Made s)
    (fits : proper → ∀ v (index : Nat), vs[index]? = some v → m.heap.Proper v) :
    HoldsAll m.heap (m.sound proper) vs ts ids := by
  cases holds with
  | nil => exact .nil
  | cons head tail =>
    exact .cons (head.sound captured fun all => fits all _ 0 rfl)
      (tail.sound captured fun all v index found => fits all v (index + 1) (by simpa using found))

end

end QLisp.Shared
