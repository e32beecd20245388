import QLisp.Proofs.Functions
import QLisp.Proofs.Shared.Heap

/-!
What a handle stands for, together with the containers it stands on.

The footprint of a handle lists every container met on the way down, once for each time it is met.
A handle whose footprint has no repetition owns a tree of containers, and its value depends on
those containers alone.
-/

namespace QLisp.Shared

/-- The value of a handle that names no container. -/
def Handle.atom? : Handle → Option Value
  | .number x => some (.number x)
  | .symbol name => some (.symbol name)
  | .string text => some (.string text)
  | .bool b => some (.bool b)
  | .builtin operation => some (.builtin operation)
  | .error failure => some (.error failure)
  | .bare tag => some (.bare tag)
  | _ => Option.none

/-- A condition on what handles stand for. -/
structure HandleRule where
  /-- The condition on every function. -/
  functions : FunctionRule
  /-- Whether a list may be without a container. -/
  bare : Prop

instance : Coe FunctionRule HandleRule := ⟨fun functions => ⟨functions, False⟩⟩

mutual

/-- A handle stands for a value that satisfies a rule, with a footprint. -/
inductive Holds (h : Heap) (rule : HandleRule) : Handle → Value → List CellId → Prop where
  /-- An atom stands on no container. -/
  | atom {v : Handle} {t : Value} (same : v.atom? = some t) : Holds h rule v t []
  /-- A function stands on the containers of its formals and of its body. -/
  | lambda {formals body : Handle} {formals' body' : Value} {scope : Option ScopeId}
      {ids ids' : List CellId} (fits : rule.functions formals' body' scope)
      (formal : Holds h rule formals formals' ids) (bodied : Holds h rule body body' ids') :
      Holds h rule (.lambda formals body scope) (.lambda formals' body' scope) (ids ++ ids')
  /-- A list stands on its own container and on those of its elements. -/
  | list {kind : ListKind} {id : CellId} {items : List Value} {ids : List CellId}
      (inside : HoldsAll h rule (h.items id) items ids) :
      Holds h rule (.list kind id) (.list kind items) (id :: ids)
  /-- A list without a container is empty. -/
  | bareList {kind : ListKind} (allowed : rule.bare) : Holds h rule (.bareList kind) (.list kind []) []

/-- Handles stand for values in order, with the footprints joined. -/
inductive HoldsAll (h : Heap) (rule : HandleRule) :
    List Handle → List Value → List CellId → Prop where
  | nil : HoldsAll h rule [] [] []
  | cons {v : Handle} {t : Value} {vs : List Handle} {ts : List Value} {ids ids' : List CellId}
      (head : Holds h rule v t ids) (tail : HoldsAll h rule vs ts ids') :
      HoldsAll h rule (v :: vs) (t :: ts) (ids ++ ids')

end

variable {h h' : Heap} {rule rule' : HandleRule}

mutual

/-- What a handle stands for depends on the containers of its footprint alone. -/
theorem Holds.transport {v : Handle} {t : Value} {ids : List CellId}
    (holds : Holds h rule v t ids) (same : ∀ id ∈ ids, h'.items id = h.items id)
    (more : ∀ formals body scope, rule.functions formals body scope →
      rule'.functions formals body scope) (bare : rule.bare → rule'.bare := by exact fun held => held) :
    Holds h' rule' v t ids := by
  -- The derivation is rebuilt over the other heap, container by container.
  cases holds with
  | atom atomic => exact .atom atomic
  | lambda fits formal bodied =>
    exact .lambda (more _ _ _ fits)
      (formal.transport (fun id member => same id (by simp [member])) more bare)
      (bodied.transport (fun id member => same id (by simp [member])) more bare)
  | list inside =>
    refine .list ?_
    rw [same _ (by simp)]
    exact inside.transport (fun id member => same id (by simp [member])) more bare
  | bareList allowed => exact .bareList (bare allowed)

/-- What handles stand for depends on the containers of their footprint alone. -/
theorem HoldsAll.transport {vs : List Handle} {ts : List Value} {ids : List CellId}
    (holds : HoldsAll h rule vs ts ids) (same : ∀ id ∈ ids, h'.items id = h.items id)
    (more : ∀ formals body scope, rule.functions formals body scope →
      rule'.functions formals body scope) (bare : rule.bare → rule'.bare := by exact fun held => held) :
    HoldsAll h' rule' vs ts ids := by
  cases holds with
  | nil => exact .nil
  | cons head tail =>
    exact .cons (head.transport (fun id member => same id (by simp [member])) more bare)
      (tail.transport (fun id member => same id (by simp [member])) more bare)

end

/-- A handle and its value are of the same kind. -/
theorem Holds.kind {v : Handle} {t : Value} {ids : List CellId} (holds : Holds h rule v t ids) :
    v.kind = t.kind := by
  cases holds with
  | atom same =>
    cases v <;> simp only [Handle.atom?, Option.some.injEq, reduceCtorEq] at same <;>
      subst same <;> rfl
  | lambda => rfl
  | list => rfl
  | bareList => rfl

/-- A handle is an error exactly when its value is. -/
theorem Holds.isError {v : Handle} {t : Value} {ids : List CellId}
    (holds : Holds h rule v t ids) : v.isError = t.isError := by
  simp [Handle.isError, Value.isError, holds.kind]

mutual

/-- Following as many containers as the footprint has reaches the whole value. -/
theorem Holds.viewWith {v : Handle} {t : Value} {ids : List CellId}
    (holds : Holds h rule v t ids) {depth : Nat} (enough : ids.length ≤ depth) :
    Heap.viewWith (h.viewItems depth) v = t := by
  -- A list spends one step of the depth on its own container.
  cases holds with
  | atom same =>
    cases v <;> simp only [Handle.atom?, Option.some.injEq, reduceCtorEq] at same <;>
      subst same <;> rfl
  | lambda _ formal bodied =>
    simp only [List.length_append] at enough
    -- Both parts are seen with the depth that the whole has.
    have first := formal.viewWith (show _ ≤ depth by omega)
    have second := bodied.viewWith (show _ ≤ depth by omega)
    simp [Heap.viewWith, first, second]
  | list inside =>
    cases depth with
    | zero => simp at enough
    | succ depth =>
      simp only [List.length_cons] at enough
      have elements := inside.viewWith (show _ ≤ depth by omega)
      simp [Heap.viewWith, Heap.viewItems, elements]
  | bareList => rfl

/-- Following as many containers as the footprint has reaches the whole values. -/
theorem HoldsAll.viewWith {vs : List Handle} {ts : List Value} {ids : List CellId}
    (holds : HoldsAll h rule vs ts ids) {depth : Nat} (enough : ids.length ≤ depth) :
    vs.map (Heap.viewWith (h.viewItems depth)) = ts := by
  cases holds with
  | nil => rfl
  | cons head tail =>
    simp only [List.length_append] at enough
    have first := head.viewWith (show _ ≤ depth by omega)
    have others := tail.viewWith (show _ ≤ depth by omega)
    simp [first, others]

end

mutual

/-- Following as many containers as the footprint has gets to the end of every way down. -/
theorem Holds.endsWith {v : Handle} {t : Value} {ids : List CellId}
    (holds : Holds h rule v t ids) {depth : Nat} (enough : ids.length ≤ depth) :
    Heap.endsWith (h.endsWithin depth) v = true := by
  -- The containers below a handle are distinct, so the way down is no longer than they are.
  cases holds with
  | atom same =>
    cases v <;> simp only [Handle.atom?, reduceCtorEq] at same <;> rfl
  | lambda _ formal bodied =>
    simp only [List.length_append] at enough
    have first := formal.endsWith (show _ ≤ depth by omega)
    have second := bodied.endsWith (show _ ≤ depth by omega)
    simp [Heap.endsWith, first, second]
  | list inside =>
    cases depth with
    | zero => simp at enough
    | succ depth =>
      simp only [List.length_cons] at enough
      exact inside.endsWith (show _ ≤ depth by omega)
  | bareList => rfl

/-- Following as many containers as the footprint has gets to the end of all ways down. -/
theorem HoldsAll.endsWith {vs : List Handle} {ts : List Value} {ids : List CellId}
    (holds : HoldsAll h rule vs ts ids) {depth : Nat} (enough : ids.length ≤ depth) :
    vs.all (Heap.endsWith (h.endsWithin depth)) = true := by
  cases holds with
  | nil => rfl
  | cons head tail =>
    simp only [List.length_append] at enough
    have first := head.endsWith (show _ ≤ depth by omega)
    have others := tail.endsWith (show _ ≤ depth by omega)
    simp [first, others]

end

/-- Containers without repetition that have all been made are no more than the heap holds. -/
theorem length_le_of_made {ids : List CellId} (once : ids.Nodup) (made : ∀ id ∈ ids, h.Made id) :
    ids.length ≤ h.containers.size := by
  -- The identities are different numbers below the size of the heap.
  have numbers : (ids.map CellId.index).Nodup := by
    refine List.Pairwise.map _ ?_ once
    intro a b different same
    cases a; cases b; simp_all
  have inside : ids.map CellId.index ⊆ List.range h.containers.size := by
    intro index member
    obtain ⟨id, held, rfl⟩ := List.mem_map.mp member
    exact List.mem_range.mpr (made id held)
  simpa using numbers.length_le_of_subset inside

/-- The view of a handle that owns its containers is its value. -/
theorem Holds.view {v : Handle} {t : Value} {ids : List CellId} (holds : Holds h rule v t ids)
    (once : ids.Nodup) (made : ∀ id ∈ ids, h.Made id) : h.view v = t :=
  holds.viewWith (length_le_of_made once made)

/-- Every way down from a handle that owns its containers ends. -/
theorem Holds.ends {v : Handle} {t : Value} {ids : List CellId} (holds : Holds h rule v t ids)
    (once : ids.Nodup) (made : ∀ id ∈ ids, h.Made id) : h.ends v = true :=
  holds.endsWith (length_le_of_made once made)

mutual

/-- A handle stands for at most one value, with one footprint. -/
theorem Holds.unique {v : Handle} {t t' : Value} {ids ids' : List CellId}
    (left : Holds h rule v t ids) (right : Holds h rule' v t' ids') : t = t' ∧ ids = ids' := by
  -- The handle decides which rule applies, and the container decides the elements.
  cases left with
  | atom same =>
    -- An atom holds nothing, so it is one on both sides.
    cases right with
    | atom same' => simpa [same] using same'
    | _ => simp [Handle.atom?] at same
  | lambda _ formal bodied =>
    cases right with
    | atom same => simp [Handle.atom?] at same
    -- The parts of a function are held in the same way.
    | lambda _ formal' bodied' =>
      obtain ⟨rfl, rfl⟩ := formal.unique formal'
      obtain ⟨rfl, rfl⟩ := bodied.unique bodied'
      exact ⟨rfl, rfl⟩
  | list inside =>
    cases right with
    | atom same => simp [Handle.atom?] at same
    | list inside' =>
      obtain ⟨rfl, rfl⟩ := inside.unique inside'
      exact ⟨rfl, rfl⟩
  | bareList =>
    cases right with
    | atom same => simp [Handle.atom?] at same
    | bareList => exact ⟨rfl, rfl⟩

/-- Handles stand for at most one list of values, with one footprint. -/
theorem HoldsAll.unique {vs : List Handle} {ts ts' : List Value} {ids ids' : List CellId}
    (left : HoldsAll h rule vs ts ids) (right : HoldsAll h rule' vs ts' ids') :
    ts = ts' ∧ ids = ids' := by
  -- Both lists have the same handles, so they are taken apart together.
  cases left with
  | nil => cases right; exact ⟨rfl, rfl⟩
  | cons head tail =>
    cases right with
    | cons head' tail' =>
      obtain ⟨rfl, rfl⟩ := head.unique head'
      obtain ⟨rfl, rfl⟩ := tail.unique tail'
      exact ⟨rfl, rfl⟩

end

mutual

/-- The functions inside a value satisfy the rule. -/
theorem Holds.obeys {v : Handle} {t : Value} {ids : List CellId} (holds : Holds h rule v t ids) :
    t.Obeys rule.functions := by
  cases holds with
  | atom same =>
    cases v <;> simp only [Handle.atom?, Option.some.injEq, reduceCtorEq] at same <;>
      subst same <;> trivial
  | lambda fits formal bodied => exact ⟨fits, formal.obeys, bodied.obeys⟩
  | list inside => exact inside.obey
  | bareList => trivial

/-- The functions inside values satisfy the rule. -/
theorem HoldsAll.obey {vs : List Handle} {ts : List Value} {ids : List CellId}
    (holds : HoldsAll h rule vs ts ids) : Value.ObeyAll rule.functions ts := by
  cases holds with
  | nil => trivial
  | cons head tail => exact ⟨head.obeys, tail.obey⟩

end

/-- As many handles as values. -/
theorem HoldsAll.length_eq {vs : List Handle} {ts : List Value} {ids : List CellId}
    (holds : HoldsAll h rule vs ts ids) : vs.length = ts.length := by
  -- The values are counted off against their handles.
  induction vs generalizing ts ids with
  | nil => cases holds; rfl
  | cons v vs ih =>
    cases holds with
    | cons _ tail => simp [ih tail]

/-- Only a list stands for a list, and one without a container for an empty one. -/
theorem Holds.eq_list {v : Handle} {kind : ListKind} {items : List Value} {ids : List CellId}
    (holds : Holds h rule v (.list kind items) ids) :
    (∃ id inner, v = .list kind id ∧ ids = id :: inner ∧
      HoldsAll h rule (h.items id) items inner) ∨ (rule.bare ∧ v = .bareList kind ∧ items = []) := by
  cases holds with
  | atom same => cases v <;> simp [Handle.atom?] at same
  | list inside => exact .inl ⟨_, _, rfl, rfl, inside⟩
  | bareList allowed => exact .inr ⟨allowed, rfl, rfl⟩

/-- The elements of a list stand for the elements of its value. -/
theorem Holds.elements {v : Handle} {kind : ListKind} {items : List Value} {ids : List CellId}
    (holds : Holds h rule v (.list kind items) ids) :
    ∃ inner, HoldsAll h rule (h.elements v) items inner := by
  rcases holds.eq_list with ⟨id, inner, rfl, _, inside⟩ | ⟨_, rfl, rfl⟩
  · exact ⟨inner, inside⟩
  · exact ⟨[], .nil⟩

/-- Only a list in a container stands for a list with elements. -/
theorem Holds.eq_filled {v : Handle} {kind : ListKind} {items : List Value} {ids : List CellId}
    (holds : Holds h rule v (.list kind items) ids) (filled : items ≠ []) :
    ∃ id inner, v = .list kind id ∧ ids = id :: inner ∧
      HoldsAll h rule (h.items id) items inner := by
  rcases holds.eq_list with there | ⟨_, _, none⟩
  · exact there
  · exact absurd none filled

/-- No handle stands for no value. -/
theorem HoldsAll.eq_nil {vs : List Handle} {ids : List CellId} (holds : HoldsAll h rule vs [] ids) :
    vs = [] ∧ ids = [] := by
  cases holds
  exact ⟨rfl, rfl⟩

/-- The first value is stood for by the first handle, and the others by the others. -/
theorem HoldsAll.eq_cons {vs : List Handle} {t : Value} {ts : List Value} {ids : List CellId}
    (holds : HoldsAll h rule vs (t :: ts) ids) :
    ∃ v us ids₁ ids₂, vs = v :: us ∧ ids = ids₁ ++ ids₂ ∧ Holds h rule v t ids₁ ∧
      HoldsAll h rule us ts ids₂ := by
  cases holds with
  | cons head tail => exact ⟨_, _, _, _, rfl, rfl, head, tail⟩

/-- Handles in a row stand for values in a row. -/
theorem HoldsAll.append {vs us : List Handle} {ts rs : List Value} {ids ids' : List CellId}
    (first : HoldsAll h rule vs ts ids) (second : HoldsAll h rule us rs ids') :
    HoldsAll h rule (vs ++ us) (ts ++ rs) (ids ++ ids') := by
  induction vs generalizing ts ids with
  | nil => cases first; simpa using second
  | cons v vs ih =>
    cases first with
    | cons head tail => simpa [List.append_assoc] using HoldsAll.cons head (ih tail)

/-- The element at an index stands for the value there, on some of the containers. -/
theorem HoldsAll.element {vs : List Handle} {ts : List Value} {ids : List CellId}
    (holds : HoldsAll h rule vs ts ids) {index : Nat} {t : Value} (found : ts[index]? = some t) :
    ∃ v ids', vs[index]? = some v ∧ Holds h rule v t ids' ∧ ids'.Sublist ids := by
  -- The element stands on some of the containers, and the others on the rest.
  induction ts generalizing vs ids index with
  | nil => simp at found
  | cons first rest ih =>
    obtain ⟨v, us, ids₁, ids₂, rfl, rfl, head, tail⟩ := holds.eq_cons
    cases index with
    -- The first value stands on the first containers.
    | zero =>
      cases found
      exact ⟨v, ids₁, rfl, head, List.sublist_append_left ids₁ ids₂⟩
    | succ index =>
      obtain ⟨u, ids', seen, there, fewer⟩ := ih tail found
      exact ⟨u, ids', seen, there, fewer.trans (List.sublist_append_right ids₁ ids₂)⟩

/-- A handle stands for the value in the same place, on some of the containers. -/
theorem HoldsAll.of_mem_zip {vs : List Handle} {ts : List Value} {ids : List CellId}
    (holds : HoldsAll h rule vs ts ids) {v : Handle} {t : Value} (member : (v, t) ∈ vs.zip ts) :
    ∃ ids', Holds h rule v t ids' ∧ ids'.Sublist ids := by
  obtain ⟨index, found⟩ := List.mem_iff_getElem?.mp member
  obtain ⟨seen, valued⟩ := List.getElem?_zip_eq_some.mp found
  obtain ⟨u, ids', seen', there, fewer⟩ := holds.element valued
  obtain rfl : v = u := Option.some.inj (seen.symm.trans seen')
  exact ⟨ids', there, fewer⟩

/-- A single handle stands for a single value. -/
theorem Holds.single {v : Handle} {t : Value} {ids : List CellId} (holds : Holds h rule v t ids) :
    HoldsAll h rule [v] [t] ids := by
  simpa using HoldsAll.cons holds .nil

/-- A handle stands for a value on containers that have been made, each once. -/
def Stands (h : Heap) (rule : HandleRule) (v : Handle) (t : Value) : Prop :=
  ∃ ids, Holds h rule v t ids ∧ ids.Nodup ∧ ∀ id ∈ ids, h.Made id

namespace Stands

variable {v : Handle} {t : Value}

/-- The handle is seen as the value. -/
theorem view (stands : Stands h rule v t) : h.view v = t := by
  obtain ⟨ids, holds, once, made⟩ := stands
  exact holds.view once made

/-- Every way down ends. -/
theorem ends (stands : Stands h rule v t) : h.ends v = true := by
  obtain ⟨ids, holds, once, made⟩ := stands
  exact holds.ends once made

/-- The functions inside the value satisfy the rule. -/
theorem obeys (stands : Stands h rule v t) : t.Obeys rule.functions := by
  obtain ⟨ids, holds, _, _⟩ := stands
  exact holds.obeys

end Stands

/-- Containers that were made between two heaps, each once. -/
def Fresh (h h' : Heap) (ids : List CellId) : Prop :=
  ids.Nodup ∧ ∀ id ∈ ids, ¬ h.Made id ∧ h'.Made id

/-- Containers made in two steps are fresh, and none of them is made twice. -/
theorem Fresh.append {h h' h'' : Heap} {ids ids' : List CellId} (first : Fresh h h' ids)
    (second : Fresh h' h'' ids') (kept : h.Keeps h') (kept' : h'.Keeps h'') :
    Fresh h h'' (ids ++ ids') := by
  have sizes := kept.size
  have sizes' := kept'.size
  refine ⟨List.nodup_append.mpr ⟨first.1, second.1, ?_⟩, ?_⟩
  · -- What the first step made was there before the second.
    rintro id member other member' rfl
    exact (second.2 id member').1 (first.2 id member).2
  -- Each of the two steps made its own, and both came after the start.
  · intro id member
    rcases List.mem_append.mp member with early | late
    · obtain ⟨new, there⟩ := first.2 id early
      exact ⟨new, Nat.lt_of_lt_of_le there sizes'⟩
    · obtain ⟨new, there⟩ := second.2 id late
      exact ⟨fun old => new (Nat.lt_of_lt_of_le old sizes), there⟩

mutual

/-- A value that is placed stands in fresh containers of its own. -/
theorem place_holds (h : Heap) (t : Value) (obeys : t.Obeys rule.functions) :
    ∃ ids, Holds (h.place t).2 rule (h.place t).1 t ids ∧ Fresh h (h.place t).2 ids := by
  -- Parts are placed first; what is made after them leaves them as they are.
  cases t with
  | lambda formals body scope =>
    -- The formals are placed, and then the body.
    obtain ⟨fits, formalObeys, bodyObeys⟩ := obeys
    obtain ⟨ids, formal, fresh⟩ := place_holds h formals formalObeys
    obtain ⟨ids', bodied, fresh'⟩ := place_holds (h.place formals).2 body bodyObeys
    have kept := Heap.keeps_place (h.place formals).2 body
    refine ⟨ids ++ ids', ?_, ?_⟩
    -- What the formals stand on was made before the body, which has not changed it.
    · simp only [Heap.place]
      refine .lambda fits ?_ bodied
      exact formal.transport (fun id member => by
        simp [Heap.items, kept.container id (fresh.2 id member).2]) fun _ _ _ => id
    · simpa only [Heap.place] using fresh.append fresh' (Heap.keeps_place h formals) kept
  | list kind items =>
    -- The elements are placed, and then the list.
    obtain ⟨ids, inside, fresh⟩ := placeAll_holds h items obeys
    have kept := Heap.keeps_alloc (h.placeAll items).2 (h.placeAll items).1
    have before := (Heap.keeps_placeAll h items).size
    refine ⟨⟨(h.placeAll items).2.containers.size⟩ :: ids, ?_, ?_, ?_⟩
    · simp only [Heap.place]
      refine .list ?_
      rw [Heap.items, Heap.alloc_index, Heap.container_alloc_self]
      exact inside.transport (fun id member => by
        simp [Heap.items, kept.container id (fresh.2 id member).2]) fun _ _ _ => id
    · -- The container of the list comes after all of its elements'.
      refine List.nodup_cons.mpr ⟨fun member => ?_, fresh.1⟩
      have := (fresh.2 _ member).2
      simp [Heap.Made] at this
    · intro id member
      rcases List.mem_cons.mp member with rfl | member
      · simpa [Heap.place, Heap.Made] using before
      · obtain ⟨new, there⟩ := fresh.2 id member
        exact ⟨new, Nat.lt_of_lt_of_le there kept.size⟩
  | _ => exact ⟨[], .atom rfl, by simp [Fresh]⟩

/-- Values that are placed stand in fresh containers of their own. -/
theorem placeAll_holds (h : Heap) (ts : List Value)
    (obey : Value.ObeyAll rule.functions ts) :
    ∃ ids, HoldsAll (h.placeAll ts).2 rule (h.placeAll ts).1 ts ids ∧
      Fresh h (h.placeAll ts).2 ids := by
  cases ts with
  | nil => exact ⟨[], .nil, by simp [Fresh]⟩
  | cons t rest =>
    obtain ⟨ids, head, fresh⟩ := place_holds h t obey.1
    obtain ⟨ids', tail, fresh'⟩ := placeAll_holds (h.place t).2 rest obey.2
    have kept := Heap.keeps_placeAll (h.place t).2 rest
    -- What the first value stands on was made before the others, which have not changed it.
    refine ⟨ids ++ ids', ?_, ?_⟩
    · simp only [Heap.placeAll]
      refine .cons ?_ tail
      exact head.transport (fun id member => by
        simp [Heap.items, kept.container id (fresh.2 id member).2]) fun _ _ _ => id
    · simpa only [Heap.placeAll] using fresh.append fresh' (Heap.keeps_place h t) kept

end

/-- Any value that has been placed stands on fresh containers. -/
theorem exists_placed (h : Heap) (t : Value) : ∃ (rule : HandleRule) (ids : List CellId),
    Holds (h.place t).2 rule (h.place t).1 t ids ∧ Fresh h (h.place t).2 ids := by
  have any : t.Obeys (HandleRule.mk (fun _ _ _ => True) False).functions :=
    t.obeys_of_all fun _ _ _ => trivial
  exact ⟨_, place_holds h t any⟩

/-- The view of a value that has been placed is that value. -/
theorem Heap.view_place (h : Heap) (t : Value) : (h.place t).2.view (h.place t).1 = t := by
  obtain ⟨_, ids, holds, once, fresh⟩ := exists_placed h t
  exact holds.view once fun id member => (fresh id member).2

end QLisp.Shared
