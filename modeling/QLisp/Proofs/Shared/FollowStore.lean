import QLisp.Proofs.Shared.Follow

/-! Reading and writing bindings and the rest of the world follows what is done on values. -/

namespace QLisp.Shared

variable {proper : Prop} {mine store : CellId → Prop} {m : Machine} {w : World Value}
  {ids : List CellId}

/-- A handle on owned containers stands for its value. -/
theorem Free.stands {h : Heap} {rule : HandleRule} {v : Handle} {t : Value}
    (free : Free mine store h ids) (holds : Holds h rule v t ids) : Stands h rule v t :=
  ⟨ids, holds, free.once, free.made⟩

/-- The values of handles on owned containers are read without a change. -/
theorem Free.views {rule : HandleRule} {vs : List Handle} {ts : List Value}
    (free : Free mine store m.heap ids) (holds : HoldsAll m.heap rule vs ts ids) :
    Act.views vs m = .ok ts m := by
  have enough := length_le_of_made free.once free.made
  have values : vs.map m.heap.view = ts := holds.viewWith enough
  have ends : vs.all m.heap.ends = true := holds.endsWith enough
  rw [Act.views_run, if_pos ends, values]

/-- Binding a name to a copy of a value mirrors binding it to the value. -/
theorem Mirrors.bind (mirrors : Mirrors proper mine store m w) {t : Value}
    (obeys : t.Obeys (m.sound proper).functions) (scope : ScopeId) (name : String) :
    let m' := { m with
      world.scopes := m.world.scopes.bind scope name (m.heap.place t).1
      heap := (m.heap.place t).2 }
    ∃ store', Mirrors proper mine store' m' { w with scopes := w.scopes.bind scope name t } ∧
      Moves mine store m store' m' := by
  intro m'
  -- Everything that the copy made goes into the store.
  have placed := Heap.keeps_place m.heap t
  have moves : Moves mine store m (fun c => store c ∨ (¬ m.heap.Made c ∧ m'.heap.Made c)) m' := {
    size := placed.size
    frame := fun c there _ => placed.container c there
    frozen := fun c held => placed.container c (mirrors.stored c held)
    grown := fun _ => .inl
    fresh := fun c held => held.imp_right And.left
    scopes := fun s => Scopes.made_bind.mpr
    depth := rfl
    limit := rfl }
  -- The rest of the machine is what the world has.
  refine ⟨_, { mirrors with
    room := fun c new => mirrors.room c fun there => new (moves.made there)
    stored := ?_
    global := Scopes.made_bind.mpr mirrors.global
    ordered := ?_
    size := ?_
    parent? := ?_
    bound := ?_ }, moves⟩
  · rintro c (held | new)
    · exact moves.made (mirrors.stored c held)
    · exact new.2
  -- The parents are as they were, and so is every binding but the new one.
  · intro id parent link
    rw [Scopes.parent?_bind] at link
    exact mirrors.ordered id parent link
  · simpa [m'] using mirrors.size
  · intro id
    simpa [m'] using mirrors.parent? id
  · intro id key
    -- What is bound elsewhere stands where it stood.
    have old := (mirrors.bound id key).move moves
    simp only [m', Scopes.local?_bind, mirrors.made]
    split
    -- The value that has been placed stands on new containers, which are in the store.
    · obtain ⟨ids, holds, once, fresh⟩ := place_holds m.heap t obeys
      refine ⟨ids, holds.transport (fun _ _ => rfl) fun _ _ _ => moves.sound, once,
        fun c member => .inr (fresh c member)⟩
    · exact old

/-- Making a scope mirrors making one. -/
theorem Mirrors.extend (mirrors : Mirrors proper mine store m w) {parent : Option ScopeId}
    (made : ∀ s ∈ parent, m.world.scopes.Made s) :
    let m' := { m with world.scopes := m.world.scopes.extend parent }
    Mirrors proper mine store m' { w with scopes := w.scopes.extend parent } ∧
      Moves mine store m store m' := by
  -- The new scope binds nothing, and has the same place in both worlds.
  intro m'
  have moves : Moves mine store m store m' :=
    { Moves.refl mine store m with scopes := fun s there => there.extend parent }
  have next : m.world.scopes.next = w.scopes.next := by
    simp [Scopes.next, mirrors.size]
  refine ⟨{ mirrors with
    global := mirrors.global.extend parent
    ordered := ?_
    size := ?_
    parent? := ?_
    bound := ?_ }, moves⟩
  -- The parent of the new scope has been made before it.
  · intro id other link
    rw [Scopes.parent?_extend] at link
    split at link
    · rename_i new
      rw [new]
      exact made other link
    · exact mirrors.ordered id other link
  · simpa [m'] using mirrors.size
  · intro id
    simp only [m', Scopes.parent?_extend, next, mirrors.parent? id]
  · intro id name
    simpa [m'] using (mirrors.bound id name).move moves

namespace Act

/-- Looking a name up copies the value that the world finds. -/
theorem follows_lookup (mirrors : Mirrors proper mine store m w) (scope : ScopeId) (name : String) :
    Follows proper mine store m w (lookup scope name) (Run.lookup scope name)
      (Yields proper mine) := by
  have found := mirrors.lookup? scope name
  show Follows proper mine store m w _
    (pure ((w.scopes.lookup? scope name).getD (.error (.unbound name)))) (Yields proper mine)
  -- The name is bound on both sides or on neither.
  cases seen : m.world.scopes.lookup? scope name with
  | none =>
    cases value : w.scopes.lookup? scope name with
    | none => exact .congr (follows_atom mirrors rfl) (lookup_none seen)
    | some t => simp [seen, value, Stored] at found
  | some v =>
    -- What is found is copied, so that the binding keeps its own.
    refine .congr ?_ (lookup_some seen)
    cases value : w.scopes.lookup? scope name with
    | none => simp [seen, value, Stored] at found
    | some t =>
      -- The binding stands on the store, so its view is the value itself.
      rw [seen, value] at found
      obtain ⟨ids, holds, once, held⟩ := found
      have stands : Stands m.heap (m.sound proper) v t :=
        ⟨ids, holds, once, fun c member => mirrors.stored c (held c member)⟩
      obtain ⟨u, h', ran, edits, yields⟩ := place_ok mirrors holds.obeys
      have copied : ListOp.copy v m.heap = .ok u h' := by
        rw [ListOp.copy_run, if_pos stands.ends, stands.view]
        exact ran
      exact follows_lift copied mirrors edits (by simp) yields

/-- Binding a name to a copy of a handle binds it to the value that the handle stands for. -/
theorem follows_bind (mirrors : Mirrors proper mine store m w) {scope : ScopeId}
    (made : m.world.scopes.Made scope) (name : String) {v : Handle} {t : Value}
    (stands : Stands m.heap (m.sound proper) v t) :
    Follows proper mine store m w (bind scope name v) (Run.bindAll scope [(name, t)])
      fun _ _ _ _ => True := by
  obtain ⟨store', mirrors', moves⟩ := mirrors.bind stands.obeys scope name
  refine .inl ⟨(), _, store', bind_made made name stands.ends, ?_, ?_, trivial⟩
  · rw [stands.view]
    exact mirrors'
  · rw [stands.view]
    exact moves

/-- Making a scope with nothing bound follows making one. -/
theorem follows_enter (mirrors : Mirrors proper mine store m w) {parent : Option ScopeId}
    (made : ∀ s ∈ parent, m.world.scopes.Made s) :
    Follows proper mine store m w (enter parent) (Run.enter parent []) fun _ m' own own' =>
      own = own' ∧ m'.world.scopes.Made own := by
  obtain ⟨mirrors', moves⟩ := mirrors.extend made
  refine .inl ⟨_, _, store, enter_run parent, mirrors', moves, ?_, Scopes.made_extend_next _ _⟩
  exact congrArg ScopeId.mk mirrors.size

/-- Printing prints the same text. -/
theorem follows_write (mirrors : Mirrors proper mine store m w) (bytes : Text.Bytes) :
    Follows proper mine store m w (inWorld (Run.write bytes)) (Run.write bytes) fun _ _ _ _ => True :=
  .inl ⟨(), _, store, rfl, { mirrors with output := congrArg (· ++ bytes) mirrors.output },
    .of_world rfl rfl, trivial⟩

/-- Reading a file gives the same contents. -/
theorem follows_readFile (mirrors : Mirrors proper mine store m w) (path : Text.Bytes) :
    Follows proper mine store m w (inWorld (Run.readFile path)) (Run.readFile path)
      fun _ _ contents contents' => contents = contents' :=
  .inl ⟨_, _, store, rfl, { mirrors with asked := congrArg (path :: ·) mirrors.asked },
    .of_world rfl rfl, congrFun mirrors.files path⟩

end Act

end QLisp.Shared
