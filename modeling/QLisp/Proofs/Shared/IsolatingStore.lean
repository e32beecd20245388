import QLisp.Proofs.Shared.Isolation

/-! Reading and writing bindings copies in both directions, so both are isolating. -/

namespace QLisp.Shared

variable {may : ScopeId → Prop} {kept kept' : CellId → Prop} {m m' : Machine}

/--
Bindings stay isolated when each is an old one or a single new one in containers made since.

This is what every change of the scopes and of the heap comes down to.
-/
theorem Isolated.step (isolated : Isolated kept m) (novel : ScopeId × String)
    (apart : Apart kept' m'.world.scopes.Made m'.heap) (ordered : m'.world.scopes.ParentsFirst)
    (size : m.heap.containers.size ≤ m'.heap.containers.size) (grown : ∀ c, kept c → kept' c)
    (fresh : ∀ c, kept' c → kept c ∨ ¬ m.heap.Made c)
    (frozen : ∀ c, kept c → m'.heap.container c = m.heap.container c)
    {writes : List (ScopeId × String)}
    (written : Scopes.Written writes m.world.scopes m'.world.scopes)
    (writable : ∀ write ∈ writes, Writable may m write.1)
    (bound : ∀ id name v, m'.world.scopes.local? id name = some v →
      m.world.scopes.local? id name = some v ∨ ((id, name) = novel ∧
        ∃ t ids, Holds m'.heap m'.captures v t ids ∧ ids.Nodup ∧
          ∀ c ∈ ids, kept' c ∧ ¬ m.heap.Made c)) :
    Step may kept m kept' m' := by
  -- An old binding stands on kept containers, so it stands for what it did.
  have old : ∀ id name v, m.world.scopes.local? id name = some v →
      ∃ t ids, Holds m.heap m.captures v t ids ∧
        Holds m'.heap m'.captures v t ids ∧ ids.Nodup ∧ ∀ c ∈ ids, kept c := by
    intro id name v found
    -- The binding owns its containers, which are kept, so these are what they were.
    obtain ⟨t, ids, holds, once, held⟩ := isolated.owned id name v found
    exact ⟨t, ids, holds, holds.transport
      (fun c member => by simp [Heap.items, frozen c (held c member)])
      fun _ _ _ captured s member => written.made (captured s member), once, held⟩
  -- The footprint of a binding lies in old kept containers or in new ones.
  have placed : ∀ id name v t ids, m'.world.scopes.local? id name = some v →
      Holds m'.heap m'.captures v t ids →
      (m.world.scopes.local? id name = some v ∧ Holds m.heap m.captures v t ids ∧
        ∀ c ∈ ids, kept c) ∨ ((id, name) = novel ∧ ∀ c ∈ ids, ¬ m.heap.Made c) := by
    intro id name v t ids found holds
    rcases bound id name v found with before | ⟨named, r, js, there, _, inside⟩
    · obtain ⟨r, js, past, now, _, held⟩ := old id name v before
      obtain ⟨rfl, rfl⟩ := now.unique holds
      exact .inl ⟨before, past, held⟩
    · obtain ⟨rfl, rfl⟩ := there.unique holds
      exact .inr ⟨named, fun c member => (inside c member).2⟩
  refine ⟨⟨apart, written.made isolated.global, ordered, ?_, ?_⟩, size, grown, fresh, frozen,
    ⟨writes, written, writable⟩⟩
  -- An old binding still owns what it owned, and the new one owns what has been made for it.
  · intro id name v found
    rcases bound id name v found with before | ⟨_, t, ids, holds, once, inside⟩
    · obtain ⟨t, ids, _, holds, once, held⟩ := old id name v before
      exact ⟨t, ids, holds, once, fun c member => grown c (held c member)⟩
    · exact ⟨t, ids, holds, once, fun c member => (inside c member).1⟩
  -- Of two bindings that share a container both are old, or both are the new one.
  · intro id name v id' name' v' found found' t ids t' ids' holds holds' c inside inside'
    rcases placed id name v t ids found holds with ⟨before, past, held⟩ | ⟨named, new⟩
    · rcases placed id' name' v' t' ids' found' holds' with ⟨before', past', _⟩ | ⟨_, new'⟩
      · exact isolated.separate id name v id' name' v' before before' t ids t' ids' past past' c
          inside inside'
      · exact absurd (isolated.apart.made c (held c inside)) (new' c inside')
    · rcases placed id' name' v' t' ids' found' holds' with ⟨_, _, held'⟩ | ⟨named', _⟩
      · exact absurd (isolated.apart.made c (held' c inside')) (new c inside)
      · simpa using named.trans named'.symm

/-- A step of the heap that changes no kept container is a step of the machine. -/
theorem Isolated.step_of_next (isolated : Isolated kept m)
    (next : Next kept m.world.scopes.Made m.heap m'.heap)
    (scopes : m'.world.scopes = m.world.scopes) : Step may kept m kept m' := by
  refine isolated.step (Scopes.global, "") (by rw [scopes]; exact next.apart)
    (by rw [scopes]; exact isolated.ordered) next.size (fun _ held => held)
    (fun _ held => .inl held) next.frozen (by rw [scopes]; exact .nil _) (by simp) ?_
  intro id name v found
  exact .inl (scopes ▸ found)

/-- A change of neither the scopes nor the heap is a step. -/
theorem Isolated.step_of_same (isolated : Isolated kept m)
    (scopes : m'.world.scopes = m.world.scopes) (heap : m'.heap = m.heap) :
    Step may kept m kept m' :=
  isolated.step_of_next (by rw [heap]; exact isolated.apart.refl) scopes

/-- Making a scope whose parent has been made is a step. -/
theorem Isolated.step_extend (isolated : Isolated kept m) {parent : Option ScopeId}
    (made : ∀ s ∈ parent, m.world.scopes.Made s)
    (scopes : m'.world.scopes = m.world.scopes.extend parent) (heap : m'.heap = m.heap) :
    Step may kept m kept m' := by
  -- No scope is lost by making another one.
  have more : ∀ s, m.world.scopes.Made s → m'.world.scopes.Made s := fun s there => by
    rw [scopes]; exact there.extend parent
  have apart : Apart kept m'.world.scopes.Made m'.heap := by
    rw [heap]
    refine ⟨isolated.apart.made, fun id there loose v member => ?_⟩
    have out := isolated.apart.slots id there loose v member
    exact ⟨out.cells, fun s inner => more s (out.scopes s inner)⟩
  -- The parent of the new scope has been made before it.
  have ordered : m'.world.scopes.ParentsFirst := by
    intro id other link
    rw [scopes, Scopes.parent?_extend] at link
    split at link
    · rename_i new
      rw [new]
      exact made other link
    · exact isolated.ordered id other link
  -- Nothing is written but the new scope itself.
  have written : Scopes.Written [] m.world.scopes m'.world.scopes := by
    rw [scopes]
    exact (Scopes.Written.nil _).extend parent
  refine isolated.step (Scopes.global, "") apart ordered (Nat.le_of_eq (by rw [heap]))
    (fun _ held => held) (fun _ held => .inl held) (fun _ _ => by rw [heap]) written (by simp) ?_
  -- A new scope binds nothing.
  intro id name v found
  exact .inl (by simpa [scopes] using found)

/-- Binding a name to a copy in fresh containers is a step, which keeps these containers too. -/
theorem Isolated.step_bind (isolated : Isolated kept m) {scope : ScopeId} {name : String}
    {t : Value} (writable : Writable may m scope)
    (obeys : t.Obeys m.captures)
    (scopes : m'.world.scopes = m.world.scopes.bind scope name (m.heap.place t).1)
    (heap : m'.heap = (m.heap.place t).2) :
    ∃ kept', Step may kept m kept' m' := by
  -- Everything that the copy made is kept from now on.
  have made : ∀ s, m'.world.scopes.Made s ↔ m.world.scopes.Made s := by
    intro s
    rw [scopes, Scopes.made_bind]
  have sames : m'.world.scopes.Made = m.world.scopes.Made := funext fun s => propext (made s)
  have placed := Heap.keeps_place m.heap t
  rw [← heap] at placed
  refine ⟨fun c => kept c ∨ (¬ m.heap.Made c ∧ m'.heap.Made c), ?_⟩
  have apart : Apart (fun c => kept c ∨ (¬ m.heap.Made c ∧ m'.heap.Made c))
      m'.world.scopes.Made m'.heap := by
    constructor
    · rintro c (held | new)
      · exact Nat.lt_of_lt_of_le (isolated.apart.made c held) placed.size
      · exact new.2
    · intro c there loose v member
      simp only [not_or, not_and] at loose
      -- A container that is not kept is an old one, with its old contents.
      have before : m.heap.Made c := Classical.byContradiction fun new => loose.2 new there
      -- So it holds what it held, which was outside of all that is kept.
      rw [placed.container c before] at member
      have out := isolated.apart.slots c before loose.1 v member
      refine ⟨fun id inner => ?_, fun s inner => (made s).mpr (out.scopes s inner)⟩
      obtain ⟨past, free⟩ := out.cells id inner
      exact ⟨Nat.lt_of_lt_of_le past placed.size, fun held =>
        held.elim free fun new => new.1 past⟩
  have ordered : m'.world.scopes.ParentsFirst := by
    intro id parent link
    rw [scopes, Scopes.parent?_bind] at link
    exact isolated.ordered id parent link
  have written : Scopes.Written [(scope, name)] m.world.scopes m'.world.scopes := by
    rw [scopes]
    exact (Scopes.Written.nil _).bind scope name _
  refine isolated.step (scope, name) apart ordered placed.size (fun _ held => .inl held)
    (fun _ held => held.imp_right And.left)
    (fun c held => placed.container c (isolated.apart.made c held)) written
    (by simpa using writable) ?_
  -- The name is the one that has been bound, or its binding is an old one.
  intro id key v found
  rw [scopes, Scopes.local?_bind] at found
  split at found
  · rename_i here
    obtain ⟨rfl, rfl, _⟩ := here
    -- The new binding stands on what has been placed for it.
    obtain ⟨ids, holds, once, fresh⟩ := place_holds m.heap t
      (show t.Obeys (m.captures : HandleRule).functions from obeys)
    cases found
    rw [← heap] at holds fresh
    refine .inr ⟨rfl, t, ids, ?_, once, fun c member => ?_⟩
    · rw [Machine.captures, sames]
      exact holds
    · exact ⟨.inr (fresh c member), (fresh c member).1⟩
  · exact .inl found

namespace Act

variable {α β : Type}

/-- A harmless list operation is isolating, and changes neither the world nor what is kept. -/
theorem isolating_lift (isolated : Isolated kept m) {op : ListOp α} {good : Heap → α → Prop}
    (safe : ListOp.Harmless kept m.world.scopes.Made op m.heap good) :
    Isolating may kept m (liftM op)
      fun kept' m' a => kept' = kept ∧ m'.world = m.world ∧ good m'.heap a := by
  refine ⟨kept, ?_⟩
  simp only [ListOp.Harmless] at safe
  rw [lift_run]
  -- Whether it ends or faults, the operation leaves a heap that keeps the others apart.
  cases ran : op m.heap with
  | ok a h =>
    simp only [ran] at safe
    exact ⟨isolated.step_of_next safe.1 rfl, rfl, rfl, safe.2⟩
  | error fault h =>
    simp only [ran] at safe
    exact isolated.step_of_next safe rfl

/-- A harmless list operation that gives a handle gives a loose one. -/
theorem isolating_lift_loose (isolated : Isolated kept m) {op : ListOp Handle}
    (safe : ListOp.Harmless kept m.world.scopes.Made op m.heap
      fun h v => Outside kept m.world.scopes.Made h v) :
    Isolating may kept m (liftM op) Loose := by
  refine (isolating_lift isolated safe).imp fun kept' m' v _ ⟨same, world, out⟩ => ?_
  rw [Loose, same, world]
  exact out

/-- A run that leaves the scopes alone is isolating. -/
theorem isolating_inWorld (isolated : Isolated kept m) {run : RunIn Handle α}
    (same : (run m.world).2.scopes = m.world.scopes) :
    Isolating may kept m (inWorld run) fun _ _ _ => True :=
  ⟨kept, isolated.step_of_same same rfl, trivial⟩

/-- Reading values is isolating. -/
theorem isolating_views (isolated : Isolated kept m) (handles : List Handle) :
    Isolating may kept m (views handles) fun _ _ _ => True := by
  refine ⟨kept, ?_⟩
  rw [views_run]
  cases handles.all m.heap.ends
  · exact isolated.refl
  · exact ⟨isolated.refl, trivial⟩

/-- An empty list in a fresh container is loose. -/
theorem isolating_unit (isolated : Isolated kept m) : Isolating may kept m unit Loose :=
  isolating_lift_loose isolated (ListOp.harmless_make isolated.apart (by simp))

/-- Looking a name up gives a copy, which is loose. -/
theorem isolating_lookup (isolated : Isolated kept m) (scope : ScopeId) (name : String) :
    Isolating may kept m (lookup scope name) Loose := by
  cases found : m.world.scopes.lookup? scope name with
  | none => exact .congr (isolating_pure isolated (outside_of_plain rfl rfl)) (lookup_none found)
  | some v =>
    refine .congr ?_ (lookup_some found)
    -- The value found is a binding's own tree, and captures scopes that have been made.
    obtain ⟨id, _, bound⟩ := List.exists_of_findSome?_eq_some found
    obtain ⟨t, ids, holds, once, held⟩ := isolated.owned id name v bound
    have seen := holds.view once fun c member => isolated.apart.made c (held c member)
    refine isolating_lift_loose isolated (ListOp.harmless_copy isolated.apart ?_)
    rw [seen]
    exact holds.obeys

/-- The outermost scope of a chain has been made and has no parent. -/
theorem isolating_root (isolated : Isolated kept m) {scope : ScopeId}
    (made : m.world.scopes.Made scope) :
    Isolating may kept m (root scope) fun _ m' id =>
      m'.world.scopes.Made id ∧ m'.world.scopes.parent? id = none := by
  have outermost := Scopes.root_outermost isolated.ordered made
  refine ⟨kept, ?_⟩
  rw [root_made made]
  exact ⟨isolated.refl, outermost⟩

/-- Binding a name in a writable scope is isolating. -/
theorem isolating_bind (isolated : Isolated kept m) {scope : ScopeId}
    (writable : Writable may m scope) (name : String) {v : Handle} (loose : Loose kept m v) :
    Isolating may kept m (bind scope name v) fun _ _ _ => True := by
  -- A copy is made and bound, or the binding misses and nothing happens.
  by_cases found : m.world.scopes.Made scope ∧ m.heap.ends v
  · have step : ∃ kept', Step may kept m kept' { m with
        world.scopes := m.world.scopes.bind scope name (m.heap.place (m.heap.view v)).1
        heap := (m.heap.place (m.heap.view v)).2 } :=
      isolated.step_bind writable (isolated.apart.obeys_view loose) rfl rfl
    obtain ⟨kept', step⟩ := step
    refine ⟨kept', ?_⟩
    rw [bind_made found.1 name found.2]
    exact ⟨step, trivial⟩
  · obtain ⟨fault, missed⟩ := bind_missed name found
    refine ⟨kept, ?_⟩
    rw [missed]
    exact isolated.refl

/-- Binding a name in a scope writes in that scope only. -/
theorem isolating_bindOwn (isolated : Isolated kept m) {scope : ScopeId} (name : String)
    {v : Handle} (loose : Loose kept m v) :
    Isolating (· = scope) kept m (bind scope name v) fun _ _ _ => True := by
  have writable : Writable (· = scope) m scope := fun _ => .inl rfl
  exact isolating_bind isolated writable name loose

/-- Binding a name in the outermost scope of a chain is isolating. -/
theorem isolating_bindRoot (isolated : Isolated kept m) {scope : ScopeId}
    (made : m.world.scopes.Made scope) (name : String) {v : Handle} (loose : Loose kept m v) :
    Isolating may kept m (bindRoot scope name v) fun _ _ _ => True :=
  (isolating_root isolated made).bind fun _ _ _ step outermost =>
    isolating_bind step.isolated (fun _ => .inr outermost.2) name (loose.step step)

/-- A fresh scope has been made, and had not been made before. -/
theorem isolating_enter (isolated : Isolated kept m) {parent : Option ScopeId}
    (made : ∀ s ∈ parent, m.world.scopes.Made s) :
    Isolating may kept m (enter parent) fun _ m' id =>
      m'.world.scopes.Made id ∧ ¬ m.world.scopes.Made id :=
  ⟨kept, isolated.step_extend made rfl rfl,
    Scopes.made_extend_next _ _, Scopes.not_made_next _⟩

end Act

end QLisp.Shared
