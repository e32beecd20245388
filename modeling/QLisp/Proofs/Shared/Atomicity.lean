import Mathlib.Data.List.TakeWhile
import QLisp.Proofs.Shared.Contents
import QLisp.Proofs.Shared.Frame

/-!
Binding operations are atomic.

A definition or an assignment checks all of its arguments before it binds any name. Either it refuses
them and no binding is changed, or it binds each of the names in one scope to a copy of its value, and
no other binding is changed.
-/

namespace QLisp.Shared

/-- The name of a symbol, which a binding operation requires. -/
def symbolName (p : Primitive) : Handle → Except Failure String
  | .symbol name => .ok name
  | v => .error (.wrongType p.name .symbol v.kind)

namespace Heap

/-- The elements of the first argument when it has been taken off the list of arguments. -/
def leading (h : Heap) (arguments first : Handle) : List Handle :=
  -- The first argument may be on the container of the arguments itself.
  if first.container? = arguments.container? then (h.elements arguments).drop 1
  else h.elements first

/-- The names that a binding operation is given, each with its value, or why it refuses them. -/
def bindings (h : Heap) (p : Primitive) (arguments : Handle) :
    Except Failure (List (String × Handle)) :=
  match h.elements arguments with
  | [] => .error (.wrongCount p.name 1 0)
  | first :: values => do
    expectKind p.name (.list .qexpr) first.kind
    let names ← (h.leading arguments first).mapM (symbolName p)
    if names.length = values.length then return names.zip values
    else throw (.bindingCounts p.name names.length values.length)

/-- The names in a list are those of its elements, each of which must be a symbol. -/
theorem symbolNames_glance (h : Heap) (p : Primitive) (v : Handle) :
    p.symbolNames (h.glance v) = (do
      expectKind p.name (.list .qexpr) v.kind
      (h.elements v).mapM (symbolName p)) := by
  -- A symbol is seen at any depth, so looking at the elements of the elements is not needed.
  have same : ∀ items : List Handle,
      p.symbolNames (.qexpr (items.map (viewWith (h.viewItems 0)))) = items.mapM (symbolName p) := by
    intro items
    rw [Value.qexpr, Primitive.symbolNames, List.mapM_map]
    refine congrArg (fun name => items.mapM (m := Except Failure) name) (funext fun v => ?_)
    cases v with
    | bare tag => cases tag <;> rfl
    | _ => rfl
  -- Whether it is a quoted list is seen from the handle itself.
  cases v with
  | list kind id =>
    cases kind with
    | sexpr => rfl
    | qexpr => exact same (h.items id)
  | bareList kind => cases kind <;> rfl
  | bare tag => cases tag <;> rfl
  | _ => rfl

/-- Symbols are what has names, and each has its own. -/
theorem mapM_symbolName {p : Primitive} {items : List Handle} {names : List String} :
    items.mapM (symbolName p) = .ok names ↔ items = names.map .symbol := by
  constructor
  · intro named
    -- By induction on the elements; the first one that is no symbol makes the whole fail.
    induction items generalizing names with
    | nil =>
      cases named
      rfl
    | cons v rest ih =>
      rw [List.mapM_cons] at named
      -- The first one is a symbol, or the whole would have failed.
      cases v with
      | symbol name =>
        cases others : rest.mapM (symbolName p) with
        | error failure =>
          rw [others] at named
          cases named
        | ok more =>
          rw [others] at named
          cases named
          rw [ih others, List.map_cons]
      | _ => cases named
  · rintro rfl
    -- Symbols are read back as the names that they are.
    induction names with
    | nil => rfl
    | cons name rest ih =>
      rw [List.map_cons, List.mapM_cons, ih]
      rfl

/-- Arguments are accepted when the first is a quoted list of as many symbols as there are others. -/
theorem bindings_eq_ok {h : Heap} {p : Primitive} {arguments : Handle}
    {bound : List (String × Handle)} : h.bindings p arguments = .ok bound ↔
      ∃ (first : Handle) (values : List Handle) (names : List String),
        h.elements arguments = first :: values ∧ first.kind = .list .qexpr ∧
        h.leading arguments first = names.map .symbol ∧ names.length = values.length ∧
        bound = names.zip values := by
  constructor
  · intro accepted
    -- The arguments are followed through the checks, and all but the last outcome is a failure.
    rw [bindings] at accepted
    -- Without a first argument there is nothing to bind.
    cases found : h.elements arguments with
    | nil =>
      rw [found] at accepted
      cases accepted
    | cons first values =>
      simp only [found, expectKind] at accepted
      -- The first argument has to be a quoted list.
      by_cases quoted : first.kind = .list .qexpr
      · rw [if_pos quoted] at accepted
        -- Its elements have to be symbols.
        cases named : (h.leading arguments first).mapM (symbolName p) with
        | error failure =>
          rw [named] at accepted
          cases accepted
        | ok names =>
          rw [named] at accepted
          change (if names.length = values.length then .ok (names.zip values) else .error _ :
            Except Failure (List (String × Handle))) = .ok bound at accepted
          -- There have to be as many values as names.
          by_cases same : names.length = values.length
          · rw [if_pos same] at accepted
            cases accepted
            exact ⟨first, values, names, rfl, quoted, mapM_symbolName.mp named, same, rfl⟩
          · rw [if_neg same] at accepted
            cases accepted
      · rw [if_neg quoted] at accepted
        cases accepted
  · rintro ⟨first, values, names, found, quoted, named, same, rfl⟩
    -- Conversely each check is passed, and the names are paired with the values.
    simp only [bindings, found, expectKind, if_pos quoted, mapM_symbolName.mpr named]
    change (if names.length = values.length then .ok (names.zip values) else .error _ :
      Except Failure (List (String × Handle))) = _
    rw [if_pos same]

/-- The values that names are given are the arguments after the first. -/
theorem exists_of_bindings {h : Heap} {p : Primitive} {arguments : Handle}
    {bound : List (String × Handle)} (accepted : h.bindings p arguments = .ok bound) :
    ∃ first, h.elements arguments = first :: bound.map Prod.snd := by
  obtain ⟨first, values, names, found, _, _, same, rfl⟩ := bindings_eq_ok.mp accepted
  exact ⟨first, by rw [found, List.map_snd_zip (Nat.le_of_eq same.symm)]⟩

end Heap

variable {kept kept₁ kept₂ : CellId → Prop} {m m₁ m₂ : Machine}

/-- Only a list has elements. -/
theorem Heap.exists_of_elements {h : Heap} {v first : Handle} {rest : List Handle}
    (found : h.elements v = first :: rest) : ∃ kind id, v = .list kind id := by
  cases v with
  | list kind id => exact ⟨kind, id, rfl⟩
  | _ => cases found

/-- The first argument is on its own elements when it has been taken off the list of arguments. -/
theorem Isolated.elements_leading (isolated : Isolated kept m) {kind : ListKind} {a : CellId}
    (loose : Loose kept m (.list kind a)) {first : Handle} {values : List Handle} {h : Heap}
    (found : m.heap.items a = first :: values) (edits : Edits [a] m.heap h)
    (items : h.items a = values) : h.elements first = m.heap.leading (.list kind a) first := by
  have out : Loose kept m first :=
    isolated.apart.elements loose (show first ∈ m.heap.items a by simp [found])
  cases first with
  | list kind' id =>
    -- The first argument may be in the container from which it was taken, and then it has lost its
    -- first element.
    by_cases same : id = a
    · subst same
      have alike : Handle.container? (.list kind' id) = Handle.container? (.list kind id) := rfl
      rw [Heap.leading, if_pos alike, Heap.elements_list, Heap.elements_list, items, found]
      rfl
    · have other : Handle.container? (.list kind' id) ≠ Handle.container? (.list kind a) :=
        fun alike => same (Option.some.inj alike)
      rw [Heap.leading, if_neg other]
      exact edits.items (outside_list.mp out).1 (by simpa using same)
  | _ => rfl

namespace Act

/-- A binding operation takes off its first argument, and checks all of them before it binds a name. -/
theorem bindNames_run (isolated : Isolated kept m) {arguments : Handle}
    (loose : Loose kept m arguments) (may : ScopeId → Prop) (put : String → Handle → Act Unit)
    (p : Primitive) :
    ∃ h, Step may kept m kept { m with heap := h } ∧
      bindNames put p arguments m = orFail (m.heap.bindings p arguments) (fun bound => do
        bindFrom put arguments 0 (bound.map Prod.fst)
        unit) { m with heap := h } ∧
      ∀ first values, m.heap.elements arguments = first :: values →
        ∃ kind a, arguments = .list kind a ∧ Edits [a] m.heap h ∧ h.items a = values := by
  rw [bindNames, elements_bind, Heap.bindings]
  -- Without a first argument nothing is taken off.
  cases found : m.heap.elements arguments with
  | nil => exact ⟨m.heap, isolated.refl, rfl, fun first values given => by cases given⟩
  | cons first values =>
    -- With a first argument the list is there, and its first element is taken off.
    obtain ⟨kind, a, rfl⟩ := Heap.exists_of_elements found
    obtain ⟨h, ran, edits, rfl⟩ := ListOp.popFront_ok (outside_list.mp loose).1 found kind
    have safe : Isolating may kept m (liftM (ListOp.popFront (.list kind a))) _ :=
      isolating_lift isolated (ListOp.harmless_popFront isolated.apart loose)
    obtain ⟨_, step, rfl, _⟩ := safe.ok (lift_ok ran)
    -- The first argument is looked at when it has been taken off.
    have leading := isolated.elements_leading loose found edits rfl
    refine ⟨h, step, ?_, fun first' values' given => ⟨kind, a, rfl, edits, (List.cons.inj given).2⟩⟩
    change (liftM (ListOp.popFront (.list kind a)) >>= _ : Act Handle) m = _
    rw [bind_ok (lift_ok ran), glance_bind]
    simp only [Heap.symbolNames_glance, leading]
    -- The check of the kind and that of the names are the same on both sides.
    cases expectKind p.name (.list .qexpr) first.kind with
    | error failure => rfl
    | ok _ =>
      simp only [Bind.bind, Except.bind]
      cases (m.heap.leading (.list kind a) first).mapM (symbolName p) with
      | error failure => rfl
      | ok names =>
        change (if names.length = (h.items a).length then _ else _ : Act Handle) _ = orFail
          (if names.length = (h.items a).length then .ok (names.zip (h.items a)) else .error _) _ _
        -- The names and the values are counted before any of them is bound.
        by_cases same : names.length = (h.items a).length
        · simp only [if_pos same, orFail, List.map_fst_zip (Nat.le_of_eq same)]
        · simp only [if_neg same, orFail]
          rfl

end Act

/--
A machine on which names have been bound in a scope that was there.

A repeated name has its last value. Nothing else has been done to any scope.
-/
structure Machine.Rebound (m : Machine) (target : ScopeId) (bound : List (String × Value))
    (m' : Machine) : Prop where
  /-- Nothing but bindings and containers has changed. -/
  rest : m' = ⟨{ m.world with scopes := m'.world.scopes }, m'.heap, m.depth⟩
  /-- No scope has been made. -/
  size : m'.world.scopes.made.size = m.world.scopes.made.size
  /-- Every scope has the parent that it had. -/
  parents (s : ScopeId) : m'.world.scopes.parent? s = m.world.scopes.parent? s
  /-- Every other name, and every name in another scope, is bound as it was. -/
  others (s : ScopeId) (name : String) : ¬ (s = target ∧ name ∈ bound.map Prod.fst) →
    m'.world.scopes.local? s name = m.world.scopes.local? s name
  /-- The scope binds the names to their last values, and every other name to the value it had. -/
  values (s : ScopeId) (name : String) : m'.binding? s name =
    if s = target then (bound.reverse.lookup name).or (m.binding? s name) else m.binding? s name

/-- Binding one more name to a copy adds it to those that are bound. -/
theorem Machine.Rebound.bind {target : ScopeId} {bound : List (String × Value)} {may : ScopeId → Prop}
    (rebound : m.Rebound target bound m₁) (isolated : Isolated kept₁ m₁)
    (made : m₁.world.scopes.Made target) {name : String} {t : Value}
    (step : Step may kept₁ m₁ kept₂ { m₁ with
      world.scopes := m₁.world.scopes.bind target name (m₁.heap.place t).1
      heap := (m₁.heap.place t).2 }) :
    m.Rebound target (bound ++ [(name, t)]) { m₁ with
      world.scopes := m₁.world.scopes.bind target name (m₁.heap.place t).1
      heap := (m₁.heap.place t).2 } := by
  obtain ⟨rest, size, parents, others, values⟩ := rebound
  -- Only the bindings of the machine change: no scope is made, and none gets another parent.
  refine ⟨by rw [rest], by simpa using size, by simpa using parents, fun s key apart => ?_,
    fun s key => ?_⟩
  -- Other names keep their bindings, and the new binding is found before the older ones.
  · rw [List.map_append, List.mem_append, not_and, not_or] at apart
    rw [Scopes.local?_bind, if_neg fun here => (apart here.1).2 (by simp [here.2.1])]
    exact others s key fun here => (apart here.1).1 here.2
  · rw [step.binding?_bind isolated made rfl rfl, values, List.reverse_append,
      List.reverse_singleton, List.singleton_append, List.lookup_cons]
    -- In the scope itself the name is found, and elsewhere nothing is.
    by_cases same : s = target
    · by_cases here : key = name
      · simp [same, here]
      · simp [same, here, beq_false_of_ne here]
    · simp [same]

/-- A machine on which names have been bound to copies, with bindings isolated. -/
structure Rebinding (kept : CellId → Prop) (m : Machine) (target : ScopeId)
    (bound : List (String × Value)) (kept₁ : CellId → Prop) (m₁ : Machine) : Prop where
  /-- The names have been bound. -/
  rebound : m.Rebound target bound m₁
  /-- Every name that has been bound owns containers made since. -/
  own (name : String) (v : Handle) : name ∈ bound.map Prod.fst →
    m₁.world.scopes.local? target name = some v →
      ∃ t ids, Holds m₁.heap m₁.captures v t ids ∧ ∀ c ∈ ids, kept₁ c ∧ ¬ m.heap.Made c
  /-- Names have been written in the scope only. -/
  step : Step (· = target) kept m kept₁ m₁

variable {target : ScopeId} {bound : List (String × Value)}

/-- Before any name is bound nothing has been done. -/
theorem Isolated.rebinding (isolated : Isolated kept m) (target : ScopeId) :
    Rebinding kept m target [] kept m where
  rebound := ⟨rfl, rfl, fun _ => rfl, fun _ _ _ => rfl, fun s name => by simp⟩
  own name v member := by simp at member
  step := isolated.refl

namespace Rebinding

/-- What the names that have been bound own is still theirs after more steps. -/
theorem still (binding : Rebinding kept m target bound kept₁ m₁) {may : ScopeId → Prop}
    (step : Step may kept₁ m₁ kept₂ m₂) {name : String} {v : Handle}
    (member : name ∈ bound.map Prod.fst) (found : m₁.world.scopes.local? target name = some v) :
    ∃ t ids, Holds m₂.heap m₂.captures v t ids ∧ ∀ c ∈ ids, kept₂ c ∧ ¬ m.heap.Made c := by
  obtain ⟨t, ids, holds, held⟩ := binding.own name v member found
  exact ⟨t, ids, Owned.step holds (fun c inside => (held c inside).1) step, fun c inside =>
    ⟨step.grown c (held c inside).1, (held c inside).2⟩⟩

/-- Work on lists leaves the names bound. -/
theorem edit (binding : Rebinding kept m target bound kept₁ m₁) {h : Heap}
    (step : Step (· = target) kept₁ m₁ kept₂ { m₁ with heap := h }) :
    Rebinding kept m target bound kept₂ { m₁ with heap := h } where
  rebound := by
    obtain ⟨rest, size, parents, others, values⟩ := binding.rebound
    refine ⟨by rw [rest], size, parents, others, fun s name => ?_⟩
    rw [← values s name]
    exact step.binding? binding.step.isolated rfl
  own _ _ member found := binding.still step member found
  step := binding.step.trans step fun _ same _ => .inl same

/-- Binding one more name adds it to those that are bound. -/
theorem bind (binding : Rebinding kept m target bound kept₁ m₁) (made : m.world.scopes.Made target)
    (name : String) {v : Handle} (loose : Loose kept₁ m₁ v) (ends : m₁.heap.ends v) :
    ∃ kept₂ m₂, Act.bind target name v m₁ = .ok () m₂ ∧
      Rebinding kept m target (bound ++ [(name, m₁.heap.view v)]) kept₂ m₂ ∧
      Step (· = target) kept₁ m₁ kept₂ m₂ ∧ Edits [] m₁.heap m₂.heap := by
  -- The scope has been made, so the binding goes through.
  have there : m₁.world.scopes.Made target := binding.step.made made
  have ran := Act.bind_made there name ends
  obtain ⟨kept₂, step, _⟩ := (Act.isolating_bindOwn binding.step.isolated name loose).ok ran
  have all := binding.step.trans step fun _ same _ => .inl same
  refine ⟨kept₂, _, ran, ⟨binding.rebound.bind binding.step.isolated there step, ?_, all⟩, step,
    .of_keeps (Heap.keeps_place _ _)⟩
  intro key w member found
  by_cases same : key = name
  · -- The binding owns what has been placed for it.
    obtain ⟨t, ids, holds, _, held⟩ := step.isolated.owned target key w found
    rw [Scopes.local?_bind, if_pos ⟨rfl, same, there⟩] at found
    cases found
    obtain ⟨_, ids', placed, _, fresh⟩ := exists_placed m₁.heap (m₁.heap.view v)
    obtain ⟨rfl, rfl⟩ := holds.unique placed
    exact ⟨_, ids, holds, fun c inside => ⟨held c inside, fun early =>
      (fresh c inside).1 (Nat.lt_of_lt_of_le early binding.step.size)⟩⟩
  -- Other names show what they did, as nothing of theirs has changed.
  · rw [Scopes.local?_bind, if_neg fun here => same here.2.1] at found
    have before : key ∈ bound.map Prod.fst := by simpa [same] using member
    exact binding.still step before found

/-- The names that are left are bound to the arguments that are left. -/
theorem bindFrom (made : m.world.scopes.Made target) {put : String → Handle → Act Unit}
    (puts : ∀ kept' m' name v, Step (· = target) kept m kept' m' →
      put name v m' = Act.bind target name v m') {kind : ListKind} {a : CellId}
    (rest : List (String × Handle)) : ∀ {bound : List (String × Value)} {kept₁ : CellId → Prop}
      {m₁ : Machine} (index : Nat), Rebinding kept m target bound kept₁ m₁ →
      Loose kept₁ m₁ (.list kind a) → (m₁.heap.items a).drop index = rest.map Prod.snd →
      (∀ b ∈ rest, m₁.heap.ends b.2) →
      ∃ kept₂ m₂, Act.bindFrom put (.list kind a) index (rest.map Prod.fst) m₁ = .ok () m₂ ∧
        Rebinding kept m target (bound ++ rest.map fun b => (b.1, m₁.heap.view b.2)) kept₂ m₂ := by
  -- What is placed for one name leaves the list of arguments, and each of them, as it was.
  induction rest with
  | nil => exact fun index binding _ _ _ => ⟨_, _, rfl, by simpa using binding⟩
  | cons b rest ih =>
    obtain ⟨name, v⟩ := b
    intro bound kept₁ m₁ index binding loose left ends
    have apart := binding.step.isolated.apart
    -- The next name belongs to the argument at the index.
    have found : (m₁.heap.items a)[index]? = some v := by
      have first := congrArg (·[0]?) left
      simpa using first
    have out : ∀ u ∈ m₁.heap.items a, Loose kept₁ m₁ u := fun u member =>
      apart.elements loose member
    -- The argument is copied into the binding, which leaves the list alone.
    obtain ⟨kept₂, m₂, ran, binding', step, edits⟩ := binding.bind made name
      (out v (List.mem_of_getElem? found)) (ends _ List.mem_cons_self)
    have items : m₂.heap.items a = m₁.heap.items a :=
      edits.items (outside_list.mp loose).1 List.not_mem_nil
    -- The arguments that are left lead nowhere into the list of arguments, so they are seen as
    -- before.
    have seen : ∀ b ∈ rest, m₂.heap.ends b.2 ∧ m₂.heap.view b.2 = m₁.heap.view b.2 := by
      intro b member
      have inside : b.2 ∈ m₁.heap.items a := by
        refine List.mem_of_mem_drop (i := index) ?_
        rw [left]
        exact List.mem_cons_of_mem _ (List.mem_map_of_mem member)
      exact edits.view (ends b (List.mem_cons_of_mem _ member)) fun path c leads =>
        ⟨(apart.leadsTo path (out _ inside) leads).1, List.not_mem_nil⟩
    -- The induction goes on with the next index and what has been bound.
    obtain ⟨kept₃, m₃, ran', binding''⟩ := ih (index + 1) binding' (loose.step step)
      (by rw [items, ← List.drop_drop, left]; rfl) fun b member => (seen b member).1
    refine ⟨kept₃, m₃, ?_, ?_⟩
    -- The argument is fetched by its index and bound, and then the others are.
    · change ((liftM (ListOp.element (.list kind a) index) : Act Handle) >>= fun v =>
        put name v >>= fun _ => Act.bindFrom put (.list kind a) (index + 1) (rest.map Prod.fst)) m₁ = _
      rw [Act.bind_ok (Act.lift_ok (ListOp.element_ok found)),
        Act.bind_ok ((puts _ _ name v binding.step).trans ran)]
      exact ran'
    -- The values that are bound are those seen before the first binding.
    · rw [List.append_assoc, List.singleton_append,
        ← List.map_congr_left fun b member => by rw [(seen b member).2]] at binding''
      exact binding''

end Rebinding

/-- The scope in which an operation binds names when it is called from a scope. -/
def Machine.bindingScope? (m : Machine) (scope : ScopeId) : Primitive → Option ScopeId
  | .define => some (m.world.scopes.root scope)
  | .assign => some scope
  | _ => none

namespace Act

/-- A binding operation binds each name in its scope. -/
theorem applyPrimitive_binding (isolated : Isolated kept m) {scope : ScopeId}
    (made : m.world.scopes.Made scope) {p : Primitive}
    (binds : m.bindingScope? scope p = some target) :
    m.world.scopes.Made target ∧ ∃ put,
      (∀ ev arguments, applyPrimitive ev scope p arguments = bindNames put p arguments) ∧
      ∀ kept' m' name v, Step (· = target) kept m kept' m' →
        put name v m' = bind target name v m' := by
  -- The two operations differ in the scope that they write.
  cases p with
  | define =>
    obtain rfl := Option.some.inj binds
    refine ⟨(Scopes.root_outermost isolated.ordered made).1, bindRoot scope, fun _ _ => rfl,
      fun kept' m' name v step => ?_⟩
    -- Bindings leave the chain of the scope as it was.
    obtain ⟨writes, written, _⟩ := step.written
    have chain : m'.world.scopes.chain scope = m.world.scopes.chain scope :=
      written.chainUpTo isolated.ordered _ scope made
    rw [bindRoot, bind_ok (root_made (step.made made)), Scopes.root, chain, Scopes.root]
  | assign =>
    -- An assignment writes the scope in which it is made.
    obtain rfl := Option.some.inj binds
    exact ⟨made, bind scope, fun _ _ => rfl, fun _ _ _ _ _ => rfl⟩
  | _ => cases binds

/-- A binding operation that accepts its arguments binds every name and gives an empty list. -/
theorem bindNames_ok (isolated : Isolated kept m) {arguments : Handle}
    (loose : Loose kept m arguments) (made : m.world.scopes.Made target)
    {put : String → Handle → Act Unit} (puts : ∀ kept' m' name v,
      Step (· = target) kept m kept' m' → put name v m' = bind target name v m')
    {p : Primitive} {bound : List (String × Handle)}
    (accepted : m.heap.bindings p arguments = .ok bound) (ends : ∀ b ∈ bound, m.heap.ends b.2) :
    ∃ done kept' m', bindNames put p arguments m = .ok done m' ∧
      m'.heap.view done = .sexpr [] ∧
      Rebinding kept m target (bound.map fun b => (b.1, m.heap.view b.2)) kept' m' := by
  -- The run goes on with what the arguments are accepted as, on a heap in which the first has been
  -- taken off.
  obtain ⟨h, step, run, parts⟩ := bindNames_run isolated loose (· = target) put p
  obtain ⟨first, found⟩ := Heap.exists_of_bindings accepted
  obtain ⟨kind, a, rfl, edits, items⟩ := parts first _ found
  have inside : ∀ b ∈ bound, b.2 ∈ m.heap.items a := by
    intro b member
    rw [show m.heap.items a = first :: bound.map Prod.snd from found]
    exact List.mem_cons_of_mem _ (List.mem_map_of_mem member)
  -- No argument leads to the list of arguments, from which the first one has been taken off.
  have seen : ∀ b ∈ bound, h.ends b.2 ∧ h.view b.2 = m.heap.view b.2 := by
    intro b member
    refine edits.view (ends b member) fun path c leads => ⟨?_, fun here => ?_⟩
    · exact (isolated.apart.leadsTo path
        (isolated.apart.elements loose (show _ ∈ m.heap.items a from inside b member)) leads).1
    · rw [List.mem_singleton.mp here] at leads
      exact Heap.not_leadsTo_list (ends b member) (inside b member) path leads
  -- The names are bound one by one, each to what is seen of its argument.
  obtain ⟨kept₁, m₁, ran, binding⟩ := ((isolated.rebinding target).edit step).bindFrom made puts
    bound 0 (loose.step step) items fun b member => (seen b member).1
  -- The empty list is made at the end, when everything is bound.
  obtain ⟨h', ran', _, made', empty⟩ := ListOp.make_ok m₁.heap .sexpr []
  have unit : Act.unit m₁ = .ok _ { m₁ with heap := h' } := lift_ok ran'
  obtain ⟨kept₂, step', _⟩ := (isolating_unit binding.step.isolated).ok unit
  refine ⟨_, kept₂, { m₁ with heap := h' }, ?_, (Heap.view_empty made' empty .sexpr).2, ?_⟩
  · rw [run, accepted]
    exact (bind_ok ran _).trans unit
  -- What is bound are the values as they were before the first argument was taken off.
  · have values : (bound.map fun b => (b.1, h.view b.2)) =
        bound.map fun b => (b.1, m.heap.view b.2) :=
      List.map_congr_left fun b member => by rw [(seen b member).2]
    rw [List.nil_append, values] at binding
    exact binding.edit step'

end Act

namespace Machine

/-- A scope that is nearer than another one binds a name. -/
def Shadowed (m : Machine) (s target : ScopeId) (name : String) : Prop :=
  ∃ b ∈ (m.world.scopes.chain s).takeWhile (· ≠ target), (m.binding? b name).isSome

instance (m : Machine) (s target : ScopeId) (name : String) : Decidable (m.Shadowed s target name) :=
  inferInstanceAs (Decidable (∃ b ∈ _, _))

end Machine

namespace Rebinding

/-- In nearer scopes a name is found as before. -/
theorem nearer (binding : Rebinding kept m target bound kept₁ m₁) (s : ScopeId) (name : String) :
    ((m₁.world.scopes.chain s).takeWhile (· ≠ target)).findSome? (m₁.binding? · name) =
      ((m.world.scopes.chain s).takeWhile (· ≠ target)).findSome? (m.binding? · name) := by
  rw [Scopes.chain_congr binding.rebound.parents s]
  -- By induction on the chain, as far as the scope that is bound in.
  induction m.world.scopes.chain s with
  | nil => rfl
  | cons b rest ih =>
    by_cases same : b = target
    · simp [same]
    · have both : (b :: rest).takeWhile (· ≠ target) = b :: rest.takeWhile (· ≠ target) := by
        simp [same]
      rw [both, List.findSome?_cons, List.findSome?_cons, binding.rebound.values, if_neg same, ih]

/-- A name that a nearer scope binds is seen as before. -/
theorem gives_shadowed (binding : Rebinding kept m target bound kept₁ m₁)
    (isolated : Isolated kept m) {s : ScopeId} {name : String} (shadowed : m.Shadowed s target name)
    (t : Value) : m₁.Gives s name t ↔ m.Gives s name t := by
  -- The value is found before the scope is reached.
  have first : ∀ {f : ScopeId → Option Value} {links : List ScopeId} {v : Value},
      (links.takeWhile (· ≠ target)).findSome? f = some v → links.findSome? f = some v := by
    intro f links v found
    rw [← List.takeWhile_append_dropWhile (p := (· ≠ target)) (l := links), List.findSome?_append,
      found]
    rfl
  obtain ⟨v, found⟩ := Option.isSome_iff_exists.mp (List.findSome?_isSome_iff.mpr shadowed)
  rw [binding.step.isolated.gives_iff_binding?, isolated.gives_iff_binding?, first found,
    first ((binding.nearer s name).trans found)]

/-- A name that no nearer scope binds is seen with its last value. -/
theorem gives_bound (binding : Rebinding kept m target bound kept₁ m₁) {s : ScopeId}
    (below : target ∈ m.world.scopes.chain s) {name : String}
    (unshadowed : ¬ m.Shadowed s target name) {t : Value}
    (last : bound.reverse.lookup name = some t) : m₁.Gives s name t := by
  -- In nearer scopes the name is not bound, or it would shadow.
  have unseen : ((m₁.world.scopes.chain s).takeWhile (· ≠ target)).findSome? (m₁.binding? · name) =
      none := by
    rw [binding.nearer, ← Option.not_isSome_iff_eq_none, List.findSome?_isSome_iff]
    exact unshadowed
  -- The chain is the one from before, since bindings change no parent.
  rw [← Scopes.chain_congr binding.rebound.parents s] at below
  rw [binding.step.isolated.gives_iff_binding?,
    ← List.takeWhile_append_dropWhile (p := (· ≠ target)) (l := m₁.world.scopes.chain s),
    List.findSome?_append, unseen, Option.none_or]
  -- The first scope that is not nearer is the one itself.
  have reached := List.head?_dropWhile_not (· ≠ target) (m₁.world.scopes.chain s)
  cases farther : (m₁.world.scopes.chain s).dropWhile (· ≠ target) with
  | nil =>
    have missed := List.dropWhile_eq_nil_iff.mp farther target below
    simp at missed
  | cons b rest =>
    rw [farther] at reached
    obtain rfl : b = target := by simpa using reached
    rw [List.findSome?_cons, binding.rebound.values, if_pos rfl, last]
    rfl

end Rebinding

/-- A machine on which a binding operation has bound names in a scope that was there. -/
structure Machine.BoundIn (m : Machine) (target : ScopeId) (bound : List (String × Value))
    (m' : Machine) : Prop extends m.Rebound target bound m' where
  /-- The names are bound to copies: they lead to no container that was there. -/
  copies (name : String) (v : Handle) : name ∈ bound.map Prod.fst →
    m'.world.scopes.local? target name = some v →
      ∀ path c, m'.heap.LeadsTo v path c → ¬ m.heap.Made c
  /-- A nearer binding of a name is still the one that is seen. -/
  shadowed (s : ScopeId) (name : String) (t : Value) : m.Shadowed s target name →
    (m'.Gives s name t ↔ m.Gives s name t)
  /-- Below the scope the last value of a name is seen wherever no nearer scope binds the name. -/
  seen (s : ScopeId) (name : String) (t : Value) : target ∈ m.world.scopes.chain s →
    ¬ m.Shadowed s target name → bound.reverse.lookup name = some t → m'.Gives s name t

/-- Names that have been bound to copies with bindings isolated are bound in the scope. -/
theorem Rebinding.boundIn (binding : Rebinding kept m target bound kept₁ m₁)
    (isolated : Isolated kept m) : m.BoundIn target bound m₁ where
  toRebound := binding.rebound
  copies name v member found path c leads := by
    obtain ⟨t, ids, holds, held⟩ := binding.own name v member found
    exact (held c (holds.mem_of_leadsTo leads)).2
  shadowed _ _ t shadowed := binding.gives_shadowed isolated shadowed t
  seen _ _ _ below unshadowed last := binding.gives_bound below unshadowed last

/--
Definitions and assignments are atomic, from any scope and with any arguments.

When the arguments are refused the failure is given, and no binding has changed. Otherwise the empty
list is given, each name is bound to a copy of its last value, in the outermost scope of the chain for
a definition and in the scope itself for an assignment, and no other binding has changed.
-/
theorem Host.Reachable.binding_atomic {host : Host} (reachable : host.Reachable)
    {scope target : ScopeId} (made : host.machine.world.scopes.Made scope) {p : Primitive}
    (binds : host.machine.bindingScope? scope p = some target) (arguments : String) :
    let m := host.machine
    let run := Act.apply scope (.builtin (.primitive p)) (host.register arguments) m
    (∀ failure, m.heap.bindings p (host.register arguments) = .error failure →
      ∃ m', run = .ok (.error failure) m' ∧ m'.world = m.world ∧
        ∀ s name, m'.binding? s name = m.binding? s name) ∧
    ∀ bound, m.heap.bindings p (host.register arguments) = .ok bound →
      (∀ b ∈ bound, m.heap.ends b.2) →
      ∃ done m', run = .ok done m' ∧ m'.heap.view done = .sexpr [] ∧
        m.BoundIn target (bound.map fun b => (b.1, m.heap.view b.2)) m' := by
  intro m run
  obtain ⟨kept, secure⟩ := reachable.secure
  have loose := secure.registers arguments
  obtain ⟨there, put, same, puts⟩ := Act.applyPrimitive_binding secure.isolated made binds
  have ran : run = Act.bindNames put p (host.register arguments) m :=
    (Act.apply_run ..).trans (congrFun (same _ _) m)
  -- The operation acts on the arguments whatever they are, so refused and accepted ones part only
  -- here.
  refine ⟨fun failure refused => ?_, fun bound accepted ends => ?_⟩
  · obtain ⟨h, step, outcome, _⟩ := Act.bindNames_run secure.isolated loose (· = target) put p
    rw [refused] at outcome
    exact ⟨_, ran.trans outcome, rfl, fun s name => step.binding? secure.isolated rfl⟩
  · obtain ⟨done, kept', m', outcome, empty, binding⟩ :=
      Act.bindNames_ok secure.isolated loose there puts accepted ends
    exact ⟨done, m', ran.trans outcome, empty, binding.boundIn secure.isolated⟩

/-- A definition from an inner scope binds a repeated name to its last value in the global scope. -/
theorem Host.Reachable.binding_atomic_repeated :
    let host := (start (.initial fun _ => .error .missing)).run
      [.ask (.extend "inner" "global"), .make "a" (.symbol "a"), .make "b" (.symbol "b"),
        .make "x" (.string (Text.encode "first")), .make "y" (.string (Text.encode "last")),
        .make "names" (.list .qexpr ["a", "b", "a"]),
        .make "arguments" (.list .sexpr ["names", "x", "x", "y"])]
    ∃ done m', Act.apply ⟨1⟩ (.builtin (.primitive .define)) (host.register "arguments")
        host.machine = .ok done m' ∧
      m'.binding? Scopes.global "a" = some (.string (Text.encode "last")) ∧
      m'.Gives ⟨1⟩ "b" (.string (Text.encode "first")) := by
  intro host
  -- The host has a scope below the global one.
  have reachable : host.Reachable := .run (.bare fun _ => .error .missing) _
  have made : host.machine.world.scopes.Made ⟨1⟩ := by decide
  have binds : host.machine.bindingScope? ⟨1⟩ .define = some Scopes.global := by decide
  obtain ⟨_, accept⟩ := binding_atomic reachable made binds "arguments"
  obtain ⟨done, m', ran, _, bound⟩ := accept
    [("a", .string (Text.encode "first")), ("b", .string (Text.encode "first")),
      ("a", .string (Text.encode "last"))] rfl (by decide)
  -- Of the values for the repeated name the last one counts.
  refine ⟨done, m', ran, ?_, ?_⟩
  · rw [bound.values]
    rfl
  · exact bound.seen ⟨1⟩ "b" _ (by decide) (by decide) rfl

end QLisp.Shared
