import QLisp.Proofs.Form.Reading
import QLisp.Proofs.Shared.Agreement
import QLisp.Proofs.Shared.Depth
import QLisp.Proofs.Shared.Ownership

/-!
Every evaluation ends.

A machine whose bindings are isolated mirrors the world of the values that it shows, and handles
from which no container is reached twice own what they stand on. So evaluating them follows an
evaluation of values, which does not go on for ever.
-/

namespace QLisp

namespace Scopes

variable {α β : Type}

/-- The same scopes with something else in place of each value that is bound. -/
def map (f : α → β) (scopes : Scopes α) : Scopes β :=
  ⟨scopes.made.map fun scope => ⟨scope.parent, scope.bindings.map fun _ => f⟩⟩

/-- The parents are the same. -/
theorem parent?_map (f : α → β) (scopes : Scopes α) (id : ScopeId) :
    (scopes.map f).parent? id = scopes.parent? id := by
  simp only [parent?, get?, map, Array.getElem?_map]
  cases scopes.made[id.index]? <;> rfl

/-- What is bound is changed. -/
theorem local?_map (f : α → β) (scopes : Scopes α) (id : ScopeId) (name : String) :
    (scopes.map f).local? id name = (scopes.local? id name).map f := by
  simp only [local?, get?, map, Array.getElem?_map]
  cases scopes.made[id.index]? <;> simp [Std.TreeMap.getElem?_map]

end Scopes

/-- How no arguments fit formals. -/
theorem matchFormals_nil (formals : List Value) :
    (∃ rest : Option String, ∀ α : Type, matchFormals formals ([] : List α) =
      .full [] (rest.map fun name => (name, []))) ∨
    (∃ waiting, waiting ⊆ formals ∧ ∀ α : Type,
      matchFormals formals ([] : List α) = .short [] waiting) ∨
    ∀ α : Type, matchFormals formals ([] : List α) = .malformed [] := by
  -- The first formal decides: there is none, it marks a variadic name, or it has to wait.
  rcases formals with _ | ⟨formal, formals⟩
  · exact .inl ⟨none, fun _ => rfl⟩
  · by_cases marker : formal.symbolName = variadicMarker
    · rcases formals with _ | ⟨name, _ | ⟨other, formals⟩⟩
      · exact .inr (.inr fun α => by simp [matchFormals, marker])
      · exact .inl ⟨some name.symbolName, fun α => by simp [matchFormals, marker]⟩
      · exact .inr (.inr fun α => by simp [matchFormals, marker])
    · exact .inr (.inl ⟨_, List.Subset.refl _, fun α => by simp [matchFormals, marker]⟩)

namespace Shared

variable {proper : Prop} {kept mine store : CellId → Prop} {m : Machine} {w : World Value}
  {limit depth : Nat} {scope : ScopeId} {ids : List CellId}

/-- The world of the values that a machine shows. -/
def Machine.shown (m : Machine) : World Value :=
  { m.world with scopes := m.world.scopes.map m.heap.view }

/-- A machine with isolated bindings mirrors the world that it shows. -/
theorem Isolated.mirrors (isolated : Isolated kept m)
    (fits : proper → ∀ id name v, m.world.scopes.local? id name = some v → m.heap.Proper v) :
    Mirrors proper (fun _ => True) kept m m.shown where
  room _ _ := trivial
  stored := isolated.apart.made
  global := isolated.global
  ordered := isolated.ordered
  size := (Array.size_map ..).symm
  parent? id := (m.world.scopes.parent?_map m.heap.view id).symm
  bound id name := by
    -- A binding owns its containers, so it shows the value that they stand for.
    rw [Machine.shown, Scopes.local?_map]
    cases found : m.world.scopes.local? id name with
    | none => trivial
    | some v =>
      obtain ⟨t, ids, holds, once, held⟩ := isolated.owned id name v found
      have view := holds.view once fun c member => isolated.apart.made c (held c member)
      rw [Option.map_some, view]
      exact ⟨ids, holds.sound (fun captured => captured) fun all => fits all id name v found,
        once, held⟩
  output := rfl
  limit := rfl
  files := rfl
  asked := rfl

/-- A computation does not go on for ever, and where all is proper it gives a result. -/
structure Act.Ends {α : Type} (proper : Prop) (act : Act α) (m : Machine) : Prop where
  /-- The computation does not go on for ever. -/
  finite : ∀ m', act m ≠ .error .unending m'
  /-- Where all is proper there is no fault either. -/
  result : proper → ∃ a m', act m = .ok a m'

namespace Act

variable {ev : Evaluator} {ev' : QLisp.Evaluator}

/-- A computation that runs like another one ends when that one does. -/
theorem Ends.congr {α : Type} {act act' : Act α} (ends : act'.Ends proper m)
    (same : act m = act' m) :
    act.Ends proper m :=
  ⟨fun m' => same ▸ ends.finite m', fun all => same ▸ ends.result all⟩

/-- A computation that follows a run does not go on for ever. -/
theorem Follows.finite {α β : Type} {act : Act α} {run : Run β}
    {good : (CellId → Prop) → Machine → α → β → Prop}
    (follows : Follows proper mine store m w act run good) (m' : Machine) :
    act m ≠ .error .unending m' := by
  intro endless
  rcases follows with ⟨a, m'', _, ran, _⟩ | ⟨_, fault, m'', ran, finite⟩
  · rw [ran] at endless
    cases endless
  · rw [ran] at endless
    cases endless
    exact finite rfl

/-- A computation ends that follows runs, one of them where all is proper. -/
theorem ends_of_follows {α β : Type} {act : Act α}
    {good : Prop → (CellId → Prop) → Machine → α → β → Prop}
    (follows : ∀ all, (all → proper) → ∃ run : Run β, Follows all mine store m w act run (good all)) :
    act.Ends proper m := by
  -- Following any run is enough for not going on for ever.
  constructor
  · obtain ⟨run, lenient⟩ := follows False False.elim
    exact lenient.finite
  · intro all
    obtain ⟨run, strict⟩ := follows True fun _ => all
    obtain ⟨a, m', _, ran, _⟩ := strict.ok
    exact ⟨a, m', ran⟩

/-- What is done to the only element of a list ends when doing it to all elements does. -/
theorem Ends.of_mapM {α β : Type} {f : α → Act β} {a : α} (ends : Ends proper ([a].mapM f) m) :
    Ends proper (f a) m := by
  -- The list of results holds the only one.
  have whole : [a].mapM f = f a >>= fun b => pure [b] := by simp
  rw [whole] at ends
  refine ⟨fun m' endless => ends.finite m' (bind_error endless _), fun all => ?_⟩
  obtain ⟨bs, m', ran⟩ := ends.result all
  cases first : f a m with
  | ok b m'' => exact ⟨b, m'', rfl⟩
  | error fault m'' =>
    rw [bind_error first] at ran
    cases ran

/-- Evaluating handles in order follows evaluating their values in order. -/
theorem follows_evaluateAll (mirrors : Mirrors proper mine store m w)
    (ready : Ready limit 0 m scope)
    {vs : List Handle} {ts : List Value} (holds : HoldsAll m.heap (m.sound proper) vs ts ids)
    (free : Free mine store m.heap ids) :
    Follows proper mine store m w (vs.mapM (evaluate scope)) (ts.mapM (Run.evaluate scope))
      fun _ _ _ _ => True := by
  -- The induction is on the handles; each evaluation leaves the containers of the others alone.
  induction vs generalizing store m w ts ids with
  | nil =>
    -- No handle is left, so nothing is evaluated.
    cases holds
    exact follows_pure mirrors trivial
  | cons v vs ih =>
    cases holds with
    | cons head tail =>
      rename_i t ts ids₁ ids₂
      rw [List.mapM_cons, List.mapM_cons]
      have apart : ∀ c ∈ ids₂, c ∉ ids₁ := fun c here there => free.disjoint there here
      refine (simulates_evaluate (mirrors.narrow ids₁) ready ⟨ids₁, head, free.left.only⟩).bindWithin
        (mirrors.only ids₁ free.left.mine) fun store₁ m₁ _ mirrors₁ moves _ => ?_
      have tail₁ := moves.holdsAll tail free.right.made (Machine.not_only free.right.made apart)
      refine (ih mirrors₁ (ready.move moves) tail₁ (moves.free free.right)).bind
        fun store₂ m₂ _ mirrors₂ _ _ => ?_
      exact follows_pure mirrors₂ trivial

/-- Applying a function to a value without elements follows applying it to no arguments. -/
theorem follows_applyLambda_bare (sim : Simulates proper limit depth ev ev')
    (mirrors : Mirrors proper mine store m w) (ready : Ready limit depth m scope)
    {formals body arguments : Handle} {formals' body' : Value} {captured : Option ScopeId}
    (holds : Holds m.heap (m.sound proper) (.lambda formals body captured)
      (.lambda formals' body' captured) ids)
    (free : Free mine store m.heap ids) (empty : m.heap.elements arguments = []) :
    Follows proper mine store m w (applyLambda ev formals body captured arguments)
      (Run.applyLambda ev' formals' body' captured []) (Yields proper mine) := by
  cases holds with
  | atom same => simp [Handle.atom?] at same
  | lambda fits formal bodied =>
    rename_i idsF idsB
    have shape := free.left.stands formal
    refine .congr ?_ (view_bind _ _)
    rw [if_pos shape.ends, shape.view]
    refine .congr (m := m) ?_ (elements_bind _ _)
    rw [empty, Run.applyLambda]
    -- Nothing is bound one by one, so nothing is taken out of the arguments.
    have entered : ∀ {next : ScopeId → Act Handle} {next' : ScopeId → Run Value},
        (∀ store₁ m₁ w₁ own, Mirrors proper mine store₁ m₁ w₁ → Ready limit depth m₁ own →
          (∀ {formals body scope}, (m.sound proper).functions formals body scope →
            (m₁.sound proper).functions formals body scope) →
          Holds m₁.heap (m₁.sound proper) body body' idsB → Free mine store₁ m₁.heap idsB →
          Follows proper mine store₁ m₁ w₁ (next own) (next' own) (Yields proper mine)) →
        Follows proper mine store m w (enter captured >>= next) (Run.enter captured [] >>= next')
          (Yields proper mine) := by
      intro next next' later
      refine (follows_enter (mirrors.narrow []) fits.2).bindWithin (mirrors.only [] (by simp))
        fun store₁ m₁ own mirrors₁ moves entered => ?_
      obtain ⟨same, made⟩ := entered
      rw [← same]
      have bodied₁ := moves.holds bodied free.right.made (Machine.not_only free.right.made (by simp))
      exact later store₁ m₁ _ own mirrors₁ ((ready.move moves).within made) moves.sound bodied₁
        (moves.free free.right)
    -- With no arguments all formals are filled or there are some that wait, or they are malformed.
    rcases matchFormals_nil formals'.items with ⟨rest, found⟩ | ⟨waiting, fewer, found⟩ | found
    · simp only [found]
      refine entered fun store₁ m₁ w₁ own mirrors₁ ready₁ _ bodied₁ free₁ => ?_
      have yields : Yields proper mine store₁ m₁ body body' := ⟨idsB, bodied₁, free₁⟩
      cases rest with
      | none => exact follows_body sim mirrors₁ ready₁ fits.1 yields
      | some name =>
        -- The variadic name is bound to a fresh empty list.
        have place := place_ok (mirrors₁.narrow []) (t := .qexpr []) trivial
        obtain ⟨v, h', ran, edits, ids, holds, fresh⟩ := place
        have bound : Follows proper (m₁.only []) store₁ m₁ w₁ (bindRest own arguments (some (name, [])))
            (Run.bindAll own [(name, .qexpr [])]) fun _ _ _ _ => True := by
          refine .edit ran (mirrors₁.narrow []) edits (by simp) fun mirrors => ?_
          exact follows_bind mirrors ready₁.made name (fresh.stands holds)
        show Follows proper mine store₁ m₁ w₁ (bindRest own arguments (some (name, [])) >>=
          fun _ => do ev own (← ListOp.retag .sexpr (← ListOp.copy body)))
          (Run.bindAll own [(name, .qexpr [])] >>= fun _ => ev' own (.sexpr body'.items)) _
        refine bound.bindWithin (mirrors₁.only [] (by simp)) fun _ _ _ mirrors₂ moves _ => ?_
        exact follows_body sim mirrors₂ (ready₁.move moves) fits.1 (yields.keep moves)
    · simp only [found]
      refine entered fun store₁ m₁ w₁ own mirrors₁ ready₁ grown bodied₁ free₁ => ?_
      have obeys := (formal.obeys.withItems fewer).mono fun _ _ _ => grown
      exact follows_waiting mirrors₁ ⟨fits.1, by simpa using ready₁.made⟩ obeys bodied₁ free₁
        fun _ => id
    · simp only [found]
      exact entered fun _ _ _ _ mirrors₁ _ _ _ _ => follows_atom mirrors₁ rfl

/-- A primitive operation on a value without a container does not go on for ever. -/
theorem applyPrimitive_bare (ev : Evaluator) (scope : ScopeId) (p : Primitive) {arguments : Handle}
    (bare : ∀ kind id, arguments ≠ .list kind id) (m m' : Machine) :
    applyPrimitive ev scope p arguments m ≠ .error .unending m' := by
  -- There are no elements, so nothing is evaluated, and taking one out is a fault.
  cases arguments with
  | list kind id => exact absurd rfl (bare kind id)
  | _ => cases p <;> nofun

/-- Applying an operator evaluates as evaluation does. -/
theorem apply_eq (scope : ScopeId) (operator arguments : Handle) (m : Machine) :
    apply scope operator arguments m = call evaluate scope operator arguments m := by
  have parallel : Parallel m.gauge m.gauge (fun _ => False)
      (call evaluate scope operator arguments)
      (call (eval (m.gauge.limit - m.gauge.depth)) scope operator arguments) :=
    parallel_call parallel_evaluate scope operator arguments
  exact parallel.eq rfl

/-- Applying an operator to a value without a container does not go on for ever. -/
theorem call_bare (ready : Ready limit 0 m scope) (mirrors : Mirrors False mine store m w)
    {operator arguments : Handle} {operator' : Value}
    (holds : Holds m.heap (m.sound False) operator operator' ids)
    (free : Free mine store m.heap ids)
    (bare : ∀ kind id, arguments ≠ .list kind id) (m' : Machine) :
    call evaluate scope operator arguments m ≠ .error .unending m' := by
  -- Only operations and functions look at the arguments, and there are none.
  have empty : m.heap.elements arguments = [] := by
    cases arguments with
    | list kind id => exact absurd rfl (bare kind id)
    | _ => rfl
  have whole := holds
  cases holds with
  -- Other atoms are refused, which is no fault.
  | atom same =>
    cases operator <;> simp only [Handle.atom?, Option.some.injEq, reduceCtorEq] at same
    case builtin operation =>
      cases operation with
      | primitive p => exact applyPrimitive_bare evaluate scope p bare m m'
      | _ => nofun
    all_goals nofun
  | lambda =>
    exact (follows_applyLambda_bare simulates_evaluate mirrors ready whole free empty).finite m'
  | _ => nofun

end Act

/-- Applying an operator in place follows applying it to the values, given both on owned containers. -/
theorem Act.follows_handed (mirrors : Mirrors proper mine store m w) (ready : Ready limit 0 m scope)
    {operator : Handle} {kind : ListKind} {a : CellId} {ts : List Value}
    (holds : HoldsAll m.heap (m.sound proper) [operator, .list kind a] ts ids)
    (free : Free mine store m.heap ids) :
    ∃ run, Follows proper mine store m w (call evaluate scope operator (.list kind a)) run
      (Yields proper mine) := by
  -- Operator and arguments are held side by side, in containers of their own.
  cases holds with
  | cons head tail =>
    cases tail with
    | cons second none =>
      cases none
      cases second with
      | atom same => simp [Handle.atom?] at same
      | list inside =>
        rw [List.append_nil] at free
        exact ⟨_, follows_call simulates_evaluate mirrors ready head ⟨inside, free.right⟩ free⟩

/-- Applying an operator that is handed over with its arguments ends. -/
theorem Act.ends_call (ready : Ready limit 0 m scope)
    (mirrors : ∀ all, (all → proper) → Mirrors all mine store m w) {operator arguments : Handle}
    {ts : List Value}
    (holds : ∀ all, (all → proper) → HoldsAll m.heap (m.sound all) [operator, arguments] ts ids)
    (free : Free mine store m.heap ids) :
    Ends (proper ∧ ∃ kind id, arguments = .list kind id) (call evaluate scope operator arguments)
      m := by
  -- Arguments without a container are handled apart, and may be a fault.
  by_cases listed : ∃ kind id, arguments = .list kind id
  · obtain ⟨kind, a, rfl⟩ := listed
    have ends := ends_of_follows fun all fits =>
      follows_handed (mirrors all fits) ready (holds all fits) free
    exact ⟨ends.finite, fun strict => ends.result strict.1⟩
  · refine ⟨?_, fun strict => absurd strict.2 listed⟩
    have bare : ∀ kind id, arguments ≠ .list kind id := by simpa using listed
    cases holds False False.elim with
    | cons head tail => exact call_bare ready (mirrors False False.elim) head free.left bare

/-- No reduction is in progress in a host that can be reached. -/
theorem Host.Reachable.idle {host : Host}
    (reachable : host.Reachable) : host.machine.depth = 0 := by
  induction reachable with
  | bare files => rfl
  | standard files =>
    obtain ⟨_, _, _, idle⟩ := mirrors_standard files
    exact idle
  | @after host _ command ih => exact (host.depth_run [command]).trans ih

/--
What is bound, and what some registers hold, is proper: lists have containers, and functions quoted
bodies.
-/
structure Host.Proper (host : Host) (names : List String) : Prop where
  /-- What is bound is proper. -/
  bound : ∀ id name v, host.machine.world.scopes.local? id name = some v → host.machine.heap.Proper v
  /-- What is held is proper. -/
  held : ∀ name ∈ names, host.machine.heap.Proper (host.register name)

variable {host : Host}

/-- Registers from which no container is reached twice own what they stand on. -/
theorem Host.Secure.owns (secure : host.Secure kept) (names : List String)
    (once : host.machine.heap.Once (names.map host.register)) :
    ∃ ts ids, Free (fun _ => True) kept host.machine.heap ids ∧ ∀ all, (all → host.Proper names) →
      HoldsAll host.machine.heap (host.machine.sound all) (names.map host.register) ts ids := by
  have outside : ∀ v ∈ names.map host.register,
      Outside kept host.machine.world.scopes.Made host.machine.heap v := by
    intro v member
    obtain ⟨name, _, rfl⟩ := List.mem_map.mp member
    exact secure.registers name
  have lenient : ∀ formals body scope, (∀ s ∈ scope, host.machine.world.scopes.Made s) →
      (host.machine.sound False).functions formals body scope := fun _ _ _ captured =>
    ⟨False.elim, captured⟩
  -- The registers own what they stand on, however their functions look.
  obtain ⟨ts, ids, holds, nodup, there⟩ :=
    secure.isolated.apart.ownsAll lenient (fun none => none) outside once
  -- Whatever is proper among the bindings and registers is proper in what these own.
  refine ⟨ts, ids, ⟨nodup, fun c member => (there c member).1, fun c member => (there c member).2,
    fun _ _ => trivial⟩, fun all fits => ?_⟩
  refine holds.sound (fun function => function.2) fun proper v index found => ?_
  obtain ⟨name, member, rfl⟩ := List.mem_map.mp (List.mem_of_getElem? found)
  exact (fits proper).held name member

/--
Every evaluation ends, in every host that can be reached.

What is handed over must not hold a container twice. Then evaluating a value, evaluating values in
order and applying an operator do not go on for ever, whatever the scopes hold, whatever is evaluated
or loaded on the way, and whatever the limit. They give a result where every list has a container and
every function a quoted body. Nothing but the limit bounds how deep they go: evaluation satisfies its
own recursive equation.
-/
theorem Host.Reachable.evaluation_ends (reachable : host.Reachable)
    (made : host.machine.world.scopes.Made scope) :
    (∀ expression, host.machine.heap.Once [host.register expression] →
      Act.Ends (host.Proper [expression]) (Act.evaluate scope (host.register expression))
        host.machine) ∧
    (∀ expressions, host.machine.heap.Once (expressions.map host.register) →
      Act.Ends (host.Proper expressions) ((expressions.map host.register).mapM (Act.evaluate scope))
        host.machine) ∧
    (∀ operator arguments,
      host.machine.heap.Once [host.register operator, host.register arguments] →
      Act.Ends (host.Proper [operator, arguments] ∧ ∃ kind id, host.register arguments = .list kind id)
        (Act.apply scope (host.register operator) (host.register arguments)) host.machine) ∧
    ∀ (m : Machine) scope,
      (∀ v, Act.evaluate scope v m = Act.evalWith (Act.reduce Act.evaluate scope) scope v m) ∧
      ∀ operator arguments, Act.apply scope operator arguments m =
        Act.call Act.evaluate scope operator arguments m := by
  obtain ⟨kept, secure⟩ := reachable.secure
  -- The machine is idle, and it mirrors the world that its bindings show.
  have ready : Ready host.machine.world.limit 0 host.machine scope := ⟨made, rfl, reachable.idle⟩
  have mirrors : ∀ {names all}, (all → host.Proper names) →
      Mirrors all (fun _ => True) kept host.machine host.machine.shown := fun fits =>
    secure.isolated.mirrors fun all => (fits all).bound
  -- Several registers are evaluated one after the other on what they own.
  have all : ∀ expressions, host.machine.heap.Once (expressions.map host.register) →
      Act.Ends (host.Proper expressions) ((expressions.map host.register).mapM (Act.evaluate scope))
        host.machine := by
    intro expressions once
    obtain ⟨ts, ids, free, holds⟩ := secure.owns expressions once
    exact Act.ends_of_follows fun all fits =>
      ⟨_, Act.follows_evaluateAll (mirrors fits) ready (holds all fits) free⟩
  refine ⟨fun expression once => ?_, fun expressions once => ?_, fun operator arguments once => ?_,
    fun m scope => ⟨fun v => Act.evaluate_eq scope v m, fun operator arguments =>
      Act.apply_eq scope operator arguments m⟩⟩
  · exact (all [expression] once).of_mapM
  · exact all expressions once
  -- A call takes its operator and its arguments from two registers.
  · obtain ⟨ts, ids, free, holds⟩ := secure.owns [operator, arguments] once
    have ends := Act.ends_call ready (fun _ fits => mirrors fits) holds free
    exact ends.congr (Act.apply_eq ..)

/-- On a machine that mirrors a world all that is bound is proper. -/
theorem Mirrors.bound_proper (mirrors : Mirrors True mine store m w) (id : ScopeId) (name : String)
    (v : Handle) (found : m.world.scopes.local? id name = some v) : m.heap.Proper v := by
  have bound := mirrors.bound id name
  rw [found] at bound
  cases given : w.scopes.local? id name with
  | none =>
    rw [given] at bound
    exact bound.elim
  | some t =>
    rw [given] at bound
    obtain ⟨ids, holds, _⟩ := bound
    exact holds.proper_of_sound

/--
A form that is read from a source text may be handed over: it holds no container twice, and it is proper
where all that is bound is.
-/
theorem Host.source_proper (mirrors : Mirrors True (fun _ => True) store host.machine w) {target : String}
    (named : target ≠ "") {text : Text.Bytes} {form : Form} {rest : List Form}
    (read : Form.parse text = .ok (form :: rest)) {after : Host}
    (made : after = host.after (.make target (.operand (.source text Primitive.all)))) :
    after.machine.heap.Once [after.register target] ∧ after.Proper [target] := by
  obtain ⟨machine, held⟩ := @after_source host target named text Primitive.all form rest read
  rw [← made] at machine held
  -- What the text means is placed, and the register holds it.
  obtain ⟨_, h', ran, edits, ids, holds, free⟩ :=
    Act.place_ok mirrors (form.obeys_toValue Primitive.all)
  cases ran
  have mirrors : Mirrors True (fun _ => True) store after.machine w := by
    rw [machine]
    exact mirrors.edit edits (by simp)
  have holds : Holds after.machine.heap (after.machine.sound True) (after.register target)
      (form.toValue Primitive.all) ids := by
    rw [machine, held]
    exact holds
  constructor
  · -- New containers are reached once each.
    rintro (_ | _) (_ | _) v v' path path' c found found' leads leads' <;> cases found <;> cases found'
    exact ⟨rfl, holds.path_unique free.once leads leads'⟩
  · refine ⟨mirrors.bound_proper, fun name member => ?_⟩
    obtain rfl := List.mem_singleton.mp member
    exact holds.proper_of_sound

/--
An expression that defines a function which calls itself for ever, calls it, and asks for the length of
a list, is evaluated to a result where all operations and the library are bound.
-/
theorem Host.Reachable.evaluation_ends_endless :
    let text := Text.encode "(list (fun {loop n} {loop (+ n 1)}) (loop 1) (len {1 2}))"
    let host := (start (.standard fun _ => .error .missing)).after
      (.make "x" (.operand (.source text Primitive.all)))
    ∃ v m', Act.evaluate Scopes.global (host.register "x") host.machine = .ok v m' := by
  intro text host
  obtain ⟨form, read⟩ : ∃ form, Form.parse text = .ok [form] := by
    rw [Form.parse_encode]
    exact ⟨_, rfl⟩
  have reachable : host.Reachable := .after (.standard _) _
  have made : host = (start (.standard fun _ => .error .missing)).after
    (.make "x" (.operand (.source text Primitive.all))) := rfl
  clear_value host text
  -- The machine with the library mirrors its world.
  obtain ⟨_, store, mirrors, _⟩ := mirrors_standard fun _ => .error .missing
  generalize Machine.standard (fun _ => .error .missing) = m at made mirrors
  have started : Mirrors True (fun _ => True) store (start m).machine _ := mirrors
  -- The text is read into a register, so it is reached once from there.
  obtain ⟨once, proper⟩ := source_proper started (by decide) read made
  obtain ⟨_, secure⟩ := reachable.secure
  exact ((Reachable.evaluation_ends reachable secure.isolated.global).1 "x" once).result proper

end Shared
end QLisp
