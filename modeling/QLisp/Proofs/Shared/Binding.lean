import QLisp.Proofs.Shared.Entering
import QLisp.Proofs.Value.Identical

/-!
What the call of a function does.

It depends on how many arguments there are and on where the marker is among the formals, and on
nothing else: not on where the call stands, and not on what evaluates the body.
-/

namespace QLisp.Shared

variable {kept kept₁ : CellId → Prop} {m m₁ : Machine}

/-- The call of a function with the arguments in a container. -/
structure Call where
  /-- The formals of the function. -/
  formals : Handle
  /-- The body of the function. -/
  body : Handle
  /-- The scope that the function captured. -/
  captured : Option ScopeId
  /-- The kind of the list of arguments. -/
  kind : ListKind
  /-- The container of the arguments. -/
  arguments : CellId

namespace Call

/-- The function that is called. -/
def function (call : Call) : Handle := .lambda call.formals call.body call.captured

/-- The list of arguments. -/
def list (call : Call) : Handle := .list call.kind call.arguments

/-- The values of the arguments. -/
def values (call : Call) (m : Machine) : List Value :=
  (m.heap.items call.arguments).map m.heap.view

/--
Wherever it stands, the call evaluates a body that is a list in a scope that binds names.

What is evaluated is a copy in fresh containers, and the evaluator is whatever carries out the call.
-/
def Evaluates (call : Call) (m : Machine) (bindings : List (String × Value)) : Prop :=
  ∀ kind items, m.heap.view call.body = .list kind items →
    ∃ m₁ id, m.Entered call.captured bindings call.arguments m₁ ∧
      m₁.heap.view (.list .sexpr id) = .sexpr items ∧
      (∀ path c, m₁.heap.LeadsTo (.list .sexpr id) path c → ¬ m.heap.Made c) ∧
      ∀ ev scope, Act.call ev scope call.function call.list m =
        ev m.world.scopes.next (.list .sexpr id) m₁

/-- Wherever it stands, the call gives a function of further formals, in a scope that binds names. -/
def Waits (call : Call) (m : Machine) (bindings : List (String × Value)) (waiting : List Value) :
    Prop :=
  ∃ m₁ formals, m.Entered call.captured bindings call.arguments m₁ ∧
    m₁.heap.view formals = (m.heap.view call.formals).withItems waiting ∧
    ∀ ev scope, Act.call ev scope call.function call.list m =
      .ok (.lambda formals call.body (some m.world.scopes.next)) m₁

/-- Wherever it stands, the call gives a failure. -/
def Fails (call : Call) (m : Machine) (failure : Failure) : Prop :=
  ∃ m₁ bindings, m.Entered call.captured bindings call.arguments m₁ ∧
    ∀ ev scope, Act.call ev scope call.function call.list m = .ok (.error failure) m₁

/-- What a call does, given how its arguments fit the formals. -/
def Does (call : Call) (m : Machine) (matched : Matched Handle) : Prop :=
  match matched with
  | .full .. => call.Evaluates m (matched.bindings m.heap.view)
  | .short _ waiting => call.Waits m (matched.bindings m.heap.view) waiting
  | .excess _ => call.Fails m (.wrongCount "lambda" (m.heap.view call.formals).items.length
    (call.values m).length)
  | .malformed _ => call.Fails m .malformedVariadic

/--
The call can be carried out.

Nothing that is kept is led to, every way down ends, and the arguments are in a container that is no
part of the function.
-/
structure Sound (call : Call) (kept : CellId → Prop) (m : Machine) : Prop where
  /-- The function leads to nothing that is kept. -/
  function : Loose kept m call.function
  /-- The arguments lead to nothing that is kept. -/
  list : Loose kept m call.list
  /-- Every way down from the function ends. -/
  ends : m.heap.ends call.function
  /-- Every way down from the arguments ends. -/
  finite : m.heap.ends call.list
  /-- The function does not lead to the list of arguments. -/
  apart : ∀ path, ¬ m.heap.LeadsTo call.function path call.arguments

variable {call : Call}

/-- The formals and the body lead to other containers than that of the arguments. -/
theorem Sound.part (sound : call.Sound kept m) (isolated : Isolated kept m) {v : Handle}
    (part : v = call.formals ∨ v = call.body) :
    m.heap.ends v ∧ ∀ path c, m.heap.LeadsTo v path c → m.heap.Made c ∧ c ∉ [call.arguments] := by
  obtain ⟨formal, bodied⟩ := Bool.and_eq_true_iff.mp sound.ends
  -- Both parts are parts of the function, and what they lead to, the function leads to.
  constructor
  · rcases part with rfl | rfl
    · exact formal
    · exact bodied
  · intro path c leads
    obtain ⟨path', leads'⟩ : ∃ path', m.heap.LeadsTo call.function path' c := by
      rcases part with rfl | rfl
      · exact ⟨_, Heap.leadsTo_lambda.mpr (.inl ⟨path, rfl, leads⟩)⟩
      · exact ⟨_, Heap.leadsTo_lambda.mpr (.inr ⟨path, rfl, leads⟩)⟩
    -- Where the part leads is kept, and is not the list of arguments.
    refine ⟨(isolated.apart.leadsTo path' sound.function leads').1, fun here => ?_⟩
    exact sound.apart path' (List.mem_singleton.mp here ▸ leads')

/-- How the arguments fit the formals. -/
def matched (call : Call) (m : Machine) : Matched Handle :=
  matchFormals (m.heap.view call.formals).items (m.heap.items call.arguments)

/-- A call makes its scope and binds the arguments, whatever evaluates and wherever it stands. -/
theorem Sound.entering (sound : call.Sound kept m) (isolated : Isolated kept m) :
    ∃ kept₁ m₁, Entering kept m call.captured ((call.matched m).bindings m.heap.view)
        call.arguments kept₁ m₁ ∧
      ∀ ev scope, Act.call ev scope call.function call.list m =
        Act.proceed ev (m.heap.view call.formals) call.body (call.values m).length
          (call.matched m) m.world.scopes.next m₁ := by
  -- The arguments are bound first, which happens in the same way wherever the call stands.
  obtain ⟨formal, _⟩ := Bool.and_eq_true_iff.mp sound.ends
  obtain ⟨_, _, captures⟩ := outside_lambda.mp sound.function
  obtain ⟨kept₁, m₁, ran, entering⟩ := Act.entering_bindArguments isolated captures sound.list
    sound.finite (m.heap.view call.formals).items
  refine ⟨kept₁, m₁, entering, fun ev scope => ?_⟩
  have run := Act.applyLambda_run ev call.body call.captured call.kind call.arguments formal
  rw [Act.bind_ok ran] at run
  rw [Call.values, List.length_map]
  exact run

/-- The formals that still wait captured scopes that have been made, like all of them. -/
theorem Sound.waiting (sound : call.Sound kept m) (isolated : Isolated kept m)
    (step : Step (fun _ => False) kept m kept₁ m₁) {bound : List (String × Handle)}
    {waiting : List Value} (found : call.matched m = .short bound waiting) :
    ((m.heap.view call.formals).withItems waiting).Obeys m₁.captures := by
  obtain ⟨formal, _, _⟩ := outside_lambda.mp sound.function
  have fewer := (isolated.apart.obeys_view formal).withItems (waiting_suffix found).subset
  exact fewer.mono fun _ _ _ captured s member => step.made (captured s member)

/-- A call does what the fit of its arguments says. -/
theorem Sound.does (sound : call.Sound kept m) (isolated : Isolated kept m) :
    call.Does m (call.matched m) := by
  -- The arguments are bound in a scope of the call before anything else is done.
  obtain ⟨kept₁, m₁, entering, called⟩ := sound.entering isolated
  -- What is done next depends on how the arguments fit the formals.
  cases found : call.matched m with
  | full bound rest =>
    rw [found] at called entering
    intro kind items listed
    -- The body is a part of the function, so it ends and is apart from the arguments.
    obtain ⟨_, bodied, _⟩ := outside_lambda.mp sound.function
    obtain ⟨ends, apart⟩ := sound.part isolated (.inr rfl)
    obtain ⟨body, viewed⟩ := entering.entered.edits.view ends apart
    -- A copy of the body is evaluated, so the body stays as it is.
    obtain ⟨id, m₂, evaluated, entered, seen, fresh⟩ :=
      entering.evaluate (Loose.step bodied entering.step) body (viewed.trans listed)
    exact ⟨m₂, id, entered, seen, fresh, fun ev scope =>
      (called ev scope).trans (evaluated ev _)⟩
  | short bound waiting =>
    -- The formals that wait are placed, and the partial function holds them.
    have obeys := sound.waiting isolated entering.step found
    rw [found] at called entering
    obtain ⟨formals, m₂, placed, entered, seen⟩ := entering.place obeys
    exact ⟨m₂, formals, entered, seen, fun ev scope =>
      (called ev scope).trans (Act.bind_ok placed _)⟩
  | excess bound =>
    -- What is refused makes the scope of the call, and changes nothing else.
    rw [found] at called entering
    exact ⟨m₁, _, entering.entered, called⟩
  | malformed bound =>
    rw [found] at called entering
    exact ⟨m₁, _, entering.entered, called⟩

/-- A call changes no container that was there but that of its arguments. -/
theorem Sound.edits (sound : call.Sound kept m) (isolated : Isolated kept m) (scope : ScopeId) :
    Edits [call.arguments] m.heap
      ((Act.apply scope call.function call.list).after m).heap := by
  obtain ⟨kept₁, m₁, entering, called⟩ := sound.entering isolated
  obtain ⟨_, bodied, _⟩ := outside_lambda.mp sound.function
  -- From where the arguments are bound all containers are kept.
  obtain ⟨kept₂, step⟩ := (Act.isolating_proceed
    (Act.isolatingEvaluator_eval (m.world.limit - m.depth)) entering.step.isolated
    entering.entered.made (Loose.step bodied entering.step) (call.values m).length
    fun bound waiting found => sound.waiting isolated entering.step found).after
  -- Up to there the run is that of the call, and the rest is what follows it.
  have same : (Act.apply scope call.function call.list).after m =
      (Act.proceed (Act.eval (m.world.limit - m.depth)) (m.heap.view call.formals) call.body
        (call.values m).length (call.matched m) m.world.scopes.next).after m₁ := by
    rw [Act.after, Act.after, Act.apply_run, called]
  -- Whatever follows changes no container that there was.
  have later : Edits [] m₁.heap _ := ⟨step.size, fun c made _ => step.frozen c made⟩
  rw [same]
  exact entering.entered.edits.trans later (by simp)

/-- A call leaves the formals and the body of its function as they were. -/
theorem Sound.unchanged (sound : call.Sound kept m) (isolated : Isolated kept m) (scope : ScopeId)
    {v : Handle} (part : v = call.formals ∨ v = call.body) :
    ((Act.apply scope call.function call.list).after m).heap.view v = m.heap.view v := by
  obtain ⟨ends, apart⟩ := sound.part isolated part
  exact ((sound.edits isolated scope).view ends apart).2

end Call

/-- Names up to the first marker are divided by it. -/
theorem split_at_marker {names : List String} {p : Nat}
    (first : names.idxOf? variadicMarker = some p) :
    names = names.take p ++ variadicMarker :: names.drop (p + 1) ∧
      variadicMarker ∉ names.take p ∧ (names.take p).length = p := by
  obtain ⟨inside, here, before⟩ := List.idxOf?_eq_some_iff.mp first
  refine ⟨?_, fun member => ?_, by rw [List.length_take]; omega⟩
  · rw [← here, ← List.drop_eq_getElem_cons inside, List.take_append_drop]
  · obtain ⟨index, there, same⟩ := List.mem_take_iff_getElem.mp member
    exact before index (by omega) same

/-- Names beyond the values are not paired with any. -/
theorem zip_take {α β : Type} {names : List α} {values : List β} {count : Nat}
    (enough : values.length ≤ count) : (names.take count).zip values = names.zip values := by
  -- By induction on the values, each of which takes a name if there is one.
  induction values generalizing names count with
  | nil => simp
  | cons v rest ih =>
    cases count with
    | zero => simp at enough
    | succ count =>
      cases names with
      | nil => rfl
      | cons name names => simp [ih (Nat.le_of_succ_le_succ enough)]

namespace Call

variable {call : Call} {names : List String} {kind : ListKind}

/-- Names paired with handles bind the names to the values. -/
theorem bound_values (call : Call) (m : Machine) (names : List String) :
    ((names.zip (m.heap.items call.arguments)).map fun (name, v) => (name, m.heap.view v)) =
      names.zip (call.values m) := by
  rw [values, List.zip_map_right]
  rfl

/-- What a call does when no formal is the marker. -/
theorem Sound.does_unmarked (sound : call.Sound kept m) (isolated : Isolated kept m)
    (named : m.heap.view call.formals = .list kind (names.map .symbol))
    (absent : variadicMarker ∉ names) :
    (names.length < (call.values m).length →
      call.Fails m (.wrongCount "lambda" names.length (call.values m).length)) ∧
    ((call.values m).length = names.length → call.Evaluates m (names.zip (call.values m))) ∧
    ((call.values m).length < names.length → call.Waits m (names.zip (call.values m))
      ((names.drop (call.values m).length).map .symbol)) := by
  have does := sound.does isolated
  -- The formals are names, and as many arguments as containers are seen.
  have shape : (m.heap.view call.formals).items = names.map .symbol := by rw [named]; rfl
  have count : (call.values m).length = (m.heap.items call.arguments).length := List.length_map _
  -- Without the marker only the numbers of formals and arguments are compared.
  rw [matched, shape, matchFormals_unmarked absent, ← count] at does
  refine ⟨fun more => ?_, fun equal => ?_, fun fewer => ?_⟩
  -- More arguments than formals are refused.
  · rw [if_pos more] at does
    simpa only [Does, shape, List.length_map] using does
  -- As many are all bound, and the body is evaluated.
  · rw [if_neg (by omega), if_neg (by omega)] at does
    simpa only [Does, Matched.bindings, Matched.bound, Matched.rest, bound_values, Option.toList,
      List.map_nil, List.append_nil] using does
  -- With fewer the formals that are left wait.
  · rw [if_neg (by omega), if_pos fewer] at does
    simpa only [Does, Matched.bindings, Matched.bound, Matched.rest, bound_values, Option.toList,
      List.map_nil, List.append_nil] using does

/-- What a call does when a formal is the marker. -/
theorem Sound.does_marked (sound : call.Sound kept m) (isolated : Isolated kept m)
    (named : m.heap.view call.formals = .list kind (names.map .symbol)) {p : Nat}
    (first : names.idxOf? variadicMarker = some p) :
    ((call.values m).length < p → call.Waits m (names.zip (call.values m))
      ((names.drop (call.values m).length).map .symbol)) ∧
    (p ≤ (call.values m).length → names.length ≠ p + 2 → call.Fails m .malformedVariadic) ∧
    ∀ rest, p ≤ (call.values m).length → names.length = p + 2 → names[p + 1]? = some rest →
      call.Evaluates m
        ((names.take p).zip (call.values m) ++ [(rest, .qexpr ((call.values m).drop p))]) := by
  have does := sound.does isolated
  -- The names are those before the marker, the marker, and what follows it.
  obtain ⟨split, absent, size⟩ := split_at_marker first
  have shape : (m.heap.view call.formals).items =
      (names.take p ++ variadicMarker :: names.drop (p + 1)).map .symbol := by
    rw [named, ← split]
    rfl
  have count : (call.values m).length = (m.heap.items call.arguments).length := List.length_map _
  have after : (names.drop (p + 1)).length = names.length - (p + 1) := List.length_drop
  -- With the marker the formals in front of it are filled first, and one name has to follow it.
  rw [matched, shape, matchFormals_marked absent, ← count, size] at does
  refine ⟨fun fewer => ?_, fun enough other => ?_, fun rest enough two last => ?_⟩
  -- Too few for the names before it, so some of these wait.
  · rw [if_pos fewer, ← split] at does
    simpa only [Does, Matched.bindings, Matched.bound, Matched.rest, bound_values, Option.toList,
      List.map_nil, List.append_nil, zip_take (Nat.le_of_lt fewer)] using does
  -- Enough arguments, but not one name behind the marker.
  · rw [if_neg (by omega)] at does
    rcases tail : names.drop (p + 1) with _ | ⟨rest, _ | ⟨other, more⟩⟩
    · simpa only [tail, Does] using does
    · rw [tail, List.length_singleton] at after
      omega
    · simpa only [tail, Does] using does
  -- Enough arguments, and one name behind the marker takes the others.
  · have tail : names.drop (p + 1) = [rest] := by
      obtain ⟨inside, same⟩ := List.getElem?_eq_some_iff.mp last
      rw [List.drop_eq_getElem_cons inside, same, List.drop_eq_nil_of_le (by omega)]
    rw [if_neg (by omega), tail] at does
    simp only [Does, Matched.bindings, Matched.bound, Matched.rest, bound_values, Option.toList,
      List.map_cons, List.map_nil, List.map_drop] at does
    exact does

end Call

namespace Host

/--
The call of a function binds its arguments as its formals say.

The function and the list of arguments are held by the host in any way, so they may share containers,
as long as both end and the function does not lead to the list itself. Without the marker among the
formals, too many arguments are a failure, as many as there are formals are all bound, and then the
body is evaluated, and fewer are bound while a function of the other formals is given. With the marker
this goes for the formals before it. Once these are filled, the marker must be followed by one name,
which is bound to the list of all further arguments.

In each case the names are bound in a new child of the captured scope, the last value of a repeated
name counting, and no scope that was there is changed by that. What is done next is the same from
whatever scope and with whatever evaluator the function is called. When the call has ended, the formals
and the body are as they were, and so is every other container but that of the arguments.
-/
theorem Reachable.call_binds {host : Host} (reachable : host.Reachable) {function arguments : String}
    {call : Call} (operator : host.register function = call.function)
    (operands : host.register arguments = call.list)
    (ends : host.machine.heap.ends call.function) (finite : host.machine.heap.ends call.list)
    (apart : ∀ path, ¬ host.machine.heap.LeadsTo call.function path call.arguments)
    {kind : ListKind} {names : List String}
    (named : host.machine.heap.view call.formals = .list kind (names.map .symbol)) :
    let m := host.machine
    let values := call.values m
    (names.idxOf? variadicMarker = none →
      (names.length < values.length →
        call.Fails m (.wrongCount "lambda" names.length values.length)) ∧
      (values.length = names.length → call.Evaluates m (names.zip values)) ∧
      (values.length < names.length →
        call.Waits m (names.zip values) ((names.drop values.length).map .symbol))) ∧
    (∀ p, names.idxOf? variadicMarker = some p →
      (values.length < p →
        call.Waits m (names.zip values) ((names.drop values.length).map .symbol)) ∧
      (p ≤ values.length → names.length ≠ p + 2 → call.Fails m .malformedVariadic) ∧
      ∀ rest, p ≤ values.length → names.length = p + 2 → names[p + 1]? = some rest →
        call.Evaluates m ((names.take p).zip values ++ [(rest, .qexpr (values.drop p))])) ∧
    ∀ scope, let m' := (Act.apply scope call.function call.list).after m
      m'.heap.view call.formals = m.heap.view call.formals ∧
      m'.heap.view call.body = m.heap.view call.body ∧ Edits [call.arguments] m.heap m'.heap := by
  -- The registers of a reachable host keep the parts of the call apart.
  obtain ⟨kept, secure⟩ := reachable.secure
  have sound : call.Sound kept host.machine :=
    ⟨operator ▸ secure.registers function, operands ▸ secure.registers arguments, ends, finite,
      apart⟩
  refine ⟨fun none => ?_, fun p first => sound.does_marked secure.isolated named first,
    fun scope => ⟨sound.unchanged secure.isolated scope (.inl rfl),
      sound.unchanged secure.isolated scope (.inr rfl), sound.edits secure.isolated scope⟩⟩
  exact sound.does_unmarked secure.isolated named (List.idxOf?_eq_none_iff.mp none)

/--
A function with a repeated name, whose last value is the list of all further arguments.

With one argument it is given back, waiting for others, and with four its body is evaluated.
-/
theorem Reachable.call_binds_repeated :
    let host := (start (.initial fun _ => .error .missing)).run
      [.make "formals" (.operand (.source (Text.encode "{x y & x}") Primitive.all)),
        .make "body" (.operand (.source (Text.encode "{list x y}") Primitive.all)),
        .make "f" (.lambda "formals" "body" "global"),
        .make "few" (.operand (.source (Text.encode "(\"a\")") Primitive.all)),
        .make "many" (.operand (.source (Text.encode "(\"a\" \x7b\"b\"\x7d \"c\" \"d\")")
          Primitive.all))]
    let few : Call := ⟨.list .qexpr ⟨0⟩, .list .qexpr ⟨1⟩, some Scopes.global, .sexpr, ⟨2⟩⟩
    let many : Call := { few with arguments := ⟨4⟩ }
    let a := Value.string (Text.encode "a")
    let b := Value.qexpr [.string (Text.encode "b")]
    let others := Value.qexpr [.string (Text.encode "c"), .string (Text.encode "d")]
    few.Waits host.machine [("x", a)] [.symbol "y", .symbol variadicMarker, .symbol "x"] ∧
      many.Evaluates host.machine [("x", a), ("y", b), ("x", others)] := by
  intro host few many a b others
  have reachable : host.Reachable := .run (.bare fun _ => .error .missing) _
  -- What is known of the host is evaluated once, before it is forgotten.
  have operator : host.register "f" = few.function := by decide +kernel
  have operands : host.register "few" = few.list := by decide +kernel
  have operands' : host.register "many" = many.list := by decide +kernel
  have ends : host.machine.heap.ends few.function = true := by decide +kernel
  have finite : host.machine.heap.ends few.list = true := by decide +kernel
  have finite' : host.machine.heap.ends many.list = true := by decide +kernel
  -- Handles are compared with what they show, which is a computation.
  have named : host.machine.heap.view few.formals =
      .list .qexpr (["x", "y", variadicMarker, "x"].map .symbol) :=
    Value.eq_of_identical (by decide +kernel)
  have values : few.values host.machine = [a] := Value.eq_of_identicalAll (by decide +kernel)
  have values' : many.values host.machine = [a, b, .string (Text.encode "c"), .string (Text.encode "d")] :=
    Value.eq_of_identicalAll (by decide +kernel)
  -- The formals and the body hold atoms, so they do not lead to the arguments.
  have formals : ∀ v ∈ host.machine.heap.items ⟨0⟩, v.atom?.isSome := by decide +kernel
  have body : ∀ v ∈ host.machine.heap.items ⟨1⟩, v.atom?.isSome := by decide +kernel
  clear_value host
  -- The function leads to its formals and to its body.
  have leads : ∀ path c, host.machine.heap.LeadsTo few.function path c → c = ⟨0⟩ ∨ c = ⟨1⟩ := by
    intro path c leads
    rcases Heap.leadsTo_lambda.mp leads with ⟨rest, _, inner⟩ | ⟨rest, _, inner⟩
    · exact .inl (Heap.eq_of_leadsTo_atoms formals inner)
    · exact .inr (Heap.eq_of_leadsTo_atoms body inner)
  have marked : ["x", "y", variadicMarker, "x"].idxOf? variadicMarker = some 2 := rfl
  constructor
  · -- One argument is fewer than there are formals before the marker.
    have apart : ∀ path, ¬ host.machine.heap.LeadsTo few.function path few.arguments :=
      fun path inner => by rcases leads path _ inner with same | same <;> cases same
    have binds := (@Reachable.call_binds host reachable _ _ few operator operands ends finite apart
      _ _ named).2.1 2 marked
    rw [values] at binds
    exact binds.1 (by decide)
  · -- Four are enough, and one name follows the marker.
    have apart : ∀ path, ¬ host.machine.heap.LeadsTo many.function path many.arguments :=
      fun path inner => by rcases leads path _ inner with same | same <;> cases same
    have binds := (@Reachable.call_binds host reachable _ _ many operator operands' ends finite' apart
      _ _ named).2.1 2 marked
    rw [values'] at binds
    exact binds.2.2 "x" (by decide) rfl rfl

end Host

end QLisp.Shared
