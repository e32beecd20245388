import QLisp.Proofs.Shared.Act

/-!
Runs of two computations side by side, on machines that differ only in their gauge.

The gauge of a machine is its limit and the number of reductions in progress. Nothing but the
beginning and the end of a reduction looks at it, so operators are parallel when the evaluators that
they hand their parts to are.
-/

namespace QLisp.Shared

/-- How many reductions may be in progress, and how many are. -/
structure Gauge where
  /-- How many reductions may be in progress at once. -/
  limit : Nat
  /-- How many reductions are in progress. -/
  depth : Nat

namespace Machine

/-- The gauge of a machine. -/
def gauge (m : Machine) : Gauge := ⟨m.world.limit, m.depth⟩

/-- A machine with another gauge. -/
def gauged (m : Machine) (g : Gauge) : Machine :=
  { m with world.limit := g.limit, depth := g.depth }

/-- A machine with its own gauge is itself. -/
@[simp]
theorem gauged_gauge (m : Machine) : m.gauged m.gauge = m := rfl

/-- The gauge is apart from the heap. -/
@[simp]
theorem heap_gauged (m : Machine) (g : Gauge) : (m.gauged g).heap = m.heap := rfl

/-- The gauge is apart from the scopes. -/
@[simp]
theorem scopes_gauged (m : Machine) (g : Gauge) :
    (m.gauged g).world.scopes = m.world.scopes := rfl

end Machine

namespace Act

variable {g g' : Gauge} {excused : Fault → Prop} {α β γ : Type}

/--
Two computations do the same, each on a machine with its own gauge, which they leave as it is.

Nothing is said of a run of the first that ends with an excused fault.
-/
def Parallel (g g' : Gauge) (excused : Fault → Prop) (act act' : Act α) : Prop :=
  ∀ m : Machine, match act (m.gauged g) with
    | .ok a m₁ => m₁.gauge = g ∧ act' (m.gauged g') = .ok a (m₁.gauged g')
    | .error fault m₁ =>
      excused fault ∨ (m₁.gauge = g ∧ act' (m.gauged g') = .error fault (m₁.gauged g'))

/-- A result that needs no work is the same on both sides. -/
theorem parallel_pure (a : α) : Parallel g g' excused (pure a) (pure a) :=
  fun _ => ⟨rfl, rfl⟩

/-- A fault without work is the same on both sides. -/
theorem parallel_throw (fault : Fault) :
    Parallel g g' excused (throw fault : Act α) (throw fault) :=
  fun _ => .inr ⟨rfl, rfl⟩

/-- Parallel computations that go on in parallel are parallel. -/
theorem Parallel.bind {act act' : Act α} {next next' : α → Act β}
    (first : Parallel g g' excused act act')
    (second : ∀ a, Parallel g g' excused (next a) (next' a)) :
    Parallel g g' excused (act >>= next) (act' >>= next') := by
  intro m
  have early := first m
  simp only [Bind.bind, EStateM.bind]
  cases ran : act (m.gauged g) with
  | error fault m₁ =>
    rw [ran] at early
    -- A fault of the first computation is that of both.
    rcases early with excuse | ⟨same, ran'⟩
    · exact .inl excuse
    · exact .inr ⟨same, by rw [ran']⟩
  | ok a m₁ =>
    rw [ran] at early
    obtain ⟨same, ran'⟩ := early
    rw [ran']
    -- The first computation left the gauge as it was, so the second starts with it.
    have later := second a m₁
    rwa [← same, Machine.gauged_gauge, same] at later

/-- A list operation does not look at the gauge. -/
theorem parallel_lift (op : ListOp α) :
    Parallel g g' excused (liftM op : Act α) (liftM op) := by
  intro m
  simp only [lift_run, Machine.heap_gauged]
  cases op m.heap with
  | ok a h => exact ⟨rfl, rfl⟩
  | error fault h => exact .inr ⟨rfl, rfl⟩

/-- A run in the world that does not look at the limit does not look at the gauge. -/
theorem parallel_inWorld {run : RunIn Handle α}
    (blind : ∀ w limit, run { w with limit := limit } =
      ((run w).1, { (run w).2 with limit := limit })) :
    Parallel g g' excused (inWorld run) (inWorld run) := by
  -- The run does the same in both worlds, which differ in their limits only.
  intro m
  -- With either gauge the run is made in a world with that limit.
  have here : inWorld run (m.gauged g) = .ok (run m.world).1
      { m with world := { (run m.world).2 with limit := g.limit }, depth := g.depth } := by
    show EStateM.Result.ok (run { m.world with limit := g.limit }).1
      (Machine.mk (run { m.world with limit := g.limit }).2 m.heap g.depth) = _
    rw [blind]
  have there : inWorld run (m.gauged g') = .ok (run m.world).1
      { m with world := { (run m.world).2 with limit := g'.limit }, depth := g'.depth } := by
    show EStateM.Result.ok (run { m.world with limit := g'.limit }).1
      (Machine.mk (run { m.world with limit := g'.limit }).2 m.heap g'.depth) = _
    rw [blind]
  rw [here, there]
  exact ⟨rfl, rfl⟩

/-- What is read off a machine is used in parallel when it is on machines with either gauge. -/
theorem parallel_get {next next' : Machine → Act β}
    (same : ∀ m : Machine, Parallel g g' excused (next (m.gauged g)) (next' (m.gauged g'))) :
    Parallel g g' excused (get >>= next) (get >>= next') :=
  fun m => same m m

/-- Going on with a result or ending with a failure is parallel when going on is. -/
theorem parallel_orFail (result : Except Failure α) {next next' : α → Act Handle}
    (same : ∀ a, Parallel g g' excused (next a) (next' a)) :
    Parallel g g' excused (orFail result next) (orFail result next') := by
  cases result with
  | ok a => exact same a
  | error failure => exact parallel_pure _

/-- Doing the same to each element in order is parallel when doing it to one is. -/
theorem parallel_mapM {f f' : α → Act β} (same : ∀ a, Parallel g g' excused (f a) (f' a))
    (items : List α) : Parallel g g' excused (items.mapM f) (items.mapM f') := by
  induction items with
  | nil => exact parallel_pure []
  | cons a rest ih =>
    rw [List.mapM_cons, List.mapM_cons]
    exact (same a).bind fun b => ih.bind fun bs => parallel_pure (b :: bs)

/-- Reading values does not look at the gauge. -/
theorem parallel_views (handles : List Handle) :
    Parallel g g' excused (views handles) (views handles) :=
  parallel_mapM (fun v => parallel_lift (ListOp.view v)) handles

/-- Glancing at values does not look at the gauge. -/
theorem parallel_glances (handles : List Handle) :
    Parallel g g' excused (glances handles) (glances handles) :=
  parallel_get fun _ => parallel_pure _

/-- Looking a name up does not look at the gauge. -/
theorem parallel_lookup (scope : ScopeId) (name : String) :
    Parallel g g' excused (lookup scope name) (lookup scope name) := by
  refine parallel_get fun m => ?_
  simp only [Machine.scopes_gauged]
  split
  · exact parallel_lift _
  · exact parallel_pure _

/-- Requiring a scope does not look at the gauge. -/
theorem parallel_expectScope (scope : ScopeId) :
    Parallel g g' excused (expectScope scope) (expectScope scope) := by
  have decided : ∀ missing : Bool, Parallel g g' excused
      (if missing then throw .noScope else pure () : Act Unit)
      (if missing then throw .noScope else pure ()) := by
    rintro (_ | _)
    · exact parallel_pure ()
    · exact parallel_throw _
  exact parallel_get fun m => decided (m.world.scopes.get? scope).isNone

/-- Finding the outermost scope does not look at the gauge. -/
theorem parallel_root (scope : ScopeId) : Parallel g g' excused (root scope) (root scope) :=
  (parallel_expectScope scope).bind fun _ => parallel_inWorld fun _ _ => rfl

/-- Binding a name does not look at the gauge. -/
theorem parallel_bind (scope : ScopeId) (name : String) (v : Handle) :
    Parallel g g' excused (bind scope name v) (bind scope name v) :=
  (parallel_expectScope scope).bind fun _ =>
    (parallel_lift (ListOp.copy v)).bind fun _ => parallel_inWorld fun _ _ => rfl

/-- Binding a name in the outermost scope does not look at the gauge. -/
theorem parallel_bindRoot (scope : ScopeId) (name : String) (v : Handle) :
    Parallel g g' excused (bindRoot scope name v) (bindRoot scope name v) :=
  (parallel_root scope).bind fun id => parallel_bind id name v

/-- Making a scope does not look at the gauge. -/
theorem parallel_enter (parent : Option ScopeId) :
    Parallel g g' excused (enter parent) (enter parent) :=
  parallel_inWorld fun _ _ => rfl

/-- Printing does not look at the gauge. -/
theorem parallel_write (bytes : Text.Bytes) :
    Parallel g g' excused (inWorld (Run.write bytes)) (inWorld (Run.write bytes)) :=
  parallel_inWorld fun _ _ => rfl

/-- Reading a file does not look at the gauge. -/
theorem parallel_readFile (path : Text.Bytes) :
    Parallel g g' excused (inWorld (Run.readFile path)) (inWorld (Run.readFile path)) :=
  parallel_inWorld fun _ _ => rfl

/-! Operators that evaluate nothing. -/

/-- An operation on the only argument is parallel when it is on any. -/
theorem parallel_onOne (p : Primitive) (arguments : Handle) {f f' : Handle → Act Handle}
    (same : ∀ v, Parallel g g' excused (f v) (f' v)) :
    Parallel g g' excused (onOne p arguments f) (onOne p arguments f') :=
  (parallel_lift _).bind fun _ => parallel_orFail _ fun _ => (parallel_lift _).bind same

/-- An operation on two arguments is parallel when it is on any. -/
theorem parallel_onTwo (p : Primitive) (arguments : Handle) {f f' : Handle → Handle → Act Handle}
    (same : ∀ v u, Parallel g g' excused (f v u) (f' v u)) :
    Parallel g g' excused (onTwo p arguments f) (onTwo p arguments f') :=
  (parallel_lift _).bind fun _ => parallel_orFail _ fun _ =>
    (parallel_lift _).bind fun v => (parallel_lift _).bind (same v)

/-- One step of an arithmetic operation does not look at the gauge. -/
theorem parallel_combine (p : Primitive) (x y : Number) :
    Parallel g g' excused (combine p x y) (combine p x y) := by
  cases p with
  | rem =>
    simp only [combine, remainder]
    split
    · exact parallel_pure _
    · exact (parallel_pure _).bind fun _ => parallel_pure _
  | _ => exact parallel_pure _

/-- Arithmetic steps do not look at the gauge. -/
theorem parallel_combineAll (p : Primitive) (x : Number) (operands : List Number) :
    Parallel g g' excused (combineAll p x operands) (combineAll p x operands) := by
  induction operands generalizing x with
  | nil => exact parallel_pure _
  | cons y rest ih =>
    refine (parallel_combine p x y).bind fun result => ?_
    cases result with
    | ok z => exact ih z
    | error failure => exact parallel_pure _

/-- Arithmetic does not look at the gauge. -/
theorem parallel_arithmetic (p : Primitive) (arguments : Handle) :
    Parallel g g' excused (arithmetic p arguments) (arithmetic p arguments) := by
  refine (parallel_lift _).bind fun _ => parallel_orFail _ fun _ => ?_
  refine (parallel_glances _).bind fun _ => parallel_orFail _ fun _ => ?_
  refine (parallel_lift _).bind fun first => (parallel_lift _).bind fun rest => ?_
  split
  · exact parallel_pure _
  · exact (parallel_combineAll p _ _).bind fun _ => parallel_orFail _ fun _ => parallel_pure _

/-- Comparing by order does not look at the gauge. -/
theorem parallel_compareOrder (p : Primitive) (v v' : Handle) :
    Parallel g g' excused (compareOrder p v v') (compareOrder p v v') :=
  (parallel_lift _).bind fun _ => (parallel_lift _).bind fun _ =>
    parallel_orFail _ fun _ => parallel_pure _

/-- Joining conditions does not look at the gauge. -/
theorem parallel_connective (p : Primitive) (join : List Bool → Bool) (arguments : Handle) :
    Parallel g g' excused (connective p join arguments) (connective p join arguments) :=
  (parallel_lift _).bind fun _ => parallel_orFail _ fun _ =>
    (parallel_glances _).bind fun _ => parallel_orFail _ fun _ => parallel_pure _

/-- Raising a failure does not look at the gauge. -/
theorem parallel_raise (p : Primitive) (v : Handle) :
    Parallel g g' excused (raise p v) (raise p v) := by
  cases v <;> exact parallel_pure _

/-- Working in place on the only argument does not look at the gauge. -/
theorem parallel_onItems (p : Primitive) (op : Handle → ListOp Handle) (arguments : Handle) :
    Parallel g g' excused (onItems p op arguments) (onItems p op arguments) :=
  parallel_onOne p arguments fun v => (parallel_lift _).bind fun _ =>
    parallel_orFail _ fun _ => (parallel_lift _).bind fun _ => parallel_pure v

/-- Concatenating lists does not look at the gauge. -/
theorem parallel_concatenate (p : Primitive) (arguments : Handle) :
    Parallel g g' excused (concatenate p arguments) (concatenate p arguments) :=
  (parallel_lift _).bind fun _ => parallel_orFail _ fun _ => (parallel_lift _).bind fun _ =>
    parallel_orFail _ fun _ => (parallel_lift _).bind fun _ => parallel_lift _

/-- Putting an argument in front of another does not look at the gauge. -/
theorem parallel_putInFront (p : Primitive) (arguments : Handle) :
    Parallel g g' excused (putInFront p arguments) (putInFront p arguments) :=
  (parallel_lift _).bind fun _ => parallel_orFail _ fun _ => (parallel_lift _).bind fun _ =>
    (parallel_lift _).bind fun _ => parallel_orFail _ fun _ => parallel_lift _

/-- Binding names to arguments does not look at the gauge when binding one does not. -/
theorem parallel_bindFrom {put : String → Handle → Act Unit}
    (same : ∀ name v, Parallel g g' excused (put name v) (put name v)) (arguments : Handle)
    (names : List String) (index : Nat) :
    Parallel g g' excused (bindFrom put arguments index names)
      (bindFrom put arguments index names) := by
  induction names generalizing index with
  | nil => exact parallel_pure ()
  | cons name rest ih =>
    exact (parallel_lift _).bind fun v => (same name v).bind fun _ => ih (index + 1)

/-- Binding the names of the first argument does not look at the gauge when binding one does not. -/
theorem parallel_bindNames {put : String → Handle → Act Unit}
    (same : ∀ name v, Parallel g g' excused (put name v) (put name v)) (p : Primitive)
    (arguments : Handle) :
    Parallel g g' excused (bindNames put p arguments) (bindNames put p arguments) := by
  refine (parallel_lift _).bind fun _ => parallel_orFail _ fun _ => ?_
  refine (parallel_lift _).bind fun _ => (parallel_lift _).bind fun _ => ?_
  refine parallel_orFail _ fun names => (parallel_lift _).bind fun values => ?_
  split
  · exact (parallel_bindFrom same arguments names 0).bind fun _ => parallel_lift _
  · exact parallel_pure _

/-- Making a function does not look at the gauge. -/
theorem parallel_makeLambda (scope : ScopeId) (p : Primitive) (arguments : Handle) :
    Parallel g g' excused (makeLambda scope p arguments) (makeLambda scope p arguments) :=
  (parallel_lift _).bind fun _ => parallel_orFail _ fun _ => (parallel_lift _).bind fun _ =>
    (parallel_lift _).bind fun _ => (parallel_lift _).bind fun _ => parallel_orFail _ fun _ =>
      parallel_orFail _ fun _ => parallel_pure _

/-- Printing arguments does not look at the gauge. -/
theorem parallel_print (arguments : Handle) :
    Parallel g g' excused (print arguments) (print arguments) :=
  (parallel_lift _).bind fun _ => (parallel_views _).bind fun _ =>
    (parallel_write _).bind fun _ => parallel_lift _

/-- Giving the last argument does not look at the gauge. -/
theorem parallel_lastOf (arguments : Handle) :
    Parallel g g' excused (lastOf arguments) (lastOf arguments) := by
  refine (parallel_lift _).bind fun elements => ?_
  split
  · exact parallel_lift _
  · exact parallel_lift _

/-- Comparing two values does not look at the gauge. -/
theorem parallel_same (decide : Bool → Bool) (v v' : Handle) :
    Parallel g g' excused (do return Handle.bool (decide (← ListOp.same v v')))
      (do return Handle.bool (decide (← ListOp.same v v'))) :=
  (parallel_lift _).bind fun _ => parallel_pure _

/-! Operators that hand their parts to an evaluator. -/

section

variable {ev ev' : Evaluator} (same : ∀ scope v, Parallel g g' excused (ev scope v) (ev' scope v))

include same

/-- Evaluating the list in the container of a handle is parallel. -/
theorem parallel_evalRetagged (scope : ScopeId) (v : Handle) :
    Parallel g g' excused (do ev scope (← ListOp.retag .sexpr v))
      (do ev' scope (← ListOp.retag .sexpr v)) :=
  (parallel_lift _).bind (same scope)

/-- Evaluating the only argument is parallel. -/
theorem parallel_evaluateOne (scope : ScopeId) (p : Primitive) (arguments : Handle) :
    Parallel g g' excused (evaluateOne ev scope p arguments)
      (evaluateOne ev' scope p arguments) := by
  refine (parallel_lift _).bind fun _ => parallel_orFail _ fun _ => ?_
  refine (parallel_lift _).bind fun v => ?_
  split
  · exact parallel_evalRetagged same scope v
  · exact same scope v

/-- Evaluating the branch that a condition selects is parallel. -/
theorem parallel_branch (scope : ScopeId) (p : Primitive) (arguments : Handle) :
    Parallel g g' excused (branch ev scope p arguments) (branch ev' scope p arguments) := by
  refine (parallel_lift _).bind fun _ => parallel_orFail _ fun _ => ?_
  refine (parallel_lift _).bind fun _ => (parallel_lift _).bind fun _ => ?_
  refine parallel_orFail _ fun chosen => (parallel_lift _).bind fun _ => ?_
  refine parallel_orFail _ fun _ => (parallel_lift _).bind fun second => ?_
  split
  · exact (parallel_lift _).bind fun first => parallel_evalRetagged same scope first
  · exact parallel_evalRetagged same scope second

/-- Evaluating forms in order is parallel. -/
theorem parallel_each (scope : ScopeId) (expressions : List Value) :
    Parallel g g' excused (each ev scope expressions) (each ev' scope expressions) :=
  parallel_mapM (fun _ => (parallel_lift _).bind (same scope)) expressions

/-- Loading a file is parallel. -/
theorem parallel_load (scope : ScopeId) (path : Text.Bytes) :
    Parallel g g' excused (load ev scope path) (load ev' scope path) := by
  -- A file that cannot be opened or read is refused on both sides.
  refine (parallel_readFile path).bind fun contents => ?_
  cases contents with
  | error fault => exact parallel_pure _
  | ok bytes =>
    dsimp only
    cases Form.parse (withoutInterpreterLine bytes) with
    | error e => exact parallel_pure _
    | ok forms =>
      refine (parallel_root scope).bind fun outermost => ?_
      -- The forms are evaluated in the outermost scope, with the same gauge.
      refine (parallel_each same outermost _).bind fun results => ?_
      exact (parallel_views _).bind fun _ => (parallel_write _).bind fun _ => parallel_lift _

/-- Loading a named file is parallel. -/
theorem parallel_loadNamed (scope : ScopeId) (p : Primitive) (v : Handle) :
    Parallel g g' excused (loadNamed ev scope p v) (loadNamed ev' scope p v) := by
  cases v with
  | string path => exact parallel_load same scope path
  | _ => exact parallel_pure _

/-- Evaluating a quoted list in a scope of its own is parallel. -/
theorem parallel_block (scope : ScopeId) (p : Primitive) (body : Handle) :
    Parallel g g' excused (block ev scope p body) (block ev' scope p body) :=
  parallel_orFail _ fun _ => (parallel_lift _).bind fun list =>
    (parallel_enter _).bind fun own => same own list

/-- Trying clauses in order is parallel. -/
theorem parallel_selectFrom (scope : ScopeId) (arguments : Handle) (count : Nat) :
    Parallel g g' excused (selectFrom ev scope arguments count)
      (selectFrom ev' scope arguments count) := by
  -- The induction is on the clauses that are left.
  induction count with
  | zero => exact parallel_throw _
  | succ count ih =>
    refine (parallel_lift _).bind fun elements => ?_
    split
    · exact parallel_pure _
    refine (parallel_lift _).bind fun clause => (parallel_lift _).bind fun condition => ?_
    -- The condition is evaluated with both gauges alike.
    refine (same scope condition).bind fun test => ?_
    split
    · exact parallel_pure _
    refine (parallel_lift _).bind fun _ => parallel_orFail _ fun chosen => ?_
    split
    · exact (parallel_lift _).bind (same scope)
    · exact ih

/-- Selecting is parallel. -/
theorem parallel_select (scope : ScopeId) (p : Primitive) (arguments : Handle) :
    Parallel g g' excused (select ev scope p arguments) (select ev' scope p arguments) :=
  (parallel_lift _).bind fun _ => (parallel_lift _).bind fun _ =>
    parallel_orFail _ fun _ => parallel_selectFrom same scope arguments _

/-- Applying a primitive operation is parallel. -/
theorem parallel_applyPrimitive (scope : ScopeId) (p : Primitive) (arguments : Handle) :
    Parallel g g' excused (applyPrimitive ev scope p arguments)
      (applyPrimitive ev' scope p arguments) := by
  -- Only the operations that evaluate need the assumption on the evaluators.
  cases p with
  | add | sub | mul | div | rem => exact parallel_arithmetic _ arguments
  | list => exact parallel_lift _
  | head | tail => exact parallel_onItems _ _ arguments
  | join => exact parallel_concatenate _ arguments
  | cons => exact parallel_putInFront _ arguments
  | eval => exact parallel_evaluateOne same scope _ arguments
  | define => exact parallel_bindNames (parallel_bindRoot scope) _ arguments
  | assign => exact parallel_bindNames (parallel_bind scope) _ arguments
  | lambda => exact parallel_makeLambda scope _ arguments
  | equal => exact parallel_onTwo _ arguments (parallel_same id)
  | unequal => exact parallel_onTwo _ arguments (parallel_same not)
  | greater | less | greaterEq | lessEq => exact parallel_onTwo _ arguments (parallel_compareOrder _)
  | cond => exact parallel_branch same scope _ arguments
  | not =>
    exact parallel_onOne _ arguments fun _ => (parallel_lift _).bind fun _ =>
      parallel_orFail _ fun _ => parallel_pure _
  | and | or => exact parallel_connective _ _ arguments
  | error => exact parallel_onOne _ arguments (parallel_raise _)
  | print => exact parallel_print arguments
  | load => exact parallel_onOne _ arguments (parallel_loadNamed same scope _)
  | sequence => exact parallel_lastOf arguments
  | block => exact parallel_onOne _ arguments (parallel_block same scope _)
  | select => exact parallel_select same scope _ arguments

omit same in
/-- Binding names to arguments as they are taken does not look at the gauge. -/
theorem parallel_bindTaken (scope : ScopeId) (arguments : Handle) (names : List String) :
    Parallel g g' excused (bindTaken scope arguments names) (bindTaken scope arguments names) := by
  induction names with
  | nil => exact parallel_pure ()
  | cons name rest ih =>
    exact (parallel_lift _).bind fun v => (parallel_bind scope name v).bind fun _ => ih

omit same in
/-- Binding a variadic name does not look at the gauge. -/
theorem parallel_bindRest (scope : ScopeId) (arguments : Handle)
    (rest : Option (String × List Handle)) :
    Parallel g g' excused (bindRest scope arguments rest) (bindRest scope arguments rest) := by
  rcases rest with _ | ⟨name, _ | _⟩
  · exact parallel_pure ()
  · exact (parallel_lift _).bind fun v => parallel_bind scope name v
  · exact (parallel_lift _).bind fun v => parallel_bind scope name v

/-- Applying a function is parallel. -/
theorem parallel_applyLambda (formals body : Handle) (captured : Option ScopeId)
    (arguments : Handle) :
    Parallel g g' excused (applyLambda ev formals body captured arguments)
      (applyLambda ev' formals body captured arguments) := by
  refine (parallel_lift _).bind fun shape => (parallel_lift _).bind fun given => ?_
  refine (parallel_enter _).bind fun own => (parallel_bindTaken own arguments _).bind fun _ => ?_
  -- How many arguments there are is told alike, since the arguments are the same.
  split
  · exact (parallel_bindRest own arguments _).bind fun _ =>
      (parallel_lift _).bind fun copied => parallel_evalRetagged same own copied
  · exact (parallel_lift _).bind fun _ => parallel_pure _
  · exact parallel_pure _
  · exact parallel_pure _

/-- Applying an operator is parallel. -/
theorem parallel_call (scope : ScopeId) (operator arguments : Handle) :
    Parallel g g' excused (call ev scope operator arguments)
      (call ev' scope operator arguments) := by
  cases operator with
  | builtin operation =>
    cases operation with
    | primitive p => exact parallel_applyPrimitive same scope p arguments
    | _ => exact parallel_pure _
  | lambda formals body captured => exact parallel_applyLambda same formals body captured arguments
  | _ => exact parallel_pure _

/-- Evaluating slots in order is parallel. -/
theorem parallel_evalSlots (scope : ScopeId) (span : Span) (index count : Nat) :
    Parallel g g' excused (evalSlots ev scope span index count)
      (evalSlots ev' scope span index count) := by
  induction count generalizing index with
  | zero => exact parallel_pure ()
  | succ count ih =>
    refine (parallel_lift _).bind fun v => (same scope v).bind fun result => ?_
    exact (parallel_lift _).bind fun _ => ih (index + 1)

/-- Reducing the list in a container is parallel. -/
theorem parallel_reduce (scope : ScopeId) (id : CellId) :
    Parallel g g' excused (reduce ev scope id) (reduce ev' scope id) := by
  -- The elements are evaluated in their slots, and then the operator is applied to the rest.
  refine (parallel_lift _).bind fun span => ?_
  refine (parallel_evalSlots same scope span 0 span.length).bind fun _ => ?_
  refine (parallel_lift _).bind fun found => ?_
  cases found with
  | some index => exact parallel_lift _
  | none =>
    refine (parallel_lift _).bind fun items => ?_
    split
    · exact parallel_pure _
    · exact (parallel_lift _).bind (same scope)
    · exact (parallel_lift _).bind fun operator => parallel_call same scope operator _

end

end Act

end QLisp.Shared
