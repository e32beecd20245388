import QLisp.Proofs.Loading
import QLisp.Proofs.Shared.Limit
import QLisp.Proofs.Shared.NormalForms

/-!
Loading a file does what evaluating it at the top level does.

A file may be loaded in the middle of an evaluation, with any number of reductions in progress, from a
scope in which every name means something else. Its forms are evaluated in the global scope all the
same, so it leaves what it leaves at the top level, as long as the limit refuses no reduction.
-/

namespace QLisp.Shared

variable {mine store store' : CellId → Prop} {m m' : Machine} {w w' : World Value} {a : CellId}
  {ids : List CellId} {limit depth : Nat} {scope : ScopeId} {path : Text.Bytes} {arguments : Handle}

namespace Machine

/-- Two machines have the same scopes, with the same parents and the same bindings. -/
structure SameScopes (m m' : Machine) : Prop where
  /-- The same scopes have been made. -/
  made (id : ScopeId) : m.world.scopes.Made id ↔ m'.world.scopes.Made id
  /-- The scopes have the same parents. -/
  parent? (id : ScopeId) : m.world.scopes.parent? id = m'.world.scopes.parent? id
  /-- They bind the same names to the same values. -/
  bound (id : ScopeId) (name : String) : m.binding? id name = m'.binding? id name

/-- Applying an operator refuses no reduction: sounding an alarm if it did makes no difference. -/
def Unrefused (m : Machine) (scope : ScopeId) (operator arguments : Handle) : Prop :=
  ∀ alarm, Act.call (Act.evalWarned alarm (m.world.limit - m.depth)) scope operator arguments m =
    Act.apply scope operator arguments m

/-- Loading a file fails, prints nothing and leaves the scopes as they are. -/
def LoadFails (m : Machine) (scope : ScopeId) (arguments : Handle) (path : Text.Bytes)
    (failure : Failure) : Prop :=
  ∃ m', Act.apply scope (.builtin (.primitive .load)) arguments m = .ok (.error failure) m' ∧
    m'.world.output = m.world.output ∧ m'.world.asked = path :: m.world.asked ∧ m'.SameScopes m

/-- Loading a file does what evaluating it at the top level does, and then prints its errors. -/
def LoadEvaluates (m : Machine) (scope : ScopeId) (arguments : Handle) (path : Text.Bytes) : Prop :=
  ∃ results m₁ v m₂, Act.evaluateFile path { m with depth := 0 } = .ok (.ok results) m₁ ∧
    Act.apply scope (.builtin (.primitive .load)) arguments m = .ok v m₂ ∧
    m₂.heap.view v = .unit ∧
    m₂.world.output = m₁.world.output ++ Value.errorLines (results.map m₁.heap.view) ∧
    m₂.world.asked = m₁.world.asked ∧ m₂.SameScopes m₁

/-- Loading a file depends on what the path holds, and agrees with evaluating it at the top level. -/
def LoadAgrees (m : Machine) (scope : ScopeId) (arguments : Handle) (path : Text.Bytes) : Prop :=
  match m.world.files path with
  | .error fault => m.LoadFails scope arguments path (.raised (Text.encode "load: " ++ fault.message path))
  | .ok bytes =>
    match Form.parse (withoutInterpreterLine bytes) with
    | .error e =>
      m.LoadFails scope arguments path (.malformedSource
      (Text.encode "load " ++ path ++ Text.encode (": " ++ e.message)))
    | .ok _ =>
      m.Unrefused scope (.builtin (.primitive .load)) arguments → m.LoadEvaluates scope arguments path

/-- An operator is applied below the global scope, and if it loads a file then it does so as it should. -/
def LoadsRight (m : Machine) (scope : ScopeId) (operator arguments : Handle) : Prop :=
  m.world.scopes.root scope = Scopes.global ∧
    ∀ path, operator = .builtin (.primitive .load) → m.heap.elements arguments = [.string path] →
      m.LoadAgrees scope arguments path

end Machine

open Classical in
/-- Applies an operator, printing a text first if a file would not be loaded as it should. -/
noncomputable def Act.callWatching (text : Text.Bytes) : Caller := fun ev scope operator arguments => do
  let machine ← get
  unless machine.LoadsRight scope operator arguments do inWorld (Run.write text)
  call ev scope operator arguments

/-- Machines that mirror worlds with the same scopes have the same scopes. -/
theorem Mirrors.sameScopes (mirrors : Mirrors True mine store m w)
    (mirrors' : Mirrors True mine store' m' w') (same : w.scopes = w'.scopes) : m.SameScopes m' where
  made id := by rw [← mirrors.made, ← mirrors'.made, same]
  parent? id := by rw [mirrors.parent?, mirrors'.parent?, same]
  bound id name := by rw [mirrors.binding?, mirrors'.binding?, same]

/-- A handle that stands for an error is that error. -/
theorem Yields.error {v : Handle} {failure : Failure}
    (yields : Yields True mine store m v (.error failure)) : v = .error failure := by
  obtain ⟨ids, holds, _⟩ := yields
  cases holds with
  | atom same => cases v <;> simp_all [Handle.atom?]

/-- The names of the arguments that stand for one string. -/
theorem Arguments.string {ts : List Value} (arguments : Arguments True mine store m a ts ids)
    (items : m.heap.items a = [.string path]) : ts = [.string path] := by
  have inside := arguments.inside
  rw [items] at inside
  cases inside with
  | cons head tail =>
    cases tail
    cases head with
    | atom same => cases same; rfl

namespace Act

variable {ev : Evaluator} {ev' : QLisp.Evaluator}

/-- Applying the operation that loads follows loading the file in the outermost scope. -/
theorem follows_loading (sim : Simulates True limit depth ev ev')
    (mirrors : Mirrors True mine store m w) (ready : Ready limit depth m scope)
    (arguments : Arguments True mine store m a [.string path] ids)
    (outermost : m.world.scopes.root scope = Scopes.global) :
    Follows True mine store m w (call ev scope (.builtin (.primitive .load)) (.list .sexpr a))
      (Run.load ev' Scopes.global path) (Yields True mine) := by
  -- The operation is an atom, so it needs no container.
  have operator : Holds m.heap (m.sound True) (.builtin (.primitive .load)) (.primitive .load) [] :=
    .atom rfl
  have follows : Follows True mine store m w
      (call ev scope (.builtin (.primitive .load)) (.list .sexpr a))
      (Run.call ev' scope (.primitive .load) [.string path]) (Yields True mine) :=
    follows_call sim mirrors ready operator arguments arguments.free
  have same : Run.call ev' scope (.primitive .load) [.string path] w =
      Run.load ev' (w.scopes.root scope) path w := rfl
  rw [← mirrors.root, outermost] at same
  exact follows.congrRun same.symm

/-- Applying the operation that loads, with the room that is left, follows loading the file. -/
theorem follows_applyLoading (mirrors : Mirrors True mine store m w) (ready : Ready limit depth m scope)
    (arguments : Arguments True mine store m a [.string path] ids)
    (outermost : m.world.scopes.root scope = Scopes.global) :
    Follows True mine store m w (apply scope (.builtin (.primitive .load)) (.list .sexpr a))
      (Run.load (Run.eval (limit - depth)) Scopes.global path) (Yields True mine) := by
  refine (follows_loading (simulates_eval limit depth) mirrors ready arguments outermost).congr ?_
  rw [apply_run, ready.limit, ready.depth]

end Act

/-- A file that is not loaded leaves everything but the paths that have been asked for. -/
theorem Mirrors.load_fails {failure : Failure} (mirrors : Mirrors True mine store m w)
    (ready : Ready limit depth m scope) (arguments : Arguments True mine store m a [.string path] ids)
    (outermost : m.world.scopes.root scope = Scopes.global)
    (fails : ∀ ev', Run.load ev' Scopes.global path w =
      (.error failure, { w with asked := path :: w.asked })) :
    m.LoadFails scope (.list .sexpr a) path failure := by
  obtain ⟨v, m', store', ran, mirrors', _, yields⟩ :=
    (Act.follows_applyLoading mirrors ready arguments outermost).ok
  rw [fails] at mirrors' yields
  obtain rfl := yields.error
  exact ⟨m', ran, mirrors'.output.trans mirrors.output.symm,
    mirrors'.asked.trans (congrArg (path :: ·) mirrors.asked.symm), mirrors'.sameScopes mirrors rfl⟩

/-- Applying an operator without a refused reduction does the same with the whole limit as its room. -/
theorem Act.apply_idle {operator v : Handle} (unrefused : m.Unrefused scope operator arguments)
    (ran : Act.apply scope operator arguments m = .ok v m') :
    Act.call Act.evaluate scope operator arguments { m with depth := 0 } =
      .ok v { m' with depth := 0 } := by
  -- Stopping at the first refusal changes nothing, and so does starting without a reduction.
  have roomier : m.world.limit - m.depth ≤ m.world.limit - 0 := by omega
  have inner : ∀ scope v, Act.Parallel ⟨m.world.limit, m.depth⟩ ⟨m.world.limit, 0⟩ (· = .unending)
      (Act.evalWarned (throw .unending) (m.world.limit - m.depth) scope v) (Act.evaluate scope v) :=
    Act.parallel_evalWarned .unending roomier
  have side := Act.parallel_call inner scope operator arguments m
  have here : m.gauged ⟨m.world.limit, m.depth⟩ = m := rfl
  rw [here, unrefused, ran] at side
  obtain ⟨gauge, idle⟩ := side
  have same : m'.gauged ⟨m.world.limit, 0⟩ = { m' with depth := 0 } := by
    have limit : m'.world.limit = m.world.limit := congrArg Gauge.limit gauge
    rw [Machine.gauged, ← limit]
  rw [same] at idle
  exact idle

/-- A file of forms is loaded as it is evaluated at the top level. -/
theorem Mirrors.load_evaluates {bytes : Text.Bytes} {forms : List Form}
    (mirrors : Mirrors True mine store m w) (ready : Ready limit depth m scope)
    (arguments : Arguments True mine store m a [.string path] ids)
    (outermost : m.world.scopes.root scope = Scopes.global) (found : w.files path = .ok bytes)
    (parsed : Form.parse (withoutInterpreterLine bytes) = .ok forms)
    (unrefused : m.Unrefused scope (.builtin (.primitive .load)) (.list .sexpr a)) :
    m.LoadEvaluates scope (.list .sexpr a) path := by
  -- The file is evaluated to results on values, and loading it reports the errors among them.
  obtain ⟨results, u, answered, loaded⟩ := Run.load_forms found parsed
  obtain ⟨v, m₂, _, ran, _⟩ := (Act.follows_applyLoading mirrors ready arguments outermost).ok
  -- With no reduction in progress, both follow what is done on values.
  have idle := mirrors.atDepth 0
  have top : Ready limit 0 { m with depth := 0 } scope := ⟨ready.made, ready.limit, rfl⟩
  have given : Arguments True mine store { m with depth := 0 } a [.string path] ids :=
    ⟨arguments.inside, arguments.free⟩
  obtain ⟨answer, m₁, _, evaluated, mirrors₁, _, good⟩ :=
    (Act.follows_evaluateSource idle (top.within idle.global) (.file path)).ok
  -- Loading is what the program does with the file, at the depth of the call.
  obtain ⟨v', m₂', _, ran', mirrors₂, _, yields⟩ :=
    (Act.follows_loading Act.simulates_evaluate idle top given outermost).ok
  cases (Act.apply_idle unrefused ran).symm.trans ran'
  have top : Run.evaluateSource (.file path) w = (.ok results, u) := answered
  rw [top] at mirrors₁ good
  rw [loaded] at mirrors₂ yields
  -- A file that can be read is answered with values.
  cases answer with
  | error e => exact good.elim
  | ok handles =>
    -- The values are seen as those of the world, and the errors among them are told.
    have seen : handles.map m₁.heap.view = results := YieldsAll.views good
    have view : ({ m₂ with depth := 0 } : Machine).heap.view v = .unit := by
      obtain ⟨_, holds, free⟩ := yields
      exact (free.stands holds).view
    have mirrors₂ : Mirrors True mine _ m₂ _ := { mirrors₂ with }
    refine ⟨handles, m₁, v, m₂, evaluated, ran, view, ?_, ?_, mirrors₂.sameScopes mirrors₁ rfl⟩
    · rw [mirrors₂.output, mirrors₁.output, seen]
    · rw [mirrors₂.asked, mirrors₁.asked]

/-- Loading a file at any moment agrees with evaluating it at the top level. -/
theorem Mirrors.load_agrees (mirrors : Mirrors True mine store m w) (ready : Ready limit depth m scope)
    (arguments : Arguments True mine store m a [.string path] ids)
    (outermost : m.world.scopes.root scope = Scopes.global) :
    m.LoadAgrees scope (.list .sexpr a) path := by
  rw [Machine.LoadAgrees, mirrors.files]
  -- The file cannot be opened, cannot be read, or is loaded form by form.
  cases found : w.files path with
  | error fault =>
    exact mirrors.load_fails ready arguments outermost fun _ => Run.load_missing found
  | ok bytes =>
    simp only
    cases parsed : Form.parse (withoutInterpreterLine bytes) with
    | error e =>
      exact mirrors.load_fails ready arguments outermost fun _ => Run.load_malformed found parsed
    | ok forms => exact mirrors.load_evaluates ready arguments outermost found parsed

/-- Watching loads in place follows watching the scopes in which operators are applied. -/
theorem Act.follow_callWatching (text : Text.Bytes) :
    Follow True (Act.callWatching text) (Run.callWatching text) := by
  classical
  intro mine store m w limit depth scope ev ev' operator operator' a ts ids ids' sim mirrors ready
    head arguments free
  -- Below the global scope every file is loaded as it should be.
  have right : m.LoadsRight scope operator (.list .sexpr a) ↔ w.scopes.root scope = Scopes.global := by
    rw [← mirrors.root]
    refine ⟨fun right => right.1, fun outermost => ⟨outermost, fun path _ items => ?_⟩⟩
    obtain rfl := arguments.string items
    exact mirrors.load_agrees ready arguments outermost
  -- Watching a call means to look at it, and to write when it is not as it should be.
  have here : Act.callWatching text ev scope operator (.list .sexpr a) m =
      (if m.LoadsRight scope operator (.list .sexpr a) then
        Act.call ev scope operator (.list .sexpr a)
      else do inWorld (Run.write text); Act.call ev scope operator (.list .sexpr a)) m := rfl
  have there : Run.callWatching text ev' scope operator' ts w =
      (if w.scopes.root scope = Scopes.global then Run.call ev' scope operator' ts
      else do Run.write text; Run.call ev' scope operator' ts) w := rfl
  refine .congrRun (.congr ?_ here) there
  -- Below the global scope nothing is written, and elsewhere both write the text first.
  by_cases outermost : w.scopes.root scope = Scopes.global
  · rw [if_pos outermost, if_pos (right.mpr outermost)]
    exact Act.follows_call sim mirrors ready head arguments free
  · rw [if_neg outermost, if_neg (right.not.mpr outermost)]
    have told := Act.follows_write (mirrors.narrow []) text
    exact Act.follows_beforeCall told sim mirrors ready head arguments free

/--
Loading a file agrees with evaluating it at the top level.

After any requests to a session, a further source is evaluated, and whenever an operator is applied on
the way, it is in a scope below the global one. If it is the operation that loads, and is given a path,
then with a file that cannot be read it gives an error that is raised, with one that is no sequence of
forms an error about source text, and in both cases nothing is printed and no scope changes. Otherwise
it gives the empty list and leaves the scopes that evaluating the file at the top level leaves from
there, and what it prints is what that prints, followed by the errors among the results, each on a line
of its own, provided that no reduction is refused. An evaluator that prints some text whenever any of
this is not so has the same output.
-/
theorem load_agrees_file (files : Files) (requests : List Request) (source : Source) :
    ∃ m, requests.forM Act.perform (Machine.standard files) = .ok () m ∧
      ∃ answer m', Act.evaluateSource source m = .ok answer m' ∧
        ∀ text, ∃ watched m'',
          Act.evaluateSourceBy (Act.evaluateVia (Act.callWatching text)) source m =
            .ok watched m'' ∧
          m''.world.output = m'.world.output := by
  obtain ⟨_, _, mirrors, idle⟩ := mirrors_standard files
  obtain ⟨m, store, ran, mirrors, idle⟩ := mirrors.session requests idle
  have rooted := (World.rooted_standard files).session requests
  have ready : Ready m.world.limit 0 m Scopes.global := ⟨mirrors.global, rfl, idle⟩
  obtain ⟨answer, m', _, evaluated, mirrors', _⟩ :=
    (Act.follows_evaluateSource mirrors ready source).ok
  refine ⟨m, ran, answer, m', evaluated, fun text => ?_⟩
  -- Watching in place follows watching of scopes, where there is nothing to print.
  obtain ⟨watched, m'', _, evaluated', mirrors'', _⟩ := (Act.follows_evaluateSourceBy
    (Act.simulates_evaluateVia (Act.follow_callWatching text)) mirrors ready source).ok
  -- So the output is the same, with all calls of `load` watched.
  refine ⟨watched, m'', evaluated', ?_⟩
  rw [mirrors''.output, Run.output_watching rooted, mirrors'.output]

end QLisp.Shared
