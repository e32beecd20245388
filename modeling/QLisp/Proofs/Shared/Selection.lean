import QLisp.Proofs.Selection
import QLisp.Proofs.Shared.Library
import QLisp.Proofs.Shared.Loading

/-!
A selection in place.

The conditions of a selection are evaluated one after the other, each on the machine that the one before
it left, and then at most one of the results. The same value comes out of conditionals in one another.
-/

namespace QLisp.Shared

variable {mine store : CellId → Prop} {m m' : Machine} {w w' : World Value} {scope : ScopeId}
  {t : Value} {clauses : List (Value × Value)} {arguments : List Value} {files : Files}

/-- Two machines have the same scopes and have printed and asked for the same. -/
structure Machine.Shows (m m' : Machine) : Prop where
  /-- The scopes are the same. -/
  scopes : m.SameScopes m'
  /-- The same text has been printed. -/
  output : m.world.output = m'.world.output
  /-- The same files have been asked for. -/
  asked : m.world.asked = m'.world.asked

/-- Machines that mirror one world show the same. -/
theorem Mirrors.shows {store' : CellId → Prop} (mirrors : Mirrors True mine store m w)
    (mirrors' : Mirrors True mine store' m' w) : m.Shows m' :=
  ⟨mirrors.sameScopes mirrors' rfl, mirrors.output.trans mirrors'.output.symm,
    mirrors.asked.trans mirrors'.asked.symm⟩

namespace Act

/-- Applies an operator to arguments in fresh containers, with some way to evaluate. -/
def applyBy (ev : Evaluator) (caller : ScopeId) (operator : Handle) (arguments : List Value) :
    Act Handle := do
  call ev caller operator (← ListOp.place (.sexpr arguments))

/--
Clauses lead to a value: their conditions are evaluated in order, each in fresh containers.

The first that fails, is no condition or holds ends this, and only in the last case is a result
evaluated.
-/
inductive Selects (scope : ScopeId) : List (Value × Value) → Machine → Value → Machine → Prop where
  /-- No clause is left. -/
  | none (m : Machine) : Selects scope [] m (.error (.raised (Text.encode "select: no selection found"))) m
  /-- The first condition gives an error. -/
  | failed {condition result : Value} {rest : List (Value × Value)} {m m' : Machine} {v : Handle}
      (tested : evaluateFresh scope condition m = .ok v m') (failed : (m'.heap.view v).isError) :
      Selects scope ((condition, result) :: rest) m (m'.heap.view v) m'
  /-- The first condition gives neither a truth value nor a number. -/
  | unfit {condition result : Value} {rest : List (Value × Value)} {m m' : Machine} {v : Handle}
      (tested : evaluateFresh scope condition m = .ok v m') (fine : ¬ (m'.heap.view v).isError)
      {failure : Failure} (unfit : Primitive.select.condition (m'.heap.view v) = .error failure) :
      Selects scope ((condition, result) :: rest) m (.error failure) m'
  /-- The first condition holds, and its result is evaluated. -/
  | chosen {condition result : Value} {rest : List (Value × Value)} {m m' m'' : Machine}
      {v u : Handle} (tested : evaluateFresh scope condition m = .ok v m')
      (fine : ¬ (m'.heap.view v).isError)
      (holds : Primitive.select.condition (m'.heap.view v) = .ok true)
      (given : evaluateFresh scope result m' = .ok u m'') :
      Selects scope ((condition, result) :: rest) m (m''.heap.view u) m''
  /-- The first condition does not hold, and the other clauses follow. -/
  | next {condition result : Value} {rest : List (Value × Value)} {m m' m'' : Machine} {v : Handle}
      {t : Value} (tested : evaluateFresh scope condition m = .ok v m')
      (fine : ¬ (m'.heap.view v).isError)
      (fails : Primitive.select.condition (m'.heap.view v) = .ok false)
      (others : Selects scope rest m' t m'') : Selects scope ((condition, result) :: rest) m t m''

end Act

/-- The first of some results that is a failure is what they give together. -/
theorem mapM_failed {α β : Type} {f : α → Except Failure β} {good rest : List α} {bad : α}
    {failure : Failure} (fine : ∀ a ∈ good, ∃ b, f a = .ok b) (failed : f bad = .error failure) :
    (good ++ bad :: rest).mapM f = .error failure := by
  -- By induction on those that come before the failure.
  induction good with
  | nil =>
    rw [List.nil_append, List.mapM_cons, failed]
    rfl
  | cons a others ih =>
    obtain ⟨b, found⟩ := fine a List.mem_cons_self
    rw [List.cons_append, List.mapM_cons, found, ih fun a member => fine a (List.mem_cons_of_mem _ member)]
    rfl

/-- Arguments that are not all clauses are refused before anything is evaluated. -/
theorem Act.select_refused {ids : List CellId} {a : CellId} {failure : Failure} (ev : Evaluator)
    (given : Arguments True mine store m a arguments ids)
    (refused : arguments.mapM Primitive.select.clause = .error failure) :
    Act.select ev scope .select (.list .sexpr a) m = .ok (.error failure) m := by
  have checks := expectAll_run (expectClause_run .select) given.inside
  refine (elements_bind _ _).trans ?_
  refine (bind_ok (m := m) (lift_ok checks) _).trans ?_
  rw [refused]
  rfl

/-- The same of arguments in fresh containers. -/
theorem Mirrors.select_refused {failure : Failure} (mirrors : Mirrors True mine store m w)
    (lives : ∀ t ∈ arguments, t.Obeys m.lives)
    (refused : arguments.mapM Primitive.select.clause = .error failure) (ev : Evaluator) :
    ∃ m', Act.applyBy ev scope (.builtin (.primitive .select)) arguments m = .ok (.error failure) m' ∧
      m'.Shows m := by
  have obeys : Value.Obeys (m.sound True).functions (.sexpr arguments) :=
    Value.obeyAll_iff.mpr fun t member => Machine.lives_sound (lives t member)
  -- The arguments are refused in place as their values are, whatever would evaluate them.
  have follows : Act.Follows True mine store m w
      (Act.applyBy ev scope (.builtin (.primitive .select)) arguments) (pure (.error failure))
      (Yields True mine) := by
    -- The arguments are placed as a list, which the operation checks.
    refine .place mirrors obeys fun v h' _ mirrors' yields => ?_
    obtain ⟨ids, holds, free⟩ := yields
    rcases holds.eq_list with ⟨a, inner, rfl, rfl, inside⟩ | ⟨improper, _⟩
    · exact (Act.follows_atom mirrors' rfl).congr (Act.select_refused ev ⟨inside, free⟩ refused)
    · exact absurd trivial improper
  obtain ⟨v, m', store', ran, mirrors', _, yields⟩ := follows.ok
  obtain rfl := yields.error
  exact ⟨m', ran, mirrors'.shows mirrors⟩

/-- Clauses in place lead to what a selection among them gives. -/
theorem Mirrors.selects (clauses : List (Value × Value)) : ∀ {m w store},
    Mirrors True (fun _ => True) store m w → m.world.scopes.Made scope →
    (∀ c ∈ clauses, c.1.Obeys m.lives ∧ c.2.Obeys m.lives) →
    let outcome := Run.select (Run.eval (m.world.limit - m.depth)) scope clauses w
    ∃ m' store', Act.Selects scope clauses m outcome.1 m' ∧
      Mirrors True (fun _ => True) store' m' outcome.2 := by
  -- The induction is on the clauses; the others are looked at on the machine that the first has left.
  induction clauses with
  | nil => exact fun mirrors _ _ => ⟨_, _, .none _, mirrors⟩
  | cons clause rest ih =>
    intro m w store mirrors made lives
    obtain ⟨condition, result⟩ := clause
    obtain ⟨tested, given⟩ := lives _ List.mem_cons_self
    -- The first condition is evaluated on the machine, as in the world.
    obtain ⟨v, m₁, store₁, ran, mirrors₁, moves, ids, holds, free⟩ :=
      (Act.follows_evaluateFresh mirrors made tested).ok
    have view := (free.stands holds).view
    have later {t : Value} (lives : t.Obeys m.lives) : t.Obeys m₁.lives :=
      Machine.lives_later lives moves.scopes
    have made₁ := moves.scopes scope made
    -- The first call has left as much room as there was.
    have room : m₁.world.limit - m₁.depth = m.world.limit - m.depth := by
      rw [moves.limit, moves.depth]
    have step := Run.choose_cons .select (Run.eval (m.world.limit - m.depth)) scope condition result rest w
    rw [← Run.select_eq] at step
    rw [step]
    generalize Run.eval (m.world.limit - m.depth) scope condition w = outcome at mirrors₁ view ⊢
    obtain ⟨test, w₁⟩ := outcome
    obtain rfl : m₁.heap.view v = test := view
    -- The first condition fails, is no condition, or tells whether its result is evaluated.
    by_cases failed : (m₁.heap.view v).isError
    · rw [if_pos failed]
      exact ⟨m₁, store₁, .failed ran failed, mirrors₁⟩
    · rw [if_neg failed]
      cases fit : Primitive.select.condition (m₁.heap.view v) with
      | error failure => exact ⟨m₁, store₁, .unfit ran failed fit, mirrors₁⟩
      | ok holds =>
        cases holds with
        | true =>
          obtain ⟨u, m₂, store₂, ran₂, mirrors₂, _, _, held, free₂⟩ :=
            (Act.follows_evaluateFresh mirrors₁ made₁ (later given)).ok
          rw [room] at mirrors₂ held
          have result : Act.Selects scope ((condition, result) :: rest) m _ m₂ :=
            .chosen ran failed fit ran₂
          rw [(free₂.stands held).view] at result
          exact ⟨m₂, store₂, result, mirrors₂⟩
        | false =>
          obtain ⟨m₂, store₂, others, mirrors₂⟩ := ih mirrors₁ made₁ fun c member =>
            (lives c (List.mem_cons_of_mem _ member)).imp later later
          rw [room, Run.select_eq] at others mirrors₂
          exact ⟨m₂, store₂, .next ran failed fit others, mirrors₂⟩

/-- A selection in place leads to what its clauses lead to, with one more reduction in progress. -/
theorem Mirrors.selection_runs {clause : Value × Value} {rest : List (Value × Value)}
    (mirrors : Mirrors True (fun _ => True) store m w) (made : m.world.scopes.Made scope)
    (lives : ∀ c ∈ clause :: rest, c.1.Obeys m.lives ∧ c.2.Obeys m.lives)
    (allowed : m.depth < m.world.limit) :
    ∃ v m₁ store₁ m₂, Act.evaluateFresh scope (Value.selection (clause :: rest)) m = .ok v m₁ ∧
      Act.Selects scope (clause :: rest) { m with depth := m.depth + 1 } (m₁.heap.view v) m₂ ∧
      m₁.Shows m₂ ∧
      let outcome := Run.select (Run.eval (m.world.limit - (m.depth + 1))) scope (clause :: rest) w
      m₁.heap.view v = outcome.1 ∧ Mirrors True (fun _ => True) store₁ m₁ outcome.2 := by
  -- The selection itself is one reduction, and its clauses have the room that is left.
  obtain ⟨room, left⟩ : ∃ room, m.world.limit - m.depth = room + 1 :=
    ⟨m.world.limit - m.depth - 1, by omega⟩
  have less : m.world.limit - (m.depth + 1) = room := by omega
  have whole : Value.Obeys m.lives (Value.selection (clause :: rest)) := by
    refine Value.obeyAll_iff.mpr fun t member => ?_
    rcases List.mem_cons.mp member with rfl | member
    · trivial
    · obtain ⟨c, inside, rfl⟩ := List.mem_map.mp member
      exact ⟨(lives c inside).1, (lives c inside).2, trivial⟩
  obtain ⟨v, m₁, store₁, ran, mirrors₁, _, ids, holds, free⟩ :=
    (Act.follows_evaluateFresh mirrors made whole).ok
  rw [left, Run.eval_selection] at mirrors₁ holds
  have deeper := mirrors.atDepth (m.depth + 1)
  obtain ⟨m₂, store₂, selects, mirrors₂⟩ := deeper.selects (clause :: rest) made lives
  rw [less] at selects mirrors₂
  have view := (free.stands holds).view
  rw [← view] at selects
  rw [less]
  exact ⟨v, m₁, store₁, m₂, ran, selects, mirrors₁.shows mirrors₂, view, mirrors₁⟩

/-- Where there is room for conditionals in one another, they give what a selection gives. -/
theorem Mirrors.conditionals_run (mirrors : Mirrors True (fun _ => True) store m w) (tidy : w.Tidy)
    (made : m.world.scopes.Made scope)
    (lives : ∀ c ∈ clauses, c.1.Obeys m.lives ∧ c.2.Obeys m.lives)
    (regular : ∀ c ∈ clauses, c.1.Regular ∧ c.2.Regular)
    (allowed : m.HasRoom scope (.sexpr (Value.conditionals clauses))) :
    ∃ v m₁ store₁, Act.evaluateFresh scope (.sexpr (Value.conditionals clauses)) m = .ok v m₁ ∧
      let outcome := Run.select (Run.eval (m.world.limit - (m.depth + 1))) scope clauses w
      Run.SameButCaller .select .cond outcome.1 (m₁.heap.view v) ∧
        Mirrors True (fun _ => True) store₁ m₁ outcome.2 := by
  -- The chain is made of the clauses and of operations.
  have whole (clauses : List (Value × Value)) :
      (∀ c ∈ clauses, c.1.Obeys m.lives ∧ c.2.Obeys m.lives) →
      Value.Obeys m.lives (.sexpr (Value.conditionals clauses)) := by
    induction clauses with
    | nil => exact fun _ => ⟨trivial, trivial, trivial⟩
    | cons c rest ih =>
      intro lives
      obtain ⟨condition, result⟩ := lives c List.mem_cons_self
      exact ⟨trivial, condition, ⟨result, trivial⟩,
        ih fun c member => lives c (List.mem_cons_of_mem _ member), trivial⟩
  -- No reduction is refused, so the chain is evaluated like one that tells of refusals.
  obtain ⟨path, v, m₁, store₁, ran, quiet, mirrors₁, _, ids, holds, free⟩ :=
    mirrors.quiet made (whole clauses lives) allowed
  have roomier : m.world.limit - m.depth ≤ m.world.limit - (m.depth + 1) + 1 := by omega
  -- Telling no refusal, the chain has chosen what the selection chooses.
  have same := Run.evalNoting_conditionals tidy regular roomier quiet
  have view := (free.stands holds).view
  -- The callers differ in the name that a failure tells, and in nothing else.
  obtain ⟨alike, worlds⟩ := Run.choose_caller .select .cond
    (Run.eval (m.world.limit - (m.depth + 1))) scope clauses w
  rw [same, ← worlds] at mirrors₁
  rw [same] at view
  refine ⟨v, m₁, store₁, ran, ?_⟩
  rw [Run.select_eq, view]
  exact ⟨alike, mirrors₁⟩

/--
A selection is a chain of conditionals.

After any requests to a session, in any scope and with any number of reductions in progress: if an
argument of a selection is not a quoted list of two elements, the selection fails with the reason for the
first such argument, and nothing is evaluated, whatever the way to evaluate. Otherwise, if the selection
may be reduced, the conditions are evaluated in order, each on the machine that the one before it left,
up to the first that fails, is no condition or holds, and in the last case its result is evaluated. Where
there is room for it, the chain of conditionals gives the same result, but for the operation that a wrong
type is reported by, and leaves the same scopes, output and files asked for.
-/
theorem selection_chains (files : Files) (requests : List Request) :
    ∃ m, requests.forM Act.perform (Machine.standard files) = .ok () m ∧
      ∀ (depth : Nat) (scope : ScopeId), m.world.scopes.Made scope →
        let here := { m with depth := depth }
        (∀ good bad rest failure, (∀ t ∈ good ++ bad :: rest, t.Obeys here.lives) →
          (∀ t ∈ good, ∃ c, Primitive.select.clause t = .ok c) →
          Primitive.select.clause bad = .error failure →
          ∀ ev, ∃ m', Act.applyBy ev scope (.builtin (.primitive .select)) (good ++ bad :: rest) here =
            .ok (.error failure) m' ∧ m'.Shows here) ∧
        ∀ clauses, clauses ≠ [] → (∀ c ∈ clauses, c.1.Obeys here.lives ∧ c.2.Obeys here.lives) →
          (∀ c ∈ clauses, c.1.Regular ∧ c.2.Regular) → depth < here.world.limit →
          ∃ v m₁ m₂, Act.evaluateFresh scope (Value.selection clauses) here = .ok v m₁ ∧
            Act.Selects scope clauses { m with depth := depth + 1 } (m₁.heap.view v) m₂ ∧
            m₁.Shows m₂ ∧
            (here.HasRoom scope (.sexpr (Value.conditionals clauses)) →
              ∃ v' m₃, Act.evaluateFresh scope (.sexpr (Value.conditionals clauses)) here = .ok v' m₃ ∧
                Run.SameButCaller .select .cond (m₁.heap.view v) (m₃.heap.view v') ∧ m₁.Shows m₃) := by
  obtain ⟨m, store, ran, mirrors⟩ := session_mirrors files requests
  have tidy := (World.tidy_standard files).session requests
  refine ⟨m, ran, fun depth scope made => ?_⟩
  intro here
  have mirrored : Mirrors True (fun _ => True) store here _ := mirrors.atDepth _
  -- A refused argument is found before anything is evaluated.
  refine ⟨fun good bad rest failure lives fine failed => ?_, ?_⟩
  · exact mirrored.select_refused lives (mapM_failed fine failed)
  · intro clauses some lives regular allowed
    obtain ⟨clause, rest, rfl⟩ := List.exists_cons_of_ne_nil some
    -- The selection is run on the machine, and then the chain of conditionals.
    obtain ⟨v, m₁, store₁, m₂, ran₁, selects, shows, view, mirrors₁⟩ :=
      mirrored.selection_runs made lives allowed
    refine ⟨v, m₁, m₂, ran₁, selects, shows, fun roomy => ?_⟩
    obtain ⟨v', m₃, store₃, ran₃, alike, mirrors₃⟩ :=
      mirrored.conditionals_run tidy made lives regular roomy
    rw [← view] at alike
    exact ⟨v', m₃, ran₃, alike, mirrors₁.shows mirrors₃⟩

/-- A number is refused as a clause, and the second of two clauses is selected. -/
theorem selection_chains_second :
    let clauses : List (Value × Value) :=
      [(.bool false, .symbol "a"), (.bool true, .number (.ofInt 1))]
    ∃ m, [Request.limit 50].forM Act.perform (Machine.standard fun _ => .error .missing) = .ok () m ∧
      let here := { m with depth := 0 }
      (∀ ev, ∃ m', Act.applyBy ev Scopes.global (.builtin (.primitive .select))
        [Value.clause (.bool true, .symbol "a"), .number (.ofInt 1)] here =
          .ok (.error (.wrongType "select" (.list .qexpr) .number)) m' ∧ m'.Shows here) ∧
      ∃ v m₁ v' m₃, Act.evaluateFresh Scopes.global (Value.selection clauses) here = .ok v m₁ ∧
        Act.evaluateFresh Scopes.global (.sexpr (Value.conditionals clauses)) here = .ok v' m₃ ∧
        Run.SameButCaller .select .cond (m₁.heap.view v) (m₃.heap.view v') ∧ m₁.Shows m₃ := by
  intro clauses
  let files : Files := fun _ => .error .missing
  obtain ⟨m, ran, right⟩ := selection_chains files [.limit 50]
  obtain ⟨m', store, ran', mirrors⟩ := session_mirrors files [.limit 50]
  obtain rfl : m = m' := by
    injection ran.symm.trans ran'
  obtain ⟨limit, _⟩ := limit_ran (by decide) (by decide) ran
  obtain ⟨refuses, selects⟩ := right 0 Scopes.global mirrors.global
  have idle := mirrors.atDepth 0
  -- The chain needs a reduction for each conditional, and one for the result.
  have computes (ev : Nat → QLisp.Evaluator) [Run.Stepwise ev] {w : World Value} : Run.Computes ev 3
      Scopes.global (.sexpr (Value.conditionals clauses)) w (.number (.ofInt 1)) := by
    have number {n : Nat} : Run.Computes ev n Scopes.global (.number (.ofInt 1)) w
        (.number (.ofInt 1)) := .of_still fun _ => Run.evaluates_number _
    have truth {n : Nat} (b : Bool) : Run.Computes ev n Scopes.global (.bool b) w (.bool b) :=
      .of_still fun _ => Run.evaluates_bool b
    have second : Run.Computes ev 2 Scopes.global (.sexpr (Value.conditionals
        [(.bool true, .number (.ofInt 1))])) w (.number (.ofInt 1)) :=
      .call (.cons (Run.computes_primitive _) (.cons (truth true) (.cons (Run.computes_qexpr _)
        (.cons (Run.computes_qexpr _) Run.computesAll_nil)))) rfl
        (Run.returns_cond rfl (.lone (number (n := 0)) rfl number))
    exact .call (.cons (Run.computes_primitive _) (.cons (truth false) (.cons (Run.computes_qexpr _)
      (.cons (Run.computes_qexpr _) Run.computesAll_nil)))) rfl (Run.returns_cond rfl second)
  -- One argument is a clause and the other is a number.
  refine ⟨m, ran, refuses [_] _ [] _ ?_ ?_ rfl, ?_⟩
  · simp [Value.clause, Value.qexpr, Value.Obeys, Value.ObeyAll]
  · simp [Value.clause, Value.qexpr, Primitive.clause]
  · have plain : Value.Obeys (Machine.lives { m with depth := 0 })
        (.sexpr (Value.conditionals clauses)) := by
      simp [clauses, Value.conditionals, Value.sexpr, Value.qexpr, Value.primitive, Value.Obeys,
        Value.ObeyAll]
    have roomy := idle.hasRoom mirrors.global plain (limit ▸ (by decide : 3 ≤ 50 - 0))
      fun ev _ => computes ev
    obtain ⟨v, m₁, _, ran₁, _, _, chain⟩ := selects clauses (by simp [clauses])
      (by simp [clauses, Value.Obeys]) (by simp [clauses, Value.Regular])
      (limit ▸ (by decide : 0 < 50))
    obtain ⟨v', m₃, ran₃, alike, shows⟩ := chain roomy
    exact ⟨v, m₁, v', m₃, ran₁, ran₃, alike, shows⟩

end QLisp.Shared
