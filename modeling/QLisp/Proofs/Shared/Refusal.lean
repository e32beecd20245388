import Mathlib.Data.Fintype.EquivFin
import QLisp.Proofs.Refusal
import QLisp.Proofs.Shared.Applying
import QLisp.Proofs.Shared.Line

/-!
Evaluation in place without a refusal.

That no reduction is refused is said by an alarm that makes no difference. An alarm that asks for a path
is seen on values too, so there the value of an expression is the one that it has with any more room.
-/

namespace QLisp.Shared

variable {proper : Prop} {mine store : CellId → Prop} {m m' : Machine} {w : World Value}
  {limit depth room : Nat} {scope : ScopeId} {path : Text.Bytes} {t : Value}

namespace Act

/-- Evaluates a value in fresh containers. -/
def evaluateFresh (scope : ScopeId) (t : Value) : Act Handle := do
  evaluate scope (← ListOp.place t)

/-- Evaluates a value in fresh containers, sounding an alarm whenever a reduction is refused. -/
def evaluateFreshWarned (alarm : Act Unit) (scope : ScopeId) (t : Value) : Act Handle := do
  evaluateWarned alarm scope (← ListOp.place t)

/-- An expression is evaluated with as much room as the limit leaves, also with an alarm. -/
theorem evaluateWarned_run (alarm : Act Unit) (scope : ScopeId) (v : Handle) :
    evaluateWarned alarm scope v m = evalWarned alarm (m.world.limit - m.depth) scope v m := rfl

/-- Asks for a path, whatever it leads to. -/
def note (path : Text.Bytes) : Act Unit :=
  inWorld (Run.note path)

/-- Asking for a path in place follows asking for it. -/
theorem follows_note (mirrors : Mirrors proper mine store m w) (path : Text.Bytes) :
    Follows proper mine store m w (note path) (Run.note path) fun _ _ _ _ => True :=
  .inl ⟨(), _, store, rfl, { mirrors with asked := congrArg (path :: ·) mirrors.asked },
    .of_world rfl rfl, trivial⟩

/-- While there is room no alarm is sounded. -/
theorem warn_allowed (alarm : Act Unit) (v : Handle) (more : m.depth < m.world.limit) :
    warn alarm v m = .ok () m := by
  rw [warn_run, if_neg fun refused => Nat.not_le.mpr more refused.2]
  rfl

/-- A list that may not be reduced sounds the alarm, and then its evaluation fails. -/
theorem follows_refused (mirrors : Mirrors proper mine store m w) (full : m.world.limit ≤ m.depth)
    {v : Handle} (list : reducible v) (act : Act Handle) :
    Follows proper mine store m w (do warn (note path) v; guarded act) (do
        Run.note path
        return .error (.tooDeep (← get).limit)) (Yields proper mine) := by
  -- The alarm sounds, and it asks for the path.
  have sounds : warn (note path) v m = note path m := by
    rw [warn_run, if_pos ⟨list, full⟩]
  refine ((follows_note mirrors path).congr sounds).bind fun store' m' _ mirrors' moves _ => ?_
  have full' : m'.world.limit ≤ m'.depth := by
    rw [moves.limit, moves.depth]
    exact full
  refine .congr ?_ (guarded_run _)
  rw [if_pos full', mirrors'.limit]
  exact follows_atom mirrors' rfl

/-- What a handle that is no list in round brackets stands for is none either. -/
theorem kind_of_irreducible {v : Handle} (yields : Yields proper mine store m v t)
    (irreducible : ¬ reducible v) : t.kind ≠ .list .sexpr := by
  obtain ⟨ids, holds, _⟩ := yields
  rw [← holds.kind]
  intro same
  cases v <;> simp_all [reducible, Handle.kind]
  rename_i tag
  cases tag <;> simp [Bare.kind] at same

/-- Where there is no room left a handle is evaluated like its value. -/
theorem simulates_without_room (path : Text.Bytes) (full : limit ≤ depth) :
    Simulates proper limit depth (evalWarned (note path) 0) (Run.evalNoting path 0) := by
  intro mine store m w scope v t mirrors ready yields
  have refused : m.world.limit ≤ m.depth := by
    rw [ready.limit, ready.depth]
    exact full
  -- A list is refused, and anything else needs no room.
  by_cases list : reducible v
  · -- Only lists in round brackets are refused.
    obtain ⟨ids, holds, free⟩ := yields
    cases holds with
    | atom same => cases v <;> simp [reducible, Handle.atom?] at list same
    | lambda => simp [reducible] at list
    | @list kind id items inner inside =>
      cases kind with
      | qexpr => simp [reducible] at list
      | sexpr => exact follows_refused mirrors refused list _
    | @bareList kind improper =>
      cases kind with
      | qexpr => simp [reducible] at list
      | sexpr => exact follows_refused mirrors refused list _
  · have quiet : warn (note path) v m = .ok () m := by
      rw [warn_run, if_neg fun refused => list refused.1]
      rfl
    refine .congr ?_ (bind_ok quiet _)
    -- Without room both evaluators take the same steps for what is no list in round brackets.
    have none : limit - depth = 0 := Nat.sub_eq_zero_of_le full
    have sim : Simulates proper limit depth (eval (limit - depth)) (Run.eval (limit - depth)) :=
      simulates_eval limit depth
    rw [none] at sim
    have same : Run.evalNoting path 0 scope t = Run.eval 0 scope t :=
      Run.evalWith_congr (kind_of_irreducible yields list)
    rw [same]
    exact sim mirrors ready yields

/-- Evaluation in place that asks for a path when a reduction is refused follows one that does so. -/
theorem simulates_evalNoting (path : Text.Bytes) (left : limit - depth = room) :
    Simulates proper limit depth (evalWarned (note path) room) (Run.evalNoting path room) := by
  -- By induction on the room; with none left a list is refused.
  induction room generalizing depth with
  | zero => exact simulates_without_room path (Nat.le_of_sub_eq_zero left)
  | succ room ih =>
    intro mine store m w scope v t mirrors ready yields
    have more : m.depth < m.world.limit := by
      rw [ready.limit, ready.depth]
      omega
    refine .congr ?_ (bind_ok (warn_allowed _ v more) _)
    exact simulates_evalWith follow_call (ih (by omega)) (by omega) mirrors ready yields

/-- A value in fresh containers is evaluated like the value when handles are evaluated like theirs. -/
theorem follows_fresh {ev : Evaluator} {run : Value → Run Value}
    (mirrors : Mirrors True mine store m w) (made : m.world.scopes.Made scope)
    (lives : t.Obeys m.lives)
    (sim : ∀ {m' : Machine} {v : Handle}, Mirrors True mine store m' w →
      Ready m.world.limit m.depth m' scope → Yields True mine store m' v t →
      Follows True mine store m' w (ev scope v) (run t) (Yields True mine)) :
    Follows True mine store m w (do ev scope (← ListOp.place t)) (run t) (Yields True mine) := by
  have ready : Ready m.world.limit m.depth m scope := ⟨made, rfl, rfl⟩
  exact .place mirrors (Machine.lives_sound lives) fun _ _ _ mirrors yields => sim mirrors ready.edit yields

/-- A value in fresh containers is evaluated like the value. -/
theorem follows_evaluateFresh (mirrors : Mirrors True mine store m w)
    (made : m.world.scopes.Made scope) (lives : t.Obeys m.lives) :
    Follows True mine store m w (evaluateFresh scope t)
      (Run.eval (m.world.limit - m.depth) scope t) (Yields True mine) :=
  follows_fresh mirrors made lives fun mirrors ready yields =>
    (simulates_eval m.world.limit m.depth mirrors ready yields).congr (by
      rw [evaluate_run, ready.limit, ready.depth])

/-- A value in fresh containers is evaluated like the value, with the same paths asked for. -/
theorem follows_evaluateFreshWarned (mirrors : Mirrors True mine store m w)
    (made : m.world.scopes.Made scope) (lives : t.Obeys m.lives) (path : Text.Bytes) :
    Follows True mine store m w (evaluateFreshWarned (note path) scope t)
      (Run.evalNoting path (m.world.limit - m.depth) scope t) (Yields True mine) :=
  follows_fresh mirrors made lives fun mirrors ready yields =>
    (simulates_evalNoting path rfl mirrors ready yields).congr (by
      rw [evaluateWarned_run, ready.limit, ready.depth])

end Act

/--
A machine has room for evaluating a value: no reduction is refused.

If a path were asked for whenever one is, it would be asked for only if it is anyway.
-/
def Machine.HasRoom (m : Machine) (scope : ScopeId) (t : Value) : Prop :=
  ∀ path, path ∈ ((Act.evaluateFreshWarned (Act.note path) scope t).after m).world.asked →
    path ∈ ((Act.evaluateFresh scope t).after m).world.asked

/-- Where there is room, a value is evaluated like one that asks for a path that it does not ask for. -/
theorem Mirrors.quiet (mirrors : Mirrors True mine store m w) (made : m.world.scopes.Made scope)
    (lives : t.Obeys m.lives) (allowed : m.HasRoom scope t) :
    ∃ path v m' store', Act.evaluateFresh scope t m = .ok v m' ∧
      let outcome := Run.evalNoting path (m.world.limit - m.depth) scope t w
      path ∉ outcome.2.asked ∧ Mirrors True mine store' m' outcome.2 ∧
        Moves mine store m store' m' ∧ Yields True mine store' m' v outcome.1 := by
  obtain ⟨v, m', store', ran, mirrors', moves, yields⟩ :=
    (Act.follows_evaluateFresh mirrors made lives).ok
  -- Only finitely many paths have been asked for, so some other path is free to tell a refusal.
  obtain ⟨path, fresh⟩ : ∃ path, path ∉ m'.world.asked := by
    obtain ⟨path, fresh⟩ := Infinite.exists_notMem_finset m'.world.asked.toFinset
    exact ⟨path, by simpa using fresh⟩
  obtain ⟨_, _, _, noting, mirrors₁, _, _⟩ :=
    (Act.follows_evaluateFreshWarned mirrors made lives path).ok
  -- If that path had been asked for, it would have been without the alarm.
  have quiet : path ∉ (Run.evalNoting path (m.world.limit - m.depth) scope t w).2.asked := by
    rw [← mirrors₁.asked]
    intro asked
    refine fresh ?_
    have anyway := allowed path
    rw [Act.after, Act.after, noting, ran] at anyway
    exact anyway asked
  -- With no refusal told, the evaluator is the one that tells none.
  have same := (Run.sameUnless_eval (Nat.le_refl _) scope t).eq quiet
  rw [same] at mirrors' yields
  exact ⟨path, v, m', store', ran, quiet, mirrors', moves, yields⟩

/-- After any requests to a session the machine mirrors the world that the requests leave. -/
theorem session_mirrors (files : Files) (requests : List Request) :
    ∃ m store, requests.forM Act.perform (Machine.standard files) = .ok () m ∧
      Mirrors True (fun _ => True) store m
        (Run.after (requests.forM Request.perform) (World.standard files)) := by
  obtain ⟨_, _, mirrors, idle⟩ := mirrors_standard files
  obtain ⟨m, store, ran, mirrors, _⟩ := mirrors.session requests idle
  exact ⟨m, store, ran, mirrors⟩

/-- A limit that is set binds nothing. -/
theorem limit_ran {n : Nat} (positive : 0 < n) (few : n ≤ World.noLimit)
    (ran : [Request.limit n].forM Act.perform m = .ok () m') :
    m'.world.limit = n ∧ ∀ id name, m'.binding? id name = m.binding? id name := by
  cases ran
  refine ⟨?_, fun _ _ => rfl⟩
  show World.limitOf n = n
  rw [World.limitOf, if_neg (by omega), Int.toNat_natCast, Nat.min_eq_left few]

end QLisp.Shared
