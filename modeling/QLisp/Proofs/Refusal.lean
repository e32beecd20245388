import QLisp.Proofs.Congruence

/-!
Reductions that are refused.

Evaluation that is watched asks for a path whenever a reduction finds no room. If the path has not been
asked for in the end, no reduction has been refused, and with more room everything would have been the
same.
-/

namespace QLisp.Run

variable {α : Type} {path : Text.Bytes} {w : World Value} {scope : ScopeId}

/-- Asks for a path, whatever it leads to. -/
def note (path : Text.Bytes) : RunIn α Unit := do
  let _ ← readFile path

/-- Evaluates an expression as evaluation does, asking for a path whenever a reduction is refused. -/
def evalNoting (path : Text.Bytes) : Nat → Evaluator
  | 0, scope, v => evalWith (fun _ => do
      note path
      return .error (.tooDeep (← get).limit)) scope v
  | room + 1, scope, v => evalWith (reduce (evalNoting path room) scope) scope v

/--
A run asks for a path, or another run does the same.

A path that has been asked for before stays so.
-/
structure SameUnless (path : Text.Bytes) (run run' : Run α) : Prop where
  /-- A path that has been asked for stays so. -/
  stays (w : World Value) : path ∈ w.asked → path ∈ (run w).2.asked
  /-- The runs do the same unless the path is asked for. -/
  same (w : World Value) : path ∈ (run w).2.asked ∨ run' w = run w

/-- If the path has not been asked for in the end, the runs do the same. -/
theorem SameUnless.eq {run run' : Run α} (agrees : SameUnless path run run')
    (quiet : path ∉ (run w).2.asked) : run' w = run w :=
  (agrees.same w).resolve_left quiet

/-- A run that forgets no path does the same as itself. -/
theorem sameUnless_refl {run : Run α} (stays : ∀ w, path ∈ w.asked → path ∈ (run w).2.asked) :
    SameUnless path run run :=
  ⟨stays, fun _ => .inr rfl⟩

/-- Doing the same unless the path is asked for is respected by evaluation. -/
theorem sameUnless (path : Text.Bytes) : Congruence fun _ => SameUnless path where
  pure a := sameUnless_refl fun _ => id
  bind {α β run run' next next'} first second := {
    stays := fun w asked => (second (run w).1).stays _ (first.stays w asked)
    same := fun w => by
      show path ∈ (next (run w).1 (run w).2).2.asked ∨
        next' (run' w).1 (run' w).2 = next (run w).1 (run w).2
      -- Once the path is asked for, nothing that follows takes that back; before that both sides
      -- are alike.
      rcases first.same w with asked | same
      · exact .inl ((second (run w).1).stays _ asked)
      · rw [same]
        exact (second (run w).1).same _ }
  scopes work := sameUnless_refl fun _ => id
  write text := sameUnless_refl fun _ => id
  readFile other := sameUnless_refl fun _ => List.mem_cons_of_mem other

/-- How lists are reduced does not matter to anything else. -/
theorem evalWith_congr {reduce reduce' : List Value → Run Value} {v : Value}
    (other : v.kind ≠ .list .sexpr) : evalWith reduce scope v = evalWith reduce' scope v := by
  cases v with
  | list kind items =>
    cases kind with
    | sexpr => exact absurd rfl other
    | qexpr => rfl
  | _ => rfl

/-- Evaluation does the same with more room, unless a reduction is refused. -/
theorem sameUnless_eval {room room' : Nat} (more : room ≤ room') (scope : ScopeId) (v : Value) :
    SameUnless path (evalNoting path room scope v) (eval room' scope v) := by
  -- The induction is on the smaller room; where it has run out, the path is asked for.
  induction room generalizing room' scope v with
  | zero =>
    have refused : ∀ run : Run Value, SameUnless path (do
        note path
        return .error (.tooDeep (← get).limit)) run := fun run =>
      ⟨fun _ => List.mem_cons_of_mem path, fun _ => .inl List.mem_cons_self⟩
    cases room' <;> exact (sameUnless path).evalWith (fun _ => refused _) scope v
  | succ room ih =>
    obtain ⟨room', rfl⟩ : ∃ less, room' = less + 1 := ⟨room' - 1, by omega⟩
    exact (sameUnless path).evalWith ((sameUnless path).reduce (ih (by omega)) scope) scope v

/-- A list that is evaluated without a refusal is reduced with one reduction less to go. -/
theorem evalNoting_sexpr {room : Nat} {items : List Value}
    (quiet : path ∉ (evalNoting path room scope (.sexpr items) w).2.asked) :
    ∃ less, room = less + 1 ∧
      evalNoting path room scope (.sexpr items) w = reduce (evalNoting path less) scope items w := by
  cases room with
  | zero => exact absurd List.mem_cons_self quiet
  | succ less => exact ⟨less, rfl, rfl⟩

end QLisp.Run
