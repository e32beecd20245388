import QLisp.Proofs.Rooted
import QLisp.Proofs.Shared.Reachable
import QLisp.Proofs.Shared.Script

/-! Requests to a session leave bindings isolated from everything outside the scopes. -/

namespace QLisp.Shared

variable {kept : CellId → Prop} {m m' : Machine}

/-- A source leaves bindings isolated. -/
theorem Isolated.after_evaluateSource (isolated : Isolated kept m) (source : Source) :
    ∃ kept', Isolated kept' ((Act.evaluateSource source).after m) := by
  have asked : Step (fun _ => False) kept m kept (m.asking source.paths) :=
    isolated.step_of_same rfl rfl
  cases read : source.read m.world.files with
  -- A source that cannot be read is reported, and only the paths asked for are new.
  | error e =>
    rw [Act.after, Act.evaluateSource_unread read]
    exact ⟨kept, asked.isolated⟩
  | ok expressions =>
    -- What is read holds no functions.
    obtain ⟨kept', later⟩ := asked.isolated.after_each fun t member =>
      Source.obeys_of_read read t member (m.asking source.paths).captures
    have same : (Act.evaluateSource source).after m =
        (Act.each Act.evaluate Scopes.global expressions).after (m.asking source.paths) := by
      rw [Act.after, Act.after, Act.evaluateSource_read read]
      simp only [Bind.bind, EStateM.bind]
      cases Act.each Act.evaluate Scopes.global expressions (m.asking source.paths) <;> rfl
    exact ⟨kept', same ▸ later⟩

/-- Binding the arguments of the program is isolating. -/
theorem Act.isolating_setArguments (isolated : Isolated kept m) (list : List Text.Bytes) :
    Isolating (fun _ => False) kept m (setArguments list) fun _ _ _ => True := by
  have strings : ∀ v ∈ list.map Handle.string, Outside kept m.world.scopes.Made m.heap v := by
    intro v member
    obtain ⟨text, _, rfl⟩ := List.mem_map.mp member
    exact loose_of_plain rfl rfl
  refine (isolating_lift_loose isolated (ListOp.harmless_make isolated.apart strings)).bind
    fun kept₁ m₁ v step loose => ?_
  exact isolating_bindRoot step.isolated (step.made isolated.global) "argv" loose

/-- A request leaves bindings isolated. -/
theorem Isolated.perform (isolated : Isolated kept m) {request : Request}
    (ran : Act.perform request m = .ok () m') : ∃ kept', Isolated kept' m' := by
  -- A list is bound, the limit is set, or a source is evaluated.
  cases request with
  -- Binding a list and setting a limit take one step each.
  | arguments list =>
    obtain ⟨kept', step, _⟩ := (Act.isolating_setArguments isolated list).ok ran
    exact ⟨kept', step.isolated⟩
  | limit setting =>
    have safe : Act.Isolating (fun _ => False) kept m (Act.setLimit setting) fun _ _ _ => True :=
      Act.isolating_inWorld isolated rfl
    obtain ⟨kept', step, _⟩ := safe.ok ran
    exact ⟨kept', step.isolated⟩
  | evaluate source =>
    obtain ⟨answer, m₁, evaluated, rest⟩ := Act.of_bind_ok ran
    obtain ⟨kept', later⟩ := isolated.after_evaluateSource source
    rw [Act.after, evaluated] at later
    cases rest
    exact ⟨kept', later⟩

/-- Any requests leave bindings isolated. -/
theorem Isolated.session (requests : List Request) : ∀ {kept : CellId → Prop} {m : Machine},
    Isolated kept m → requests.forM Act.perform m = .ok () m' → ∃ kept', Isolated kept' m' := by
  -- The induction is on the requests; each starts on the machine that the last one left.
  induction requests with
  | nil =>
    intro kept m isolated ran
    cases ran
    exact ⟨kept, isolated⟩
  | cons request rest ih =>
    intro kept m isolated ran
    obtain ⟨_, m₁, first, later⟩ := Act.of_bind_ok ran
    obtain ⟨kept₁, isolated₁⟩ := isolated.perform first
    exact ih isolated₁ later

end QLisp.Shared
