import QLisp.Proofs.Congruence
import QLisp.Proofs.Settling
import QLisp.Proofs.Source

/-!
Files that are not asked for.

What some files hold does not matter to a run that never asks for any of them. So all that is said of
runs with files of some kind holds of a run that has only asked for such files.
-/

namespace QLisp

variable {α : Type} {barred : Text.Bytes → Prop} {w : World Value} {source : Source}

/-- The files without those that are barred, which cannot be found. -/
noncomputable def Files.censored (barred : Text.Bytes → Prop) (files : Files) : Files :=
  open Classical in fun path => if barred path then .error .missing else files path

namespace World

/-- The world without the files that are barred. -/
noncomputable def censored (barred : Text.Bytes → Prop) (w : World Value) : World Value :=
  { w with files := w.files.censored barred }

/-- A file has been asked for that is barred. -/
def Tainted (barred : Text.Bytes → Prop) (w : World Value) : Prop :=
  ∃ path ∈ w.asked, barred path

end World

namespace Run

/--
Two runs do the same where barred files cannot be found, unless they ask for one.

A path that has been asked for before stays so.
-/
structure Censored (barred : Text.Bytes → Prop) (run run' : Run α) : Prop where
  /-- A path that has been asked for stays so. -/
  stays (w : World Value) : w.Tainted barred → (run w).2.Tainted barred
  /-- So it does in the other run. -/
  stays' (w : World Value) : w.Tainted barred → (run' w).2.Tainted barred
  /-- Both ask for a barred file, or they do the same. -/
  same (w : World Value) :
    (run w).2.Tainted barred ∧ (run' (w.censored barred)).2.Tainted barred ∨
      run' (w.censored barred) = ((run w).1, (run w).2.censored barred)

namespace Censored

variable {run run' : Run α} (runs : Censored barred run run')
include runs

/-- If no barred file has been asked for, the other run does the same where these cannot be found. -/
theorem eq (quiet : ¬ (run w).2.Tainted barred) :
    run' (w.censored barred) = ((run w).1, (run w).2.censored barred) :=
  (runs.same w).resolve_left fun asked => quiet asked.1

/-- So it does if it has not asked for a barred file itself. -/
theorem eq' (quiet : ¬ (run' (w.censored barred)).2.Tainted barred) :
    run' (w.censored barred) = ((run w).1, (run w).2.censored barred) :=
  (runs.same w).resolve_left fun asked => quiet asked.2

end Censored

/-- A run that only works on parts of the world other than the files is the same. -/
theorem censored_of_apart {run : Run α} (stays : ∀ w, w.Tainted barred → (run w).2.Tainted barred)
    (same : ∀ w, run (w.censored barred) = ((run w).1, (run w).2.censored barred)) :
    Censored barred run run :=
  ⟨stays, stays, fun w => .inr (same w)⟩

/-- Doing the same unless a barred file is asked for is respected by evaluation. -/
theorem censoring (barred : Text.Bytes → Prop) : Congruence fun _ => Censored barred where
  pure a := censored_of_apart (fun _ => id) fun _ => rfl
  bind {α β run run' next next'} first second := {
    stays := fun w asked => (second (run w).1).stays _ (first.stays w asked)
    stays' := fun w asked => (second (run' w).1).stays' _ (first.stays' w asked)
    same := fun w => by
      show (next (run w).1 (run w).2).2.Tainted barred ∧
          (next' (run' (w.censored barred)).1 (run' (w.censored barred)).2).2.Tainted barred ∨
        next' (run' (w.censored barred)).1 (run' (w.censored barred)).2 =
          ((next (run w).1 (run w).2).1, (next (run w).1 (run w).2).2.censored barred)
      -- The first part may have asked for a barred file; only if it has not do the others start
      -- alike.
      rcases first.same w with ⟨asked, asked'⟩ | same
      · exact .inl ⟨(second _).stays _ asked, (second _).stays' _ asked'⟩
      · rw [same]
        exact (second (run w).1).same _ }
  scopes work := censored_of_apart (fun _ => id) fun _ => rfl
  write text := censored_of_apart (fun _ => id) fun _ => rfl
  readFile path := {
    -- A file that has been asked for stays asked for, whatever comes next.
    stays := fun w ⟨other, asked, bars⟩ => ⟨other, List.mem_cons_of_mem path asked, bars⟩
    stays' := fun w ⟨other, asked, bars⟩ => ⟨other, List.mem_cons_of_mem path asked, bars⟩
    same := fun w => by
      -- What a barred file holds may differ, but then it has been asked for on both sides.
      by_cases bars : barred path
      · exact .inl ⟨⟨path, List.mem_cons_self, bars⟩, ⟨path, List.mem_cons_self, bars⟩⟩
      · refine .inr (Prod.ext ?_ rfl)
        exact if_neg bars }

variable (barred)

/-- The refusal of a reduction has nothing to do with files. -/
theorem censored_refused : Censored barred (do return .error (.tooDeep (← get).limit) : Run Value)
    (do return .error (.tooDeep (← get).limit)) :=
  censored_of_apart (fun _ => id) fun _ => rfl

/-- Evaluation with some room is the same unless a barred file is asked for. -/
theorem censored_eval (room : Nat) (scope : ScopeId) (v : Value) :
    Censored barred (eval room scope v) (eval room scope v) := by
  -- The induction is on the reductions that may still be entered.
  induction room generalizing scope v with
  | zero => exact (censoring barred).evalWith (fun _ => censored_refused barred) scope v
  | succ room ih => exact (censoring barred).evalWith ((censoring barred).reduce ih scope) scope v

/-- Evaluation with no reduction in progress is the same unless a barred file is asked for. -/
theorem censored_evaluate (scope : ScopeId) (v : Value) :
    Censored barred (evaluate scope v) (evaluate scope v) where
  stays w := (censored_eval barred w.limit scope v).stays w
  stays' w := (censored_eval barred w.limit scope v).stays w
  same w := (censored_eval barred w.limit scope v).same w

/-- A source is answered in the same way unless a barred file is asked for. -/
theorem censored_evaluateSource (source : Source) :
    Censored barred (evaluateSource source) (evaluateSource source) := by
  -- Reading a source asks for one file at most.
  have reads : Censored barred (readSource source : Run _) (readSource source) := by
    cases source with
    | file path =>
      refine (censoring barred).bind ((censoring barred).readFile path) fun contents => ?_
      cases contents <;> exact (censoring barred).pure _
    | input source =>
      rw [readSource]
      cases source.failure <;> exact (censoring barred).pure _
    | _ => exact (censoring barred).pure _
  -- The expressions are evaluated in turn, each of them without the barred file.
  rw [evaluateSource_eq]
  refine (censoring barred).bind reads fun answer => ?_
  cases answer with
  | error e => exact (censoring barred).pure _
  | ok expressions =>
    exact (censoring barred).bind ((censoring barred).each (censored_evaluate barred) _ _) fun _ =>
      (censoring barred).pure _

/-- A request is carried out in the same way unless a barred file is asked for. -/
theorem censored_perform (request : Request) : Censored barred request.perform request.perform := by
  cases request with
  | arguments list => exact (censoring barred).bindAll _ _
  | limit setting => exact censored_of_apart (fun _ => id) fun _ => rfl
  | evaluate source =>
    exact (censoring barred).bind (censored_evaluateSource barred source) fun _ =>
      (censoring barred).pure _

/-- So are any requests. -/
theorem censored_session (requests : List Request) :
    Censored barred (requests.forM Request.perform) (requests.forM Request.perform) := by
  -- The induction is on the requests.
  induction requests with
  | nil => exact (censoring barred).pure ()
  | cons request rest ih => exact (censoring barred).bind (censored_perform barred request) fun _ => ih

end Run
end QLisp
