import QLisp.Proofs.Source
import QLisp.Shared.Session

/-!
Evaluating a source in place is reading its expressions, and then evaluating them in order.

Reading needs no container: the expressions are values, which are placed one by one when their turn
comes.
-/

namespace QLisp.Shared

/-- A machine on which more paths have been asked for. -/
def Machine.asking (m : Machine) (paths : List Text.Bytes) : Machine :=
  { m with world.asked := paths ++ m.world.asked }

namespace Act

/-- Evaluates expressions that may have been read. -/
def evaluateRead (ev : Evaluator) :
    Except SourceError (List Value) → Act (Except SourceError (List Handle))
  | .error e => return .error e
  | .ok expressions => return .ok (← each ev Scopes.global expressions)

/-- Evaluates a source with a given evaluator. -/
def evaluateSourceBy (ev : Evaluator) (source : Source) :
    Act (Except SourceError (List Handle)) := do
  evaluateRead ev (← inWorld (Run.readSource source))

/-- A text is evaluated by evaluating its expressions in order. -/
theorem evaluateText_eq (describe : ParseError → SourceError) (bytes : Text.Bytes) :
    (do return (← evaluateText bytes).mapError describe : Act _) =
      evaluateRead evaluate (Run.readText describe bytes) := by
  rw [evaluateText, Run.readText]
  cases Form.parse bytes with
  | error e => rfl
  | ok forms =>
    simp only [bind_assoc, pure_bind]
    rfl

/-- Reading a file source is reading the file, and then its text. -/
theorem readSource_file (path : Text.Bytes) : inWorld (Run.readSource (.file path)) = (do
    let contents ← inWorld (Run.readFile path)
    inWorld (match contents with
      | .error fault => pure (.error (.file path fault))
      | .ok bytes => pure (Run.readText (.parse (some path)) (withoutInterpreterLine bytes))) :
    Act _) := rfl

/-- A source is evaluated by evaluating its expressions in order. -/
theorem evaluateSource_eq (source : Source) :
    evaluateSource source = evaluateSourceBy evaluate source := by
  -- A line has one expression; the other sources have a text, if they can be read.
  have known : ∀ result, evaluateRead evaluate result =
      (inWorld (pure result) >>= evaluateRead evaluate : Act _) := fun _ => rfl
  cases source with
  | line bytes =>
    rw [evaluateSource, evaluateSourceBy, evaluateLine, Run.readSource, ← known]
    cases Form.parseLine bytes with
    | error e => rfl
    | ok form =>
      show _ = (do
        return Except.ok (← each evaluate Scopes.global [form.toValue Primitive.all]) : Act _)
      simp only [Except.map, each, List.mapM_cons, List.mapM_nil, bind_assoc, pure_bind]
      rfl
  | text bytes => exact evaluateText_eq _ bytes
  | input input =>
    rw [evaluateSource, evaluateInput, evaluateSourceBy, Run.readSource]
    cases input.failure with
    | some reason => rfl
    | none => exact evaluateText_eq _ input.bytes
  | file path =>
    -- The file is asked for first, and only its contents decide what is evaluated.
    rw [evaluateSource, evaluateFile, evaluateSourceBy, readSource_file, bind_assoc]
    refine bind_congr fun contents => ?_
    cases contents with
    | error fault => rfl
    | ok bytes => exact evaluateText_eq _ _

/-- Reading a source gives its expressions, and no more has happened than asking for its paths. -/
theorem readSource_ran (source : Source) (m : Machine) :
    inWorld (Run.readSource source) m =
      .ok (source.read m.world.files) (m.asking source.paths) := by
  have ran : inWorld (Run.readSource source) m = (match Run.readSource source m.world with
    | (read, world) => .ok read { m with world := world } : EStateM.Result _ _ _) := rfl
  rw [ran, Run.readSource_run]
  rfl

end Act

end QLisp.Shared
