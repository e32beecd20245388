import QLisp.Program.Session

/-!
Evaluating a source is reading its expressions, and then evaluating them in order.

Reading comes first and on its own, so a source can be evaluated with any evaluator.
-/

namespace QLisp.Run

variable {α : Type}

/-- The expressions of a text, or why it has none. -/
def readText (describe : ParseError → SourceError) (bytes : Text.Bytes) :
    Except SourceError (List Value) :=
  ((Form.parse bytes).map (Form.toValues Primitive.all)).mapError describe

/-- The expressions of a source, or why it has none. -/
def readSource : Source → RunIn α (Except SourceError (List Value))
  | .line bytes =>
    return ((Form.parseLine bytes).map ([·.toValue Primitive.all])).mapError (.parse none)
  | .text bytes => return readText (.parse none) bytes
  | .input input =>
    match input.failure with
    | some reason => return .error (.input reason)
    | none => return readText (.parse none) input.bytes
  | .file path => do
    match ← readFile path with
    | .error fault => return .error (.file path fault)
    | .ok bytes => return readText (.parse (some path)) (withoutInterpreterLine bytes)

/-- Evaluates expressions that may have been read. -/
def evaluateRead (ev : Evaluator) :
    Except SourceError (List Value) → Run (Except SourceError (List Value))
  | .error e => return .error e
  | .ok expressions => return .ok (← each ev Scopes.global expressions)

/-- Evaluates a source with a given evaluator. -/
def evaluateSourceBy (ev : Evaluator) (source : Source) :
    Run (Except SourceError (List Value)) := do
  evaluateRead ev (← readSource source)

/-- A text is evaluated by evaluating its expressions in order. -/
theorem evaluateText_eq (describe : ParseError → SourceError) (bytes : Text.Bytes) :
    (do return (← evaluateText bytes).mapError describe) =
      evaluateRead evaluate (readText describe bytes) := by
  -- A text that cannot be read is not evaluated at all.
  rw [evaluateText, readText]
  cases Form.parse bytes with
  | error e => rfl
  | ok forms => exact bind_pure_comp ..

/-- A source is evaluated by evaluating its expressions in order. -/
theorem evaluateSource_eq (source : Source) :
    evaluateSource source = evaluateSourceBy evaluate source := by
  -- A line has one expression; the other sources have a text, if they can be read.
  cases source with
  | line bytes =>
    rw [evaluateSource, evaluateSourceBy, evaluateLine, readSource, pure_bind]
    cases Form.parseLine bytes with
    | error e => rfl
    | ok form =>
      simp only [Except.map, evaluateRead, each, bind_assoc, pure_bind]
      rfl
  | text bytes => exact evaluateText_eq _ bytes
  | input input =>
    rw [evaluateSource, evaluateInput, evaluateSourceBy, readSource]
    cases input.failure with
    | some reason => rfl
    | none => exact evaluateText_eq _ input.bytes
  | file path =>
    -- A file is asked for before it is read.
    rw [evaluateSource, evaluateFile, evaluateSourceBy, readSource, bind_assoc]
    refine bind_congr fun contents => ?_
    cases contents with
    | error fault => rfl
    | ok bytes => exact evaluateText_eq _ _

/-- Expressions are those of some bytes: its forms, one by one or as one list in round brackets. -/
def Spelled (expressions : List Value) : Prop :=
  ∃ bytes forms, Form.parse bytes = .ok forms ∧
    (expressions = Form.toValues Primitive.all forms ∨
      expressions = [.sexpr (Form.toValues Primitive.all forms)])

/-- The expressions of a text are its forms. -/
theorem readText_spelled {describe : ParseError → SourceError} {bytes : Text.Bytes}
    {expressions : List Value} (read : readText describe bytes = .ok expressions) :
    Spelled expressions := by
  rw [readText] at read
  -- What is malformed has no expressions.
  cases parsed : Form.parse bytes with
  | error e =>
    rw [parsed] at read
    cases read
  | ok forms =>
    rw [parsed] at read
    cases read
    exact ⟨bytes, forms, parsed, .inl rfl⟩

/-- The expressions of a source are those of some bytes, and reading leaves the scopes as they are. -/
theorem readSource_spelled (source : Source) (w : World α) :
    (readSource source w).2.scopes = w.scopes ∧ ∀ expressions,
      (readSource source w).1 = .ok expressions → Spelled expressions := by
  -- Only a file needs the world for being read, and then just the path is noted.
  cases source with
  | line bytes =>
    refine ⟨rfl, fun expressions read => ?_⟩
    have read : ((Form.parseLine bytes).map ([·.toValue Primitive.all])).mapError
      (SourceError.parse none) = .ok expressions := read
    -- A line is one list, so its forms are in brackets.
    rw [Form.parseLine] at read
    cases parsed : Form.parse bytes with
    | error e =>
      rw [parsed] at read
      cases read
    | ok forms =>
      rw [parsed] at read
      cases read
      exact ⟨bytes, forms, parsed, .inr rfl⟩
  | text bytes => exact ⟨rfl, fun _ => readText_spelled⟩
  | input input =>
    rw [readSource]
    cases input.failure with
    | some reason =>
      refine ⟨rfl, fun expressions read => ?_⟩
      cases read
    | none => exact ⟨rfl, fun _ => readText_spelled⟩
  | file path =>
    have opened : readSource (.file path) w = (match w.files path with
      | .error fault => pure (.error (.file path fault))
      | .ok bytes => pure (readText (.parse (some path)) (withoutInterpreterLine bytes)) :
        RunIn α _) { w with asked := path :: w.asked } := rfl
    rw [opened]
    -- A file that is missing gives no expressions.
    cases w.files path with
    | error fault =>
      refine ⟨rfl, fun expressions read => ?_⟩
      cases read
    | ok bytes => exact ⟨rfl, fun _ => readText_spelled⟩

/-- The expressions of a source are read from forms, and reading leaves the scopes as they are. -/
theorem readSource_forms (source : Source) (w : World α) :
    (readSource source w).2.scopes = w.scopes ∧ ∀ expressions,
      (readSource source w).1 = .ok expressions →
        ∃ forms, expressions = Form.toValues Primitive.all forms := by
  obtain ⟨scopes, spelled⟩ := readSource_spelled source w
  refine ⟨scopes, fun expressions read => ?_⟩
  obtain ⟨_, forms, _, rfl | rfl⟩ := spelled expressions read
  · exact ⟨forms, rfl⟩
  · exact ⟨[.list .start .sexpr forms], rfl⟩

end QLisp.Run

namespace QLisp

/-- The expressions of a source, or why it has none, given what the paths hold. -/
def Source.read (files : Files) : Source → Except SourceError (List Value)
  | .line bytes => ((Form.parseLine bytes).map ([·.toValue Primitive.all])).mapError (.parse none)
  | .text bytes => Run.readText (.parse none) bytes
  | .input source =>
    match source.failure with
    | some reason => .error (.input reason)
    | none => Run.readText (.parse none) source.bytes
  | .file path =>
    match files path with
    | .error fault => .error (.file path fault)
    | .ok bytes => Run.readText (.parse (some path)) (withoutInterpreterLine bytes)

/-- The paths that are asked for when a source is read. -/
def Source.paths : Source → List Text.Bytes
  | .file path => [path]
  | _ => []

/-- Reading a source changes nothing but the paths that have been asked for. -/
theorem Run.readSource_run {α : Type} (source : Source) (w : World α) :
    Run.readSource source w =
      (source.read w.files, { w with asked := source.paths ++ w.asked }) := by
  cases source with
  | line bytes => exact rfl
  | text bytes => exact rfl
  -- Input may fail while it is read, and then nothing is.
  | input source =>
    rw [Run.readSource, Source.read]
    cases source.failure <;> exact rfl
  | file path =>
    -- What the path holds is all that is taken from the world.
    show (match w.files path with
      | .error fault => pure (.error (.file path fault))
      | .ok bytes => pure (Run.readText (.parse (some path)) (withoutInterpreterLine bytes)) :
        RunIn α _) { w with asked := path :: w.asked } = _
    rw [Source.read]
    cases w.files path <;> rfl

end QLisp
