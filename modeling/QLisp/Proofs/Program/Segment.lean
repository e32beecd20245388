import Mathlib.Data.List.Infix
import QLisp.Program.Repl

/-!
How the lines of an input are divided.

The loop gathers lines one at a time. What it makes of them is said here without a loop: the lines are
divided into blank ones, which are skipped, and chunks, which are evaluated or reported as a whole.
-/

namespace QLisp.Repl

open Text (Bytes)

/-! ### Lines -/

/-- Cutting loses no byte. -/
theorem cutFrom_flatten (current : Bytes) (done : List Bytes) (bytes : Bytes) :
    (cutFrom current done bytes).finished.flatten ++ (cutFrom current done bytes).rest =
      done.reverse.flatten ++ (current.reverse ++ bytes) := by
  -- By induction on the bytes still to be cut.
  induction bytes generalizing current done with
  | nil => simp [cutFrom]
  | cons b rest ih =>
    rw [cutFrom]
    split <;> rw [ih] <;> simp

/-- The lines of an input and what follows them are the input. -/
theorem cut_flatten (bytes : Bytes) : (cut bytes).finished.flatten ++ (cut bytes).rest = bytes := by
  rw [cut, cutFrom_flatten]
  simp

/-- A finished line: a newline with bytes before it none of which is one. -/
def IsLine (line : Bytes) : Prop :=
  ∃ body, 0x0A ∉ body ∧ line = body ++ [0x0A]

/-- Cutting gives finished lines, and what follows them has no newline. -/
theorem cutFrom_isLine {current : Bytes} {done : List Bytes} (inside : 0x0A ∉ current)
    (finished : ∀ line ∈ done, IsLine line) (bytes : Bytes) :
    (∀ line ∈ (cutFrom current done bytes).finished, IsLine line) ∧
      0x0A ∉ (cutFrom current done bytes).rest := by
  -- By induction on the bytes; a newline finishes the line so far, and any other byte continues it.
  induction bytes generalizing current done with
  | nil => simpa [cutFrom] using ⟨finished, inside⟩
  | cons b rest ih =>
    rw [cutFrom]
    split
    · rename_i newline
      subst newline
      -- The line that has been finished ends with its only newline.
      refine ih (by simp) fun line member => ?_
      rcases List.mem_cons.mp member with rfl | earlier
      · exact ⟨current.reverse, by simpa using inside, by simp⟩
      · exact finished line earlier
    · rename_i other
      -- The byte is no newline, so none is inside the line so far.
      exact ih (by simpa [inside] using Ne.symm other) finished

/-- The lines of an input end at its newlines. -/
theorem cut_isLine (bytes : Bytes) :
    (∀ line ∈ (cut bytes).finished, IsLine line) ∧ 0x0A ∉ (cut bytes).rest :=
  cutFrom_isLine (by simp) (by simp) bytes

/-! ### Segments -/

/-- What consecutive lines of an input are to the loop. -/
inductive Segment where
  /-- A blank line between chunks. -/
  | blank (line : Bytes)
  /-- Lines that are evaluated together, or reported if they cannot be read. -/
  | chunk (lines : List Bytes)
  deriving DecidableEq, Repr

/-- The lines of a segment. -/
def Segment.lines : Segment → List Bytes
  | .blank line => [line]
  | .chunk lines => lines

/-- Whether lines make no complete forms, while further ones could complete them. -/
def waits (lines : List Bytes) : Bool :=
  match Form.parse lines.flatten with
  | .ok _ => false
  | .error e => e.isIncomplete

/-- A line begins a chunk unless it is blank, and continues one in any case. -/
def Takes (pending : List Bytes) (line : Bytes) : Prop :=
  pending = [] → isBlank line = false

/-- Lines that are gathered: the first is not blank, and up to every line they wait for more. -/
inductive Pending : List Bytes → Prop where
  | nil : Pending []
  | snoc {lines : List Bytes} {line : Bytes} (earlier : Pending lines) (takes : Takes lines line)
      (waiting : waits (lines ++ [line])) : Pending (lines ++ [line])

/-- Lines are divided into segments, and some at the end that are left pending. -/
inductive Divides : List Segment → List Bytes → List Bytes → Prop where
  /-- All lines are pending. -/
  | pending {left : List Bytes} (gathered : Pending left) : Divides [] left left
  /-- A blank line with nothing pending. -/
  | blank {line : Bytes} {segments : List Segment} {left rest : List Bytes} (blank : isBlank line)
      (later : Divides segments left rest) : Divides (.blank line :: segments) left (line :: rest)
  /-- Lines up to the first after which nothing is waited for. -/
  | chunk {before : List Bytes} {line : Bytes} {segments : List Segment} {left rest : List Bytes}
      (gathered : Pending before) (takes : Takes before line)
      (ready : waits (before ++ [line]) = false) (later : Divides segments left rest) :
      Divides (.chunk (before ++ [line]) :: segments) left (before ++ line :: rest)

/-- No line is lost when lines are divided. -/
theorem Divides.lines {segments : List Segment} {left all : List Bytes}
    (divides : Divides segments left all) : segments.flatMap Segment.lines ++ left = all := by
  induction divides with
  | pending gathered => rfl
  | blank blank later ih => rw [List.flatMap_cons, List.append_assoc, ih]; rfl
  | chunk gathered takes ready later ih =>
    rw [List.flatMap_cons, List.append_assoc, ih, Segment.lines, List.append_assoc]
    rfl

/-- What is left pending has been gathered. -/
theorem Divides.gathered {segments : List Segment} {left all : List Bytes}
    (divides : Divides segments left all) : Pending left := by
  induction divides with
  | pending gathered => exact gathered
  | blank _ _ ih => exact ih
  | chunk _ _ _ _ ih => exact ih

/-- Divides lines that follow pending ones. -/
def divide : List Bytes → List Bytes → List Segment × List Bytes
  | pending, [] => ([], pending)
  | pending, line :: rest =>
    if pending.isEmpty && isBlank line then
      ((.blank line) :: (divide [] rest).1, (divide [] rest).2)
    else if waits (pending ++ [line]) then divide (pending ++ [line]) rest
    else (.chunk (pending ++ [line]) :: (divide [] rest).1, (divide [] rest).2)

/-- A line that is not skipped is taken. -/
theorem takes_iff {pending : List Bytes} {line : Bytes} :
    Takes pending line ↔ (pending.isEmpty && isBlank line) = false := by
  cases pending <;> simp [Takes]

/-- The lines are divided as they should be. -/
theorem divide_divides {pending : List Bytes} (gathered : Pending pending) (lines : List Bytes) :
    Divides (divide pending lines).1 (divide pending lines).2 (pending ++ lines) := by
  -- By induction on the lines; after a segment nothing is pending.
  induction lines generalizing pending with
  | nil => simpa [divide] using .pending gathered
  | cons line rest ih =>
    rw [divide]
    split
    -- A blank line that nothing waits for is a segment of its own.
    · rename_i skipped
      simp only [Bool.and_eq_true, List.isEmpty_iff] at skipped
      obtain ⟨rfl, blank⟩ := skipped
      exact .blank blank (ih .nil)
    · rename_i taken
      -- Otherwise the line is put to those that wait, and goes on waiting with them or not.
      have takes : Takes pending line := takes_iff.mpr (by simpa using taken)
      split
      · rename_i waiting
        have later := ih (.snoc gathered takes waiting)
        rwa [List.append_assoc] at later
      · rename_i ready
        exact .chunk gathered takes (by simpa using ready) (ih .nil)

/-- Pending lines are gathered one by one. -/
theorem divide_pending {pending : List Bytes} (gathered : Pending pending) (rest : List Bytes) :
    divide [] (pending ++ rest) = divide pending rest := by
  -- By induction on the gathered lines, the last one taken last.
  induction gathered generalizing rest with
  | nil => rfl
  | @snoc lines line earlier takes waiting ih =>
    rw [List.append_assoc, ih, List.singleton_append, divide, if_neg (by simp [takes_iff.mp takes]),
      if_pos waiting]

/-- Lines are divided in one way only. -/
theorem Divides.divide_eq {segments : List Segment} {left all : List Bytes}
    (divides : Divides segments left all) : divide [] all = (segments, left) := by
  -- By induction on the division: each of its parts is what the walk over the lines does next.
  induction divides with
  | pending gathered =>
    have walked := divide_pending gathered []
    rwa [List.append_nil] at walked
  | blank blank later ih => rw [divide, if_pos (by simp [blank]), ih]
  | chunk gathered takes ready later ih =>
    rw [divide_pending gathered, divide, if_neg (by simp [takes_iff.mp takes]), if_neg (by simp [ready]),
      ih]

/--
The line that an input ends with: skipped if it is blank with nothing pending, and else the last of a
chunk.
-/
def lastSegment (left : List Bytes) (rest : Bytes) : Segment :=
  if left.isEmpty && isBlank rest then .blank rest else .chunk (left ++ [rest])

/-- The last segment has all lines that are left. -/
theorem lines_lastSegment (left : List Bytes) (rest : Bytes) :
    (lastSegment left rest).lines = left ++ [rest] := by
  unfold lastSegment
  split
  · rename_i skipped
    simp only [Bool.and_eq_true, List.isEmpty_iff] at skipped
    rw [skipped.1]
    rfl
  · rfl

/-- What the input adds to the segments of its finished lines: nothing if it cannot be read to its end. -/
def closing (input : Input) (left : List Bytes) : List Segment :=
  match input.failure with
  | some _ => []
  | none => [lastSegment left (cut input.bytes).rest]

/-- What is reported about an input that cannot be read to its end. -/
def readReport (input : Input) : Bytes :=
  match input.failure with
  | some reason => Text.encode "read error: " ++ reason ++ Text.encode "\n"
  | none => []

/-! ### What the loop writes -/

/-- What is written first stands first, in each of the two places. -/
instance : Append Written where
  append first second :=
    ⟨first.printed ++ second.printed, first.diagnostics ++ second.diagnostics⟩

/-- Writing what two parts write. -/
theorem Written.append_eq (first second : Written) :
    first ++ second = ⟨first.printed ++ second.printed, first.diagnostics ++ second.diagnostics⟩ := rfl

/-- Nothing before what is written. -/
@[simp]
theorem Written.nil_append (written : Written) : {} ++ written = written := rfl

/-- Nothing after what is written. -/
@[simp]
theorem Written.append_nil (written : Written) : written ++ {} = written := by
  simp [append_eq]

/-- What three parts write. -/
theorem Written.append_assoc (first second third : Written) :
    first ++ second ++ third = first ++ (second ++ third) := by
  simp [append_eq]

/-! ### The loop with any way of answering -/

variable {M : Type → Type} [Monad M]

/-- Takes the next line, given how the form of a line is answered by a text to be shown. -/
def takeLineBy (answer : Form → M Bytes) (last : Bool) (s : State) (line : Bytes) : M State := do
  if s.pending.isEmpty && isBlank line then return s
  let source := s.pending ++ line
  match Form.parseLine source with
  | .ok form =>
    let shown ← answer form
    return ⟨s.toWritten ++ { printed := shown ++ Text.encode "\n" }, []⟩
  | .error e =>
    if e.isIncomplete && !last then return { s with pending := source }
    return ⟨s.toWritten ++ { diagnostics := Text.encode ("parse error: " ++ e.message ++ "\n") }, []⟩

/-- Takes lines in order, given how the form of a line is answered. -/
def takeLinesBy (answer : Form → M Bytes) : State → List Bytes → M State
  | s, [] => return s
  | s, line :: rest => do takeLinesBy answer (← takeLineBy answer false s line) rest

/-- Takes an input to its end, given how the form of a line is answered. -/
def runBy (answer : Form → M Bytes) (input : Input) : M Written := do
  let lines := cut input.bytes
  let s ← takeLinesBy answer {} lines.finished
  match input.failure with
  | some _ => return s.toWritten ++ { diagnostics := readReport input }
  | none => return (← takeLineBy answer true s lines.rest).toWritten

/-- Evaluates the form of a line and shows its value. -/
def answerLine (form : Form) : Run Bytes := do
  return (← Run.evaluate Scopes.global (form.toValue Primitive.all)).render

/-- Taking a line is answering its form by evaluating it. -/
theorem takeLine_eq (last : Bool) (s : State) (line : Bytes) :
    takeLine last s line = takeLineBy answerLine last s line := by
  rw [takeLine, takeLineBy]
  split
  · rfl
  · cases read : Form.parseLine (s.pending ++ line) with
    | error e => simp [Run.evaluateLine, read, Written.append_eq]
    | ok form => simp [Run.evaluateLine, read, answerLine, Written.append_eq]

/-- The loop is the one that answers the forms of lines by evaluating them. -/
theorem run_eq (input : Input) : run input = runBy answerLine input := by
  -- The two loops take each line in the same way, so they take all of them so.
  have lines : ∀ lines s, takeLines (takeLine false) s lines = takeLinesBy answerLine s lines := by
    intro lines
    induction lines with
    | nil => exact fun _ => rfl
    | cons line rest ih => simp only [takeLines, takeLinesBy, takeLine_eq, ih, implies_true]
  -- With the lines taken alike, only the end of the input is left.
  rw [run, runWith, runBy, lines]
  refine bind_congr fun s => ?_
  rw [readReport]
  cases input.failure with
  | some reason => simp [Written.append_eq]
  | none => simp only [takeLine_eq]

/-- What the loop does about a segment, and writes about it. A report stands for what cannot be read. -/
def Segment.perform (answer : Form → M Bytes) : Segment → M Written
  | .blank _ => return {}
  | .chunk lines =>
    match Form.parseLine lines.flatten with
    | .ok form => do
      let shown ← answer form
      return { printed := shown ++ Text.encode "\n" }
    | .error e => return { diagnostics := Text.encode ("parse error: " ++ e.message ++ "\n") }

/-- Does what there is to do about segments in order, and gives what is written about them. -/
def performAll (answer : Form → M Bytes) : List Segment → M Written
  | [] => return {}
  | segment :: rest => do
    let written ← segment.perform answer
    return written ++ (← performAll answer rest)

section Performing

variable [LawfulMonad M] {answer : Form → M Bytes}

/-- Lines that are gathered have bytes when there are any. -/
theorem Pending.flatten_isEmpty {pending : List Bytes} (gathered : Pending pending) :
    pending.flatten.isEmpty = pending.isEmpty := by
  -- By induction on the lines; the first of them is not blank.
  induction gathered with
  | nil => rfl
  | @snoc lines line earlier takes waiting ih =>
    -- The line is the first one, or comes after lines that are not empty together.
    cases lines with
    | nil =>
      have shown := takes rfl
      cases line with
      | nil => cases shown
      | cons b rest => rfl
    | cons first others =>
      -- Those before are not empty, so with another line they are not either.
      have some : (first :: others).flatten ≠ [] := by
        rw [← List.isEmpty_eq_false_iff, ih]
        rfl
      rw [List.flatten_append, List.isEmpty_eq_false_iff.mpr (List.append_ne_nil_of_left_ne_nil some _)]
      rfl

/-- A single segment is performed by itself. -/
theorem performAll_single (segment : Segment) :
    performAll answer [segment] = segment.perform answer := by
  simp only [performAll, pure_bind, Written.append_nil, bind_pure]

/-- Segments can be performed in two parts. -/
theorem performAll_append (first second : List Segment) :
    performAll answer (first ++ second) = do
      let written ← performAll answer first
      return written ++ (← performAll answer second) := by
  induction first with
  | nil => simp only [List.nil_append, performAll, pure_bind, Written.nil_append, bind_pure]
  | cons segment rest ih =>
    rw [List.cons_append, performAll, ih, performAll]
    simp only [bind_assoc, pure_bind, Written.append_assoc]

/-- Taking a line skips it, keeps it with the pending ones, or performs the chunk that it ends. -/
theorem takeLineBy_eq {pending : List Bytes} (gathered : Pending pending) (last : Bool)
    (written : Written) (line : Bytes) : takeLineBy answer last ⟨written, pending.flatten⟩ line =
      if pending.isEmpty && isBlank line then return ⟨written, []⟩
      else if waits (pending ++ [line]) && !last then return ⟨written, (pending ++ [line]).flatten⟩
      else do return ⟨written ++ (← (Segment.chunk (pending ++ [line])).perform answer), []⟩ := by
  have whole : (pending ++ [line]).flatten = pending.flatten ++ line := by simp
  rw [takeLineBy, gathered.flatten_isEmpty]
  -- A blank line with nothing before it is skipped, and any other one is parsed with those before.
  split
  · rename_i skipped
    simp only [Bool.and_eq_true, List.isEmpty_iff] at skipped
    -- Nothing is pending, so the line alone is what is skipped.
    rw [skipped.1]
    rfl
  · rw [waits, Segment.perform, whole]
    dsimp only
    -- All lines are parsed together, as those that wait and the new one.
    rw [Form.parseLine]
    -- The parse tells whether the lines wait for more or are performed.
    cases Form.parse (pending.flatten ++ line) with
    | ok forms => simp [Except.map]
    | error e =>
      simp only [Except.map]
      split
      · rfl
      · simp

/-- Taking lines performs the segments that they are divided into. -/
theorem takeLinesBy_eq {pending : List Bytes} (gathered : Pending pending) (written : Written)
    (lines : List Bytes) : takeLinesBy answer ⟨written, pending.flatten⟩ lines = do
      let more ← performAll answer (divide pending lines).1
      return ⟨written ++ more, (divide pending lines).2.flatten⟩ := by
  -- By induction on the lines; after a segment nothing is pending.
  induction lines generalizing pending written with
  | nil => simp [takeLinesBy, divide, performAll]
  | cons line rest ih =>
    rw [takeLinesBy, takeLineBy_eq gathered, divide]
    -- The first line is skipped, waits for more, or ends a chunk.
    by_cases skipped : (pending.isEmpty && isBlank line) = true
    -- Nothing is written for the line, and nothing is pending after it.
    · have later := ih .nil written
      rw [if_pos skipped, if_pos skipped, pure_bind]
      dsimp only
      rw [performAll, Segment.perform, pure_bind]
      simp only [Written.nil_append, bind_pure]
      exact later
    · rw [if_neg skipped, if_neg skipped, Bool.not_false, Bool.and_true]
      have takes : Takes pending line := takes_iff.mpr (by simpa using skipped)
      by_cases waiting : waits (pending ++ [line]) = true
      · rw [if_pos waiting, if_pos waiting, pure_bind]
        -- It waits with them, so nothing is performed yet.
        exact ih (.snoc gathered takes waiting) written
      · rw [if_neg waiting, if_neg waiting, bind_assoc]
        dsimp only
        rw [performAll, bind_assoc]
        -- The chunk is performed first, and what it writes comes before what later lines do.
        refine bind_congr fun first => ?_
        have later := ih .nil (written ++ first)
        simp only [pure_bind, bind_assoc, Written.append_assoc] at later ⊢
        exact later

/-- The loop performs the segments of an input, and then reports if the input cannot be read on. -/
theorem runBy_eq (input : Input) {segments : List Segment} {left : List Bytes}
    (divides : Divides segments left (cut input.bytes).finished) : runBy answer input = do
      return (← performAll answer (segments ++ closing input left)) ++
        { diagnostics := readReport input } := by
  -- The lines that have ended are taken as the division has them.
  have taken : takeLinesBy answer _ _ = _ := takeLinesBy_eq .nil {} (cut input.bytes).finished
  rw [divides.divide_eq] at taken
  have gathered : Pending left := divides.gathered
  -- What is left over is performed after the segments of the lines.
  rw [runBy, show ({} : State) = ⟨{}, [].flatten⟩ from rfl, taken, performAll_append, closing, readReport]
  -- Input that cannot be read on is reported, and otherwise the last line is taken as it stands.
  cases input.failure with
  | some reason =>
    simp only [performAll, bind_assoc, pure_bind, Written.append_nil, Written.nil_append]
  | none =>
    have none : ∀ written : Written, written ++ { diagnostics := [] } = written := Written.append_nil
    simp only [bind_assoc, pure_bind, takeLineBy_eq gathered, performAll_single, lastSegment, none,
      Written.nil_append]
    refine bind_congr fun written => ?_
    -- The rest of the last line is skipped or performed, like any other.
    by_cases skipped : (left.isEmpty && isBlank (cut input.bytes).rest) = true
    · simp [skipped, Segment.perform]
    · simp [skipped]

end Performing

/-! ### The loop that writes where programs print -/

/-- Writing nothing does nothing. -/
theorem write_nil : (Run.write [] : Run Unit) = pure () := by
  funext w
  show ((), { w with output := w.output ++ [] }) = ((), w)
  rw [List.append_nil]

/-- Answers the form of a line, and writes the line at once where programs print. -/
def answerLineJoint (form : Form) : Run Bytes := do
  let shown ← answerLine form
  Run.write (shown ++ Text.encode "\n")
  return shown

/-- What the loop holds apart from the lines it has printed. -/
def State.apart (s : State) : State :=
  { s with printed := [] }

/-- What is left when a line cannot be read with the pending ones. -/
def State.refused (last : Bool) (s : State) (line : Bytes) (e : ParseError) : State :=
  if e.isIncomplete && !last then { s with pending := s.pending ++ line }
  else ⟨s.toWritten ++ { diagnostics := Text.encode ("parse error: " ++ e.message ++ "\n") }, []⟩

/-- What is left does not depend on the lines printed before. -/
theorem State.refused_apart (last : Bool) (s : State) (line : Bytes) (e : ParseError) :
    s.apart.refused last line e = (s.refused last line e).apart := by
  rw [refused, refused]
  split <;> simp [apart, Written.append_eq]

variable {answer : Form → M Bytes} {last : Bool} {s : State} {line : Bytes}

/-- A blank line with nothing pending is skipped. -/
theorem takeLineBy_skip (skipped : (s.pending.isEmpty && isBlank line) = true) :
    takeLineBy answer last s line = pure s := by
  rw [takeLineBy, if_pos skipped]

/-- A line that can be read with the pending ones is answered. -/
theorem takeLineBy_ok (taken : ¬ (s.pending.isEmpty && isBlank line) = true) {form : Form}
    (read : Form.parseLine (s.pending ++ line) = .ok form) : takeLineBy answer last s line = do
      let shown ← answer form
      return ⟨s.toWritten ++ { printed := shown ++ Text.encode "\n" }, []⟩ := by
  rw [takeLineBy, if_neg taken]
  dsimp only
  rw [read]

/-- A line that cannot be read with the pending ones is kept with them or reported. -/
theorem takeLineBy_error (taken : ¬ (s.pending.isEmpty && isBlank line) = true) {e : ParseError}
    (failed : Form.parseLine (s.pending ++ line) = .error e) :
    takeLineBy answer last s line = pure (s.refused last line e) := by
  rw [takeLineBy, if_neg taken, State.refused]
  dsimp only
  rw [failed]
  dsimp only
  split <;> rfl

/-- Taking a line when the values are written at once, apart from what was printed before. -/
theorem takeLineJoint_eq (last : Bool) (s : State) (line : Bytes) :
    takeLineJoint last s.apart line = State.apart <$> takeLineBy answerLineJoint last s line := by
  rw [takeLineJoint, takeLine_eq]
  -- Only a line that can be read prints anything, and that is written.
  by_cases skipped : (s.pending.isEmpty && isBlank line) = true
  · rw [takeLineBy_skip skipped, takeLineBy_skip (s := s.apart) skipped]
    simp only [pure_bind, map_pure]
    exact (congrArg (· >>= _) write_nil).trans (pure_bind _ _)
  -- The line is read together with those before, on both sides.
  · cases read : Form.parseLine (s.pending ++ line) with
    | ok form =>
      rw [takeLineBy_ok skipped read, takeLineBy_ok (s := s.apart) skipped read]
      simp [answerLineJoint, State.apart, Written.append_eq]
    | error e =>
      rw [takeLineBy_error skipped read, takeLineBy_error (s := s.apart) skipped read,
        State.refused_apart]
      simp only [pure_bind, map_pure]
      exact (congrArg (· >>= _) write_nil).trans (pure_bind _ _)

/--
The loop that writes where programs print is the one that writes each line when it is answered. It
gives the same reports, and nothing apart from them.
-/
theorem runJoint_eq (input : Input) : runJoint input = do
    return { diagnostics := (← runBy answerLineJoint input).diagnostics } := by
  -- By induction on the lines; what was printed before makes no difference to a line.
  have lines : ∀ lines (s : State), takeLines (takeLineJoint false) s.apart lines =
      State.apart <$> takeLinesBy answerLineJoint s lines := by
    intro lines
    induction lines with
    | nil => exact fun s => rfl
    | cons line rest ih =>
      -- The first line is taken in the same way, and the state after it is told apart again.
      intro s
      rw [takeLines, takeLinesBy, takeLineJoint_eq, bind_map_left, map_bind]
      simp only [ih]
  -- With the lines taken alike, only the end of the input is left.
  rw [runJoint, runWith, runBy, show ({} : State) = State.apart {} from rfl, lines, bind_map_left]
  simp only [bind_assoc]
  refine bind_congr fun s => ?_
  rw [readReport]
  cases input.failure with
  | some reason => simp [State.apart, Written.append_eq]
  | none =>
    simp only [takeLineJoint_eq, bind_map_left, bind_assoc, pure_bind]
    rfl

end QLisp.Repl
