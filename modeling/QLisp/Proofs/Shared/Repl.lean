import QLisp.Proofs.Program.Segment
import QLisp.Proofs.Shared.NormalForms
import QLisp.Proofs.Text.Utf8

/-!
The read-eval-print loop in a session.

With the evaluator in place the loop does what it does with the one on immutable values: it performs
the segments of its input in order. What it writes is kept apart from what programs print, which is
part of the machine.
-/

namespace QLisp.Shared

variable {mine store : CellId → Prop} {m m' : Machine} {w : World Value}

namespace Act

/-- Evaluates the form of a line in place and shows its value. -/
def answerLine (form : Form) : Act Text.Bytes := do
  let v ← evaluate Scopes.global (← ListOp.place (form.toValue Primitive.all))
  return (← ListOp.view v).render

/-- Answering a line in place follows answering it. -/
theorem follows_answerLine (mirrors : Mirrors True mine store m w) (idle : m.depth = 0) (form : Form) :
    Follows True mine store m w (answerLine form) (Repl.answerLine form)
      fun _ _ shown shown' => shown = shown' := by
  have ready : Ready m.world.limit 0 m Scopes.global := ⟨mirrors.global, rfl, idle⟩
  refine .place mirrors (form.obeys_toValue Primitive.all) fun v h' _ mirrors yields => ?_
  refine (simulates_evaluate mirrors ready.edit yields).bind fun store₁ m₁ result mirrors₁ _ given => ?_
  -- The result is on containers that are owned, so it is seen as the value.
  obtain ⟨ids, holds, free⟩ := given
  have stands := free.stands holds
  refine (follows_pure mirrors₁ (congrArg Value.render stands.view)).congr
    ((view_bind _ fun shown => pure shown.render).trans ?_)
  rw [if_pos stands.ends]

/-- Performing a segment in place follows performing it. -/
theorem follows_performSegment (mirrors : Mirrors True mine store m w) (idle : m.depth = 0)
    (segment : Repl.Segment) :
    Follows True mine store m w (segment.perform answerLine) (segment.perform Repl.answerLine)
      fun _ _ written written' => written = written' := by
  -- A blank line is skipped, and a chunk is parsed before anything is evaluated.
  cases segment with
  | blank line => exact follows_pure mirrors rfl
  | chunk lines =>
    rw [Repl.Segment.perform, Repl.Segment.perform]
    cases Form.parseLine lines.flatten with
    | error e => exact follows_pure mirrors rfl
    | ok form =>
      exact (follows_answerLine mirrors idle form).bind fun _ _ _ mirrors _ same =>
        follows_pure mirrors (by rw [same])

/-- Performing segments in place follows performing them. -/
theorem follows_performAll (mirrors : Mirrors True mine store m w) (idle : m.depth = 0)
    (segments : List Repl.Segment) :
    Follows True mine store m w (Repl.performAll answerLine segments)
      (Repl.performAll Repl.answerLine segments) fun _ _ written written' => written = written' := by
  -- By induction on the segments; none leaves a reduction in progress.
  induction segments generalizing mine store m w with
  | nil => exact follows_pure mirrors rfl
  | cons segment rest ih =>
    rw [Repl.performAll, Repl.performAll]
    refine (follows_performSegment mirrors idle segment).bind fun _ _ first mirrors₁ moves same => ?_
    refine (ih mirrors₁ (moves.depth.trans idle)).bind fun _ _ others mirrors₂ _ same' => ?_
    exact follows_pure mirrors₂ (by rw [same, same'])

/-- The loop with the evaluator in place follows the loop. -/
theorem follows_repl (mirrors : Mirrors True mine store m w) (idle : m.depth = 0) (input : Input) :
    Follows True mine store m w (Repl.runBy answerLine input) (Repl.run input)
      fun _ _ written written' => written = written' := by
  have divides := Repl.divide_divides .nil (Repl.cut input.bytes).finished
  rw [Repl.run_eq, Repl.runBy_eq input divides, Repl.runBy_eq input divides]
  exact (follows_performAll mirrors idle _).bind fun _ _ _ mirrors _ same =>
    follows_pure mirrors (by rw [same])

end Act

/-! ### What is done about segments -/

/-- What is done about a segment on a machine, what is written about it, and the machine after it. -/
inductive Machine.Performs (m : Machine) : Repl.Segment → Repl.Written → Machine → Prop where
  /-- A blank line is skipped. -/
  | skipped {line : Text.Bytes} : m.Performs (.blank line) {} m
  /-- A chunk that can be read is evaluated as one list, and its value is printed on a line. -/
  | evaluated {lines : List Text.Bytes} {forms : List Form} {v : Handle} {m' : Machine}
      (read : Form.parse lines.flatten = .ok forms)
      (ran : (do Act.evaluate Scopes.global (← ListOp.place
        (.sexpr (Form.toValues Primitive.all forms))) : Act Handle) m = .ok v m') :
      m.Performs (.chunk lines) { printed := (m'.heap.view v).render ++ Text.encode "\n" } m'
  /-- A chunk that cannot be read is reported, and the machine is as it was. -/
  | reported {lines : List Text.Bytes} {e : ParseError} (failed : Form.parse lines.flatten = .error e) :
      m.Performs (.chunk lines)
        { diagnostics := Text.encode "parse error: " ++ Text.encode e.message ++ Text.encode "\n" } m

/-- What is done about segments one after another, each on the machine that the one before it left. -/
inductive Machine.PerformsAll : Machine → List Repl.Segment → Repl.Written → Machine → Prop where
  | nil {m : Machine} : m.PerformsAll [] {} m
  | cons {m m₁ m' : Machine} {segment : Repl.Segment} {rest : List Repl.Segment}
      {first others : Repl.Written} (performs : m.Performs segment first m₁)
      (later : m₁.PerformsAll rest others m') :
      m.PerformsAll (segment :: rest) (first ++ others) m'

/-- A segment that is performed without a fault is skipped, evaluated or reported. -/
theorem Machine.Performs.of_perform {segment : Repl.Segment} {written : Repl.Written}
    (ran : segment.perform Act.answerLine m = .ok written m') : m.Performs segment written m' := by
  -- A blank line is skipped, and the lines of a chunk are read together.
  cases segment with
  | blank line =>
    cases ran
    exact .skipped
  | chunk lines =>
    rw [Repl.Segment.perform, Form.parseLine] at ran
    cases read : Form.parse lines.flatten with
    | error e =>
      rw [read] at ran
      cases ran
      rw [Text.encode_append, Text.encode_append]
      exact .reported read
    | ok forms =>
      rw [read] at ran
      -- The form is evaluated, and its value is seen without a change.
      obtain ⟨shown, m₁, answered, wrote⟩ := Act.of_bind_ok ran
      cases wrote
      rw [Act.answerLine, ← bind_assoc] at answered
      obtain ⟨v, m₂, evaluated, viewed⟩ := Act.of_bind_ok answered
      -- A value that leads on for ever would have stopped the loop.
      rw [Act.view_bind] at viewed
      cases ends : m₂.heap.ends v with
      | false =>
        rw [ends] at viewed
        cases viewed
      | true =>
        rw [ends] at viewed
        cases viewed
        exact .evaluated read evaluated

/-- Segments that are performed without a fault are so one after another. -/
theorem Machine.PerformsAll.of_performAll {segments : List Repl.Segment} {written : Repl.Written}
    (ran : Repl.performAll Act.answerLine segments m = .ok written m') :
    m.PerformsAll segments written m' := by
  induction segments generalizing m written with
  | nil =>
    cases ran
    exact .nil
  | cons segment rest ih =>
    rw [Repl.performAll] at ran
    obtain ⟨first, m₁, performed, ran⟩ := Act.of_bind_ok ran
    obtain ⟨others, m₂, later, wrote⟩ := Act.of_bind_ok ran
    cases wrote
    exact .cons (.of_perform performed) (ih later)

/--
The loop is a state machine on the lines of its input.

The finished lines of any input are divided, in one way only, into segments and lines left pending. A
blank line with nothing pending is a segment. A chunk begins with a line that is not blank, and goes on
as long as the lines wait for more. When the input ends, what is left makes a last segment with the
unfinished line, so every line is in one segment. When the input cannot be read to its end, these are
left out. The loop performs the segments in order, whatever answers the lines.

After any requests to a session, the loop with the evaluator in place ends without a fault. About each
segment it does what it should on the machine that the one before it left: it skips a blank line,
evaluates a chunk that can be read as one list and prints the value on a line of its own, or reports a
chunk that cannot be read on a line of its own and leaves the machine as it was. What it writes is what
is written about the segments, and a line about an input that cannot be read to its end. None of this
is part of what programs print, which is that of the loop on immutable values, as are the bindings, and
no reduction is in progress at the end.
-/
theorem repl_performs_segments (input : Input) :
    let lines := Repl.cut input.bytes
    lines.finished.flatten ++ lines.rest = input.bytes ∧
    (∀ line ∈ lines.finished, Repl.IsLine line) ∧ 0x0A ∉ lines.rest ∧
    ∃ segments left, Repl.Divides segments left lines.finished ∧
      (∀ segments' left', Repl.Divides segments' left' lines.finished →
        segments' = segments ∧ left' = left) ∧
      (input.failure = none → (segments ++ Repl.closing input left).flatMap Repl.Segment.lines =
        lines.finished ++ [lines.rest]) ∧
      (∀ {M : Type → Type} [Monad M] [LawfulMonad M] (answer : Form → M Text.Bytes),
        Repl.runBy answer input = do
          return (← Repl.performAll answer (segments ++ Repl.closing input left)) ++
            { diagnostics := Repl.readReport input }) ∧
      Repl.run input = Repl.runBy Repl.answerLine input ∧
      ∀ (files : Files) (requests : List Request),
        let w := Run.after (requests.forM Request.perform) (World.standard files)
        ∃ m m' performed, requests.forM Act.perform (Machine.standard files) = .ok () m ∧
          m.PerformsAll (segments ++ Repl.closing input left) performed m' ∧
          Repl.runBy Act.answerLine input m = .ok (Repl.run input w).1 m' ∧
          (input.failure = none → (Repl.run input w).1 = performed) ∧
          (∀ reason, input.failure = some reason → (Repl.run input w).1 = { performed with
            diagnostics := performed.diagnostics ++
              (Text.encode "read error: " ++ reason ++ Text.encode "\n") }) ∧
          m'.depth = m.depth ∧ m'.world.output = (Repl.run input w).2.output ∧
          (∀ id, m'.world.scopes.parent? id = (Repl.run input w).2.scopes.parent? id) ∧
          ∀ id name, m'.binding? id name = (Repl.run input w).2.scopes.local? id name := by
  intro lines
  -- The lines are divided as the walk over them does it, and there is no other division.
  have divides : Repl.Divides (Repl.divide [] lines.finished).1 (Repl.divide [] lines.finished).2
      lines.finished := Repl.divide_divides .nil lines.finished
  generalize (Repl.divide [] lines.finished).1 = segments at divides
  generalize (Repl.divide [] lines.finished).2 = left at divides
  refine ⟨Repl.cut_flatten _, (Repl.cut_isLine _).1, (Repl.cut_isLine _).2, segments, left, divides,
    fun segments' left' others => ?_, fun ends => ?_, fun answer => Repl.runBy_eq input divides,
    Repl.run_eq input, fun files requests => ?_⟩
  -- Any other division of the lines is this one.
  · have same := others.divide_eq.symm.trans divides.divide_eq
    exact ⟨congrArg Prod.fst same, congrArg Prod.snd same⟩
  -- With what comes after the last line the segments are all of the input.
  · rw [Repl.closing, ends, List.flatMap_append, ← divides.lines, List.append_assoc]
    simp [Repl.lines_lastSegment, lines]
  -- In place, the loop follows the one on immutable values after any requests.
  · obtain ⟨_, store, mirrors, idle⟩ := mirrors_standard files
    obtain ⟨m, store, ran, mirrors, idle⟩ := mirrors.session requests idle
    obtain ⟨written, m', _, ended, mirrors', moves, rfl⟩ := (Act.follows_repl mirrors idle input).ok
    have performs := ended
    rw [Repl.runBy_eq input divides] at performs
    obtain ⟨performed, m₁, performed_ok, wrote⟩ := Act.of_bind_ok performs
    obtain ⟨same, rfl⟩ := EStateM.Result.ok.inj wrote
    refine ⟨m, m₁, performed, ran, .of_performAll performed_ok, ended, fun none => ?_,
      fun reason failed => ?_, moves.depth, mirrors'.output, mirrors'.parent?, mirrors'.binding?⟩
    -- What is left to be written is the report of an input that cannot be read on.
    · rw [← same, Repl.readReport, none]
      exact Repl.Written.append_nil performed
    · rw [← same, Repl.readReport, failed, Repl.Written.append_eq, List.append_nil]

end QLisp.Shared
