import QLisp.Proofs.Form.InFile
import QLisp.Proofs.Rooted
import QLisp.Proofs.Shared.Given
import QLisp.Proofs.Shared.Script

/-!
Diagnostics of files.

A file that cannot be read is reported with the place that the reader gives, both when it is evaluated
and when it is loaded, and each bad token of a file that can be read is an error with its place. All of
these are places in what is left of the file behind its interpreter line.
-/

namespace QLisp.Shared

variable {m m' : Machine} {path : Text.Bytes} {file : Text.Bytes} {e : ParseError} {forms : List Form}

namespace Act

/-- An error stands for itself, however many reductions are in progress. -/
theorem evaluate_error (scope : ScopeId) (failure : Failure) (m : Machine) :
    evaluate scope (.error failure) m = .ok (.error failure) m := by
  rw [evaluate_run]
  cases m.world.limit - m.depth <;> rfl

/-- Loading a file that cannot be read gives an error with the place and the complaint of the reader. -/
theorem load_malformed (ev : Evaluator) (scope : ScopeId) {arguments : Handle}
    (given : m.heap.elements arguments = [.string path]) (found : m.world.files path = .ok file)
    (stuck : Form.parse (withoutInterpreterLine file) = .error e) :
    call ev scope (.builtin (.primitive .load)) arguments m =
      .ok (.error (.malformedSource
      (Text.encode "load " ++ path ++ Text.encode (": " ++ e.message)))) (m.asking [path]) := by
  -- The only argument is taken as the path, and the file is asked for.
  have taken : call ev scope (.builtin (.primitive .load)) arguments m = load ev scope path m :=
    onOne_given .load given (loadNamed ev scope .load)
  have read : inWorld (Run.readFile path) m = .ok (.ok file) (m.asking [path]) := by
    rw [← found]
    rfl
  rw [taken, load, bind_ok read]
  simp only [stuck]
  rfl

end Act

namespace Performs

/-- Every top-level token that is bad gives its error as a result. -/
theorem malformed {results : List Handle}
    (performs : Performs m (Form.toValues Primitive.all forms) results m') {index : Nat}
    {place : Position} {message : String}
    (token : forms[index]? = some (.atom place (.malformed message))) :
    results[index]? = some (.error (.malformedSource (Text.encode message))) := by
  -- The induction is on the forms, each of which has one result.
  induction forms generalizing m results index with
  | nil => simp at token
  | cons form rest ih =>
    rw [Form.toValues] at performs
    cases performs with
    | next first others =>
      -- The form is the first one, or one of the others.
      cases index with
      | succ index => simpa using ih others (by simpa using token)
      | zero =>
        simp only [List.getElem?_cons_zero, Option.some.injEq] at token ⊢
        subst token
        -- A malformed token is evaluated to the message that it holds.
        have placed : (do Act.evaluate Scopes.global (← ListOp.place
            (.error (.malformedSource (Text.encode message)))) : Act Handle) m = _ :=
          Act.evaluate_error Scopes.global (.malformedSource (Text.encode message)) m
        cases first.symm.trans placed
        rfl

end Performs

/-- A file that cannot be read is reported with its path when it is evaluated. -/
theorem Act.evaluateFile_malformed (found : m.world.files path = .ok file)
    (stuck : Form.parse (withoutInterpreterLine file) = .error e) :
    evaluateFile path m = .ok (.error (.parse (some path) e)) (m.asking [path]) := by
  have unread : (Source.file path).read m.world.files = .error (.parse (some path) e) := by
    rw [Source.read, found]
    simp only [Run.readText, stuck]
    rfl
  exact evaluateSource_unread unread

/-- Every form of a file that can be read is evaluated, bad tokens among them. -/
theorem Act.evaluateFile_performs {answer : Except SourceError (List Handle)}
    (found : m.world.files path = .ok file)
    (read : Form.parse (withoutInterpreterLine file) = .ok forms)
    (ran : evaluateFile path m = .ok answer m') : ∃ results, answer = .ok results ∧
      Performs (m.asking [path]) (Form.toValues Primitive.all forms) results m' := by
  have expressions : (Source.file path).read m.world.files = .ok (Form.toValues Primitive.all forms) := by
    rw [Source.read, found]
    simp only [Run.readText, read]
    rfl
  -- Evaluating the file is evaluating the values of its forms in order.
  have evaluated := (evaluateSource_read expressions).symm.trans ran
  obtain ⟨results, n, performed, rest⟩ := of_bind_ok evaluated
  cases rest
  exact ⟨results, rfl, performs_each performed⟩

/--
The places that are reported for a file are those in what is left of it behind its interpreter line.

Any requests to a session are carried out without a fault, and on the machine that they leave a file is
evaluated. If it cannot be read, that gives the error of the reader under the path of the file, and
loading the file at any moment, from any scope, gives an error about source text with the same place and
complaint. The place lags behind the one that is meant: it is that place if the file has no interpreter
line, and otherwise one in the line before, with too small an offset. If the file can be read, then it
is evaluated to its end, a bad token at the top level giving an error that names the place of the token,
and the places of all its forms, bad tokens among them, lag behind those where they begin.
-/
theorem file_diagnostics (files : Files) (requests : List Request) (path : Text.Bytes) (file : Text.Bytes)
    (found : files path = .ok file) :
    ∃ m, requests.forM Act.perform (Machine.standard files) = .ok () m ∧
      (∀ e, Form.parse (withoutInterpreterLine file) = .error e → e.Lags file ∧
        Act.evaluateFile path m = .ok (.error (.parse (some path) e)) (m.asking [path]) ∧
        (SourceError.parse (some path) e).message =
          path ++ Text.encode (": " ++ (e.position.render ++ ": " ++ e.fault.message)) ∧
        ∀ n ev scope arguments, n.world.files path = .ok file →
          n.heap.elements arguments = [.string path] →
          Act.call ev scope (.builtin (.primitive .load)) arguments n =
            .ok (.error (.malformedSource (Text.encode "load " ++ path ++
              Text.encode (": " ++ (e.position.render ++ ": " ++ e.fault.message)))))
              (n.asking [path])) ∧
      ∀ forms, Form.parse (withoutInterpreterLine file) = .ok forms →
        (∃ results m', Act.evaluateFile path m = .ok (.ok results) m' ∧
          Performs (m.asking [path]) (Form.toValues Primitive.all forms) results m' ∧
          ∀ (index : Nat) place message, forms[index]? = some (Form.atom place (.malformed message)) →
            results[index]? = some (Handle.error (.malformedSource (Text.encode message)))) ∧
        (∀ form ∈ Form.nodesAll forms, form.Lags file) ∧
        ∀ place message, Form.atom place (.malformed message) ∈ Form.nodesAll forms →
          ∃ complaint, message = place.render ++ ": " ++ complaint := by
  -- The requests leave the files as they are, and the machine idle.
  obtain ⟨_, _, mirrors, idle⟩ := mirrors_standard files
  obtain ⟨m, store, ran, mirrors, idle⟩ := mirrors.session requests idle
  have ready : Ready m.world.limit 0 m Scopes.global := ⟨mirrors.global, rfl, idle⟩
  have held : m.world.files path = .ok file := by
    rw [mirrors.files, World.files_session, found]
  refine ⟨m, ran, ?_, ?_⟩
  -- A file that is not readable is told of, by evaluating it and by loading it.
  · intro e stuck
    refine ⟨Form.parse_error_lags stuck, Act.evaluateFile_malformed held stuck, rfl, ?_⟩
    intro n ev scope arguments there given
    exact Act.load_malformed ev scope given there stuck
  -- Otherwise each form lies behind the line that was skipped.
  · intro forms read
    have lags := Form.parse_lags read
    refine ⟨?_, lags, ?_⟩
    · -- Evaluating the file ends, and then every form of it has been performed.
      obtain ⟨answer, m', _, evaluated, _⟩ :=
        (Act.follows_evaluateSource mirrors ready (.file path)).ok
      obtain ⟨results, rfl, performs⟩ := Act.evaluateFile_performs held read evaluated
      refine ⟨results, m', evaluated, performs, ?_⟩
      -- A malformed token is told with its own place.
      intro index place message token
      exact performs.malformed token
    · intro place message member
      exact (lags _ member).begins.diagnostic

/-- A closing bracket right behind an interpreter line is reported on the first line, not the second. -/
theorem file_diagnostics_behind_line :
    let path := Text.encode "s.risp"
    let file := Text.encode "#!/usr/bin/env risp\n)"
    ∃ m, Act.evaluateFile path m =
        .ok (.error (.parse (some path) ⟨⟨0, 1, 1⟩, .unexpectedCloser ')'⟩)) (m.asking [path]) ∧
      (SourceError.parse (some path) ⟨⟨0, 1, 1⟩, .unexpectedCloser ')'⟩).message =
        Text.encode "s.risp: 1:1: unexpected ')'" ∧
      Position.Marks ⟨20, 2, 1⟩ file ∧
      (Text.decode (file.drop 20)).chars.head? = some ')' := by
  intro path file
  -- Without the first line the file is a closing bracket, which nothing has opened.
  have stuck : Form.parse (withoutInterpreterLine file) =
      .error ⟨⟨0, 1, 1⟩, .unexpectedCloser ')'⟩ := by
    have left : withoutInterpreterLine file = Text.encode ")" := by decide
    rw [left, Form.parse_encode]
    rfl
  obtain ⟨m, _, malformed, _⟩ := file_diagnostics (fun _ => .ok file) [] path file rfl
  obtain ⟨lags, evaluated, _⟩ := malformed _ stuck
  -- The place that is meant is moved by the line that was left out.
  have meant : Position.moved (.inFile file) ⟨0, 1, 1⟩ = ⟨20, 2, 1⟩ := by decide
  have marks := lags.place.marks
  have culprit := lags.culprit
  rw [meant] at marks culprit
  exact ⟨m, evaluated, rfl, marks, culprit⟩

end QLisp.Shared
