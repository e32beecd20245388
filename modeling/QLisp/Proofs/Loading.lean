import QLisp.Proofs.Rooted

/-!
Loading a file and evaluating it.

A file is loaded by reading it, evaluating its forms in the outermost scope and printing the errors
among the results. Evaluating it does the first two at the top level. In a session every scope leads to
the global one, so the forms are evaluated in the same scope. To see that this is so wherever an
operator is applied, an evaluator is made to print a text where it is not.
-/

namespace QLisp

/-- The errors among values, each on a line of its own. -/
def Value.errorLines (values : List Value) : Text.Bytes :=
  (values.filter (·.isError)).flatMap (·.render ++ Text.encode "\n")

namespace Run

variable {w : World Value} {ev ev' : Evaluator} {scope : ScopeId} {path : Text.Bytes}
  {bytes : Text.Bytes} {forms : List Form}

/-- Loads what a file holds, or fails because it cannot be read. -/
def loadContents (ev : Evaluator) (scope : ScopeId) (path : Text.Bytes) :
    Except FileFault Text.Bytes → Run Value
  | .error fault => return .error (.raised (Text.encode "load: " ++ fault.message path))
  | .ok bytes =>
    match Form.parse (withoutInterpreterLine bytes) with
    | .error e => return .error (.malformedSource
      (Text.encode "load " ++ path ++ Text.encode (": " ++ e.message)))
    | .ok forms => do
      let results ← each ev scope (Form.toValues Primitive.all forms)
      write (Value.errorLines results)
      return .unit

/-- A file is loaded by loading what it holds, after the path has been noted. -/
theorem load_run (ev : Evaluator) (scope : ScopeId) (path : Text.Bytes) (w : World Value) :
    load ev scope path w =
      loadContents ev scope path (w.files path) { w with asked := path :: w.asked } := rfl

/-- A file that cannot be read is not loaded. -/
theorem load_missing {fault : FileFault} (missing : w.files path = .error fault) :
    load ev scope path w = (.error (.raised (Text.encode "load: " ++ fault.message path)),
      { w with asked := path :: w.asked }) := by
  rw [load_run, missing]
  rfl

/-- A file that is no sequence of forms is not loaded. -/
theorem load_malformed {e : ParseError} (found : w.files path = .ok bytes)
    (malformed : Form.parse (withoutInterpreterLine bytes) = .error e) :
    load ev scope path w = (.error (.malformedSource
      (Text.encode "load " ++ path ++ Text.encode (": " ++ e.message))),
      { w with asked := path :: w.asked }) := by
  rw [load_run, found, loadContents, malformed]
  rfl

/-- A file of forms is evaluated by evaluating these in order, after the path has been noted. -/
theorem evaluateFile_forms (found : w.files path = .ok bytes)
    (parsed : Form.parse (withoutInterpreterLine bytes) = .ok forms) :
    evaluateFile path w = (do
      return .ok (← each evaluate Scopes.global (Form.toValues Primitive.all forms)) : Run _)
        { w with asked := path :: w.asked } := by
  -- The path is noted before anything is known about the file.
  have opened : evaluateFile path w = (match w.files path with
    | .error fault => pure (.error (.file path fault))
    | .ok bytes => do
      return (← evaluateText (withoutInterpreterLine bytes)).mapError (.parse (some path)) :
        Run _) { w with asked := path :: w.asked } := rfl
  rw [opened, found]
  simp only [evaluateText, parsed]
  rfl

/-- A file of forms is loaded in the global scope by evaluating it and printing its errors. -/
theorem load_forms (found : w.files path = .ok bytes)
    (parsed : Form.parse (withoutInterpreterLine bytes) = .ok forms) :
    ∃ results u, evaluateFile path w = (.ok results, u) ∧
      load evaluate Scopes.global path w =
        (.unit, { u with output := u.output ++ Value.errorLines results }) := by
  rw [evaluateFile_forms found parsed, load_run, found, loadContents]
  simp only [parsed]
  exact ⟨_, _, rfl, rfl⟩

/-- Applies an operator, printing a text first if the scope does not lead to the global one. -/
def callWatching (text : Text.Bytes) : Caller := fun ev scope operator arguments => do
  unless (← root scope) = Scopes.global do write text
  call ev scope operator arguments

/-- Where scopes lead to the global one, the text is not printed. -/
theorem callWatching_run (text : Text.Bytes) (ev : Evaluator)
    (outermost : w.scopes.root scope = Scopes.global) (operator : Value) (arguments : List Value) :
    callWatching text ev scope operator arguments w = call ev scope operator arguments w := by
  have watched : callWatching text ev scope operator arguments w = (do
      unless w.scopes.root scope = Scopes.global do write text
      call ev scope operator arguments : Run Value) w := rfl
  rw [watched, if_pos outermost]

/-- In rooted worlds it makes no difference that the scope is watched. -/
theorem blind_callWatching (c : Comparison) (text : Text.Bytes) :
    Caller.Blind c call (callWatching text) := by
  intro ev ev' blind w w' scope scope' operator operator' arguments arguments' related linked
    operators given
  have plain := resembles_call blind related linked operators given
  have same := callWatching_run text ev' (related.root linked).2 operator' arguments'
  exact ⟨same ▸ plain.world, plain.within, same ▸ plain.good⟩

/-- An evaluator that watches scopes has the same output in a rooted world. -/
theorem output_watching (rooted : w.Rooted) (text : Text.Bytes) (source : Source) :
    (evaluateSourceBy (evaluateVia (callWatching text)) source w).2.output =
      (evaluateSource source w).2.output := by
  have resembles := rooted.resembles_source
    (blind_evaluateVia (blind_callWatching (.upTo Eq .eq w) text)) source
  rw [evaluateVia_call, ← evaluateSource_eq] at resembles
  obtain ⟨printed, printed', early, late, same⟩ := resembles.world.output
  rw [early, late, same.eq]
  rfl

end Run
end QLisp
