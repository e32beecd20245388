import QLisp.Proofs.Congruence
import QLisp.Proofs.Rooted
import QLisp.Proofs.Value.Diagnostic

/-!
Brackets around expressions.

The expressions of a line are evaluated as one list in round brackets. A text that is put between
brackets is such a list too, so it gives what the line gives, apart from the places in its diagnostics.
A lone expression in brackets is evaluated, and then what it gives is evaluated once more. That is
normal or an error, so it is given back.
-/

namespace QLisp

/-- A failure that is no diagnostic of a text, neither on its own nor between brackets. -/
def Failure.Foreign (bytes : Text.Bytes) (e : Failure) : Prop :=
  e ∉ Text.diagnostics bytes ∧ e ∉ Text.diagnostics (Text.enclosed bytes)

/-- Files hold values that are like themselves when failures in what they hold are related so. -/
theorem Files.steady_of_diagnostics {rel : FailureRel} {files : Files}
    (loaded : ∀ path contents, files path = .ok contents →
      ∀ e ∈ Text.diagnostics (withoutInterpreterLine contents), rel e e) : files.Steady rel := by
  intro path contents forms found parsed
  have related := loaded path contents found
  rw [Text.diagnostics, parsed] at related
  exact Value.alikeAll_iff.mp (Value.alikeAll_self _ related)

/-- What is bound in the global scope is found there. -/
theorem Scopes.lookup_bind_global {scopes : Scopes Value} (made : scopes.Made global)
    (name : String) (v : Value) : (scopes.bind global name v).lookup global name = v := by
  simp [lookup, lookup?, chain_global, local?_bind, made]

namespace Run

variable {bytes : Text.Bytes} {forms : List Form} {form : Form} {w w' : World Value}
  {scope : ScopeId} {v : Value} {name : String} {items : List Value}

/-- A run with one value ends with an answer that has it. -/
theorem single_run (run : Run Value) (w : World Value) :
    (do return .ok [← run] : Run (Except SourceError (List Value))) w =
      (.ok [(run w).1], (run w).2) := rfl

/-- The expressions of a line are evaluated as one list in round brackets. -/
theorem evaluateSource_line (read : Form.parse bytes = .ok forms) :
    evaluateSource (.line bytes) = do
      return .ok [← evaluate Scopes.global (.sexpr (Form.toValues Primitive.all forms))] := by
  rw [evaluateSource, evaluateLine, Form.parseLine, read]
  rfl

/-- The only expression of a text is evaluated as it is. -/
theorem evaluateSource_lone (read : Form.parse bytes = .ok [form]) :
    evaluateSource (.text bytes) = do
      return .ok [← evaluate Scopes.global (form.toValue Primitive.all)] := by
  rw [evaluateSource, evaluateText, read]
  rfl

/-- A line is evaluated like its text between brackets. -/
theorem resembles_enclosed {c : Comparison} (related : w.Related c w')
    (read : Form.parse bytes = .ok forms)
    (likeness : Value.AlikeAll c.failures (Form.toValues Primitive.all forms)
      (Form.toValues Primitive.all (forms.map Form.enclosed))) :
    Resembles c w w' (evaluateSource (.line bytes)) (evaluateSource (.text (Text.enclosed bytes)))
      fun scopes answer answer' =>
        ∃ v v', answer = .ok [v] ∧ answer' = .ok [v'] ∧ c.values scopes v v' := by
  rw [evaluateSource_line read, evaluateSource_lone (Form.parse_enclosed read)]
  have outermost : c.link w.scopes Scopes.global Scopes.global := ⟨c.global, related.global⟩
  -- What is read holds no functions.
  have lists : c.values w.scopes (.sexpr (Form.toValues Primitive.all forms))
      (.sexpr (Form.toValues Primitive.all (forms.map Form.enclosed))) := by
    refine .list .sexpr (likeness.related ?_)
    exact Value.obeyAll_iff.mpr fun v member => Form.obeys_of_mem_toValues member
  refine (blind_evaluate related outermost lists).bind fun v v' u u' related within values => ?_
  exact resembles_pure related ⟨v, v', rfl, rfl, values⟩

/-- A normal value evaluates to itself where a reduction is allowed. -/
theorem eval_normal (normal : v.isNormal) (room : Nat) (scope : ScopeId) :
    eval (room + 1) scope v w = (v, w) := by
  cases v with
  | symbol name => simp [Value.isNormal] at normal
  | list kind items =>
    cases kind with
    | sexpr =>
      -- Only the empty list is normal.
      obtain rfl := List.isEmpty_iff.mp normal
      rfl
    | qexpr => rfl
  | _ => rfl

/-- A lone expression in brackets is evaluated to what it is evaluated to without them. -/
theorem reduce_lone (tidy : w.Tidy) (regular : v.Regular) (room : Nat) :
    reduce (eval (room + 1)) scope [v] w = eval (room + 1) scope v w := by
  -- The value is evaluated once more, which changes nothing, since it is an error or stands for
  -- itself.
  have settles : Keeps w (eval (room + 1) scope v) (evalVia call (room + 1) scope v) Value.Settled :=
    settles_eval agrees_call (room + 1) tidy regular
  have twice : reduce (eval (room + 1)) scope [v] w =
    finish (eval (room + 1)) scope [(eval (room + 1) scope v w).1] (eval (room + 1) scope v w).2 := rfl
  rw [twice, finish]
  by_cases failed : (eval (room + 1) scope v w).1.isError
  · rw [List.find?_cons, failed]
    rfl
  · rw [List.find?_cons, Bool.eq_false_iff.mpr failed]
    exact eval_normal (settles.good.final.resolve_right failed) room scope

/-- The only expression of a text may be put in brackets where a reduction is allowed. -/
theorem evaluateSource_brackets (tidy : w.Tidy) (positive : 0 < w.limit)
    (read : Form.parse bytes = .ok [form]) :
    evaluateSource (.text bytes) w = (do
      return .ok [← reduce (eval w.limit) Scopes.global [form.toValue Primitive.all]] : Run _) w := by
  obtain ⟨room, limited⟩ : ∃ room, w.limit = room + 1 :=
    ⟨w.limit - 1, (Nat.sub_add_cancel positive).symm⟩
  have regular := form.regular_toValue Primitive.all
  have whole : evaluate Scopes.global (form.toValue Primitive.all) w =
    eval w.limit Scopes.global (form.toValue Primitive.all) w := rfl
  rw [evaluateSource_lone read, single_run, single_run, whole, limited, reduce_lone tidy regular]

/-! ### A definition, and a comparison with what it binds -/

/-- The first of several values without an error is applied to the others. -/
theorem reduce_call {ev : Evaluator} {operator argument : Value} {rest : List Value}
    (values : each ev scope items w = (operator :: argument :: rest, w'))
    (fine : (operator :: argument :: rest).find? (·.isError) = none) :
    reduce ev scope items w = call ev scope operator (argument :: rest) w' := by
  have step : reduce ev scope items w =
    finish ev scope (each ev scope items w).1 (each ev scope items w).2 := rfl
  rw [step, values]
  unfold finish
  rw [fine]

/-- A definition of one name binds it in the global scope. -/
theorem evaluate_define (positive : 0 < w.limit) (name : String) (items : List Value) :
    evaluate Scopes.global (.sexpr [.primitive .define, .qexpr [.symbol name], .qexpr items]) w =
      (.unit, { w with scopes := w.scopes.bind Scopes.global name (.qexpr items) }) := by
  -- One reduction is all that is needed, so only a limit of none at all is in the way.
  obtain ⟨room, limited⟩ : ∃ room, w.limit = room + 1 :=
    ⟨w.limit - 1, (Nat.sub_add_cancel positive).symm⟩
  -- The outermost scope of a chain that starts with the global one is the global one.
  have ran : eval (room + 1) Scopes.global
      (.sexpr [.primitive .define, .qexpr [.symbol name], .qexpr items]) w =
      let scopes := w.scopes.bind (w.scopes.root Scopes.global) name (.qexpr items)
      (.unit, { w with scopes }) := by
    cases room <;> rfl
  rw [← limited, Scopes.root_global] at ran
  exact ran

/-- A comparison with a name compares with what the name is bound to. -/
theorem evaluate_equal (positive : 0 < w.limit)
    (bound : w.scopes.lookup Scopes.global name = .qexpr items) (others : List Value) :
    (evaluate Scopes.global (.sexpr [.primitive .equal, .symbol name, .qexpr others]) w).1 =
      .bool ((Value.qexpr items).same (.qexpr others)) := by
  obtain ⟨room, limited⟩ : ∃ room, w.limit = room + 1 :=
    ⟨w.limit - 1, (Nat.sub_add_cancel positive).symm⟩
  -- The name is the only element that does not stand for itself.
  have values : each (eval room) Scopes.global [.primitive .equal, .symbol name, .qexpr others] w =
      ([.primitive .equal, .qexpr items, .qexpr others], w) := by
    rw [← bound]
    cases room <;> rfl
  show (eval w.limit Scopes.global _ w).1 = _
  rw [limited]
  exact congrArg Prod.fst (reduce_call values rfl)

/-- A text that defines one name leaves it bound in the global scope. -/
theorem after_define (positive : 0 < w.limit) (read : Form.parse bytes = .ok [form])
    (means : form.toValue Primitive.all =
      .sexpr [.primitive .define, .qexpr [.symbol name], .qexpr items]) :
    after ([Request.evaluate (.text bytes)].forM Request.perform) w =
      { w with scopes := w.scopes.bind Scopes.global name (.qexpr items) } := by
  show (evaluateSource (.text bytes) w).2 = _
  rw [evaluateSource_lone read, single_run, means, evaluate_define positive]

end Run
end QLisp
