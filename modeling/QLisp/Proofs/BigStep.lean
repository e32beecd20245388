import QLisp.Proofs.Brackets
import QLisp.Proofs.Growth
import QLisp.Proofs.Refusal

/-!
Evaluation with room enough.

What an expression evaluates to is told by rules here, one for each way to evaluate it. A rule says how
much room is enough: one reduction more for each list. They hold of evaluation, and of evaluation that
asks for a path when a reduction is refused.
-/

namespace QLisp

/-- An operation is no error. -/
@[simp] theorem Value.isError_primitive (p : Primitive) : (Value.primitive p).isError = false := rfl

/-- A quoted list is no error. -/
@[simp] theorem Value.isError_qexpr (items : List Value) : (Value.qexpr items).isError = false := rfl

/-- A function is no error. -/
@[simp] theorem Value.isError_lambda (formals body : Value) (scope : Option ScopeId) :
    (Value.lambda formals body scope).isError = false := rfl

/-- A normal value is no error. -/
theorem Value.isError_of_isNormal {v : Value} (normal : v.isNormal) : v.isError = false := by
  cases v <;> simp_all [isNormal, isError, kind]

/-- An operator that is no error has no error among it and normal arguments. -/
theorem Value.errorless_of_isNormal {operator : Value} {arguments : List Value}
    (fine : operator.isError = false) (normal : ∀ t ∈ arguments, t.isNormal) :
    (operator :: arguments).find? (·.isError) = none := by
  refine List.find?_eq_none.mpr fun t member => ?_
  rcases List.mem_cons.mp member with rfl | member
  · simp [fine]
  · simp [isError_of_isNormal (normal t member)]

namespace Run

/-- A way to evaluate with any room, which reduces a list with one reduction less to go. -/
class Stepwise (ev : Nat → Evaluator) : Prop where
  /-- With room for a reduction, a list is reduced with the room that is left. -/
  step (room : Nat) (scope : ScopeId) (v : Value) :
    ev (room + 1) scope v = evalWith (reduce (ev room) scope) scope v
  /-- Without room, everything but a list is evaluated all the same. -/
  stop (scope : ScopeId) (v : Value) : ∃ reduce, ev 0 scope v = evalWith reduce scope v

instance : Stepwise eval where
  step _ _ _ := rfl
  stop _ _ := ⟨_, rfl⟩

instance (path : Text.Bytes) : Stepwise (evalNoting path) where
  step _ _ _ := rfl
  stop _ _ := ⟨_, rfl⟩

/-- From some room on, a run ends with a result and in a world. -/
def Ends {α : Type} (enough : Nat) (run : Nat → Run α) (w : World Value) (a : α) (w' : World Value) :
    Prop :=
  ∀ room, enough ≤ room → run room w = (a, w')

variable {α β : Type} {ev : Nat → Evaluator} {enough more : Nat} {w w₁ w₂ w' : World Value}
  {scope s : ScopeId} {name : String} {t v operator argument : Value}
  {ts vs items arguments rest : List Value}

/-- An expression evaluates to a value when there is room enough, and leaves another world. -/
abbrev Evaluates (ev : Nat → Evaluator) (enough : Nat) (scope : ScopeId) (t : Value) (w : World Value)
    (v : Value) (w' : World Value) : Prop :=
  Ends enough (fun room => ev room scope t) w v w'

/-- Expressions evaluate in order to values when there is room enough, and leave another world. -/
abbrev EvaluatesAll (ev : Nat → Evaluator) (enough : Nat) (scope : ScopeId) (ts : List Value)
    (w : World Value) (vs : List Value) (w' : World Value) : Prop :=
  Ends enough (fun room => each (ev room) scope ts) w vs w'

/-- An operator gives a value for arguments when there is room enough, and leaves another world. -/
abbrev Applies (ev : Nat → Evaluator) (enough : Nat) (scope : ScopeId) (operator : Value)
    (arguments : List Value) (w : World Value) (v : Value) (w' : World Value) : Prop :=
  Ends enough (fun room => call (ev room) scope operator arguments) w v w'

namespace Ends

variable {run run' : Nat → Run α} {a : α}

/-- A run that does not depend on the room ends as it does. -/
theorem of_eq (same : ∀ room, run room w = (a, w')) : Ends enough run w a w' :=
  fun room _ => same room

/-- More room is enough too. -/
theorem mono (ends : Ends enough run w a w') (roomier : enough ≤ more) : Ends more run w a w' :=
  fun room enough => ends room (Nat.le_trans roomier enough)

/-- A run that goes on as another one does from another world ends as that one does. -/
theorem of_run (ends : Ends enough run w₁ a w') (same : ∀ room, run' room w = run room w₁) :
    Ends enough run' w a w' :=
  fun room more => (same room).trans (ends room more)

/-- A run that goes on after another one ends where the second part does. -/
theorem bind {b : β} (first : Ends enough run w a w₁) (next : α → Nat → Run β)
    (second : Ends enough (next a) w₁ b w') :
    Ends enough (fun room => run room >>= fun a => next a room) w b w' := by
  intro room more
  show next (run room w).1 room (run room w).2 = _
  rw [first room more]
  exact second room more

/-- With one reduction more, what a reduction does is done. -/
theorem deeper (ends : Ends enough run w a w') (reduces : ∀ room, run' (room + 1) w = run room w) :
    Ends (enough + 1) run' w a w' := by
  intro room more
  obtain ⟨room, rfl⟩ : ∃ less, room = less + 1 := ⟨room - 1, by omega⟩
  rw [reduces, ends room (by omega)]

end Ends

/-- Evaluation without a refusal gives what an expression evaluates to. -/
theorem Evaluates.noting {path : Text.Bytes} {room : Nat} (evaluates : Evaluates eval enough scope t w v w')
    (quiet : path ∉ (evalNoting path room scope t w).2.asked) :
    evalNoting path room scope t w = (v, w') := by
  rw [← evaluates (max room enough) (Nat.le_max_right _ _)]
  exact ((sameUnless_eval (Nat.le_max_left _ _) scope t).eq quiet).symm

/-! ### Expressions -/

section Expressions

variable [Stepwise ev]

/-- What is no list in round brackets evaluates as it does with any room. -/
theorem evaluates_of_evalWith (same : ∀ reduce, evalWith reduce scope t w = (v, w')) :
    Evaluates ev enough scope t w v w' :=
  .of_eq fun room => by
    cases room with
    | zero =>
      obtain ⟨reduce, stops⟩ := @Stepwise.stop ev _ scope t
      exact (congrFun stops w).trans (same reduce)
    | succ room => exact (congrFun (@Stepwise.step ev _ room scope t) w).trans (same _)

/-- A symbol evaluates to what its name means. -/
theorem evaluates_symbol (found : w.scopes.lookup scope name = v) :
    Evaluates ev enough scope (.symbol name) w v w :=
  evaluates_of_evalWith fun _ => by
    rw [← found]
    rfl

/-- A quoted list evaluates to itself. -/
theorem evaluates_qexpr (items : List Value) :
    Evaluates ev enough scope (.qexpr items) w (.qexpr items) w :=
  evaluates_of_evalWith fun _ => rfl

/-- A number evaluates to itself. -/
theorem evaluates_number (x : Number) : Evaluates ev enough scope (.number x) w (.number x) w :=
  evaluates_of_evalWith fun _ => rfl

/-- A truth value evaluates to itself. -/
theorem evaluates_bool (b : Bool) : Evaluates ev enough scope (.bool b) w (.bool b) w :=
  evaluates_of_evalWith fun _ => rfl

/-- An operation evaluates to itself. -/
theorem evaluates_primitive (p : Primitive) :
    Evaluates ev enough scope (.primitive p) w (.primitive p) w :=
  evaluates_of_evalWith fun _ => rfl

/-- A normal value evaluates to itself. -/
theorem evaluates_normal (normal : v.isNormal) : Evaluates ev (enough + 1) scope v w v w := by
  cases v with
  | symbol name => simp [Value.isNormal] at normal
  | list kind items =>
    cases kind with
    | sexpr =>
      -- Only the empty list is normal.
      obtain rfl := List.isEmpty_iff.mp normal
      -- It is reduced to itself, which is one step.
      have stays : Ends enough (fun _ => (pure .unit : Run Value)) w .unit w := .of_eq fun _ => rfl
      exact stays.deeper fun room => congrFun (@Stepwise.step ev _ room scope .unit) w
    | qexpr => exact evaluates_qexpr items
  | _ => exact evaluates_of_evalWith fun _ => rfl

omit [Stepwise ev] in
/-- Expressions are evaluated one after the other. -/
theorem each_cons (ev : Evaluator) (scope : ScopeId) (t : Value) (ts : List Value) (w : World Value) :
    each ev scope (t :: ts) w =
      let first := ev scope t w
      let others := each ev scope ts first.2
      (first.1 :: others.1, others.2) := by
  rw [each, List.mapM_cons]
  rfl

omit [Stepwise ev] in
/-- No expressions evaluate to no values. -/
theorem evaluatesAll_nil : EvaluatesAll ev enough scope [] w [] w :=
  .of_eq fun _ => rfl

omit [Stepwise ev] in
/-- Expressions evaluate one after the other. -/
theorem EvaluatesAll.cons (first : Evaluates ev enough scope t w v w₁)
    (others : EvaluatesAll ev enough scope ts w₁ vs w') :
    EvaluatesAll ev enough scope (t :: ts) w (v :: vs) w' := by
  have after : Ends enough (fun room => each (ev room) scope ts >>= fun vs => pure (v :: vs)) w₁
      (v :: vs) w' := others.bind (fun vs _ => pure (v :: vs)) (.of_eq fun _ => rfl)
  intro room more
  show each (ev room) scope (t :: ts) w = _
  rw [each, List.mapM_cons]
  exact first.bind (fun v room => each (ev room) scope ts >>= fun vs => pure (v :: vs)) after room more

/-- Normal values evaluate to themselves one after the other. -/
theorem evaluatesAll_normal (normal : ∀ v ∈ ts, v.isNormal) :
    EvaluatesAll ev (enough + 1) scope ts w ts w := by
  induction ts with
  | nil => exact evaluatesAll_nil
  | cons v rest ih =>
    have others := ih fun t member => normal t (List.mem_cons_of_mem _ member)
    exact .cons (evaluates_normal (normal v List.mem_cons_self)) others

omit [Stepwise ev] in
/-- Expressions evaluate after others. -/
theorem EvaluatesAll.append {ts' vs' : List Value} (first : EvaluatesAll ev enough scope ts w vs w₁)
    (others : EvaluatesAll ev enough scope ts' w₁ vs' w') :
    EvaluatesAll ev enough scope (ts ++ ts') w (vs ++ vs') w' := by
  have after : Ends enough (fun room => each (ev room) scope ts' >>= fun vs' => pure (vs ++ vs')) w₁
      (vs ++ vs') w' := others.bind (fun vs' _ => pure (vs ++ vs')) (.of_eq fun _ => rfl)
  intro room more
  show each (ev room) scope (ts ++ ts') w = _
  rw [each, List.mapM_append]
  exact first.bind (fun vs room => each (ev room) scope ts' >>= fun vs' => pure (vs ++ vs')) after room more

/-- A list evaluates to what comes after the values of its elements. -/
theorem Evaluates.list (values : EvaluatesAll ev enough scope items w vs w₁)
    (finished : Ends enough (fun room => finish (ev room) scope vs) w₁ v w') :
    Evaluates ev (enough + 1) scope (.sexpr items) w v w' := by
  have both : Ends enough (fun room => reduce (ev room) scope items) w v w' :=
    values.bind (fun vs room => finish (ev room) scope vs) finished
  exact both.deeper fun room => congrFun (@Stepwise.step ev _ room scope (.sexpr items)) w

/-- A list of several elements evaluates to what the first gives for the others. -/
theorem Evaluates.call (values : EvaluatesAll ev enough scope items w (operator :: argument :: rest) w₁)
    (fine : (operator :: argument :: rest).find? (·.isError) = none)
    (applies : Applies ev enough scope operator (argument :: rest) w₁ v w') :
    Evaluates ev (enough + 1) scope (.sexpr items) w v w' :=
  .list values (by simpa only [finish, fine] using applies)

/-- A list with an error among the values of its elements evaluates to the first. -/
theorem Evaluates.failed (values : EvaluatesAll ev enough scope items w vs w')
    (failed : vs.find? (·.isError) = some v) : Evaluates ev (enough + 1) scope (.sexpr items) w v w' :=
  .list values (by simpa only [finish, failed] using .of_eq fun _ => rfl)

/-- A lone expression in brackets is evaluated, and then its value is. -/
theorem Evaluates.lone {v' : Value} (first : Evaluates ev enough scope t w v w₁) (fine : v.isError = false)
    (second : Evaluates ev enough scope v w₁ v' w') :
    Evaluates ev (enough + 1) scope (.sexpr [t]) w v' w' :=
  .list (.cons first evaluatesAll_nil) (by simpa [finish, fine] using second)

/-! ### Operators -/

omit [Stepwise ev] in
/-- An operation that depends on its arguments alone gives a value, and changes nothing. -/
theorem applies_plain {p : Primitive} {f : List Value → Except Failure Value}
    (plain : p.scalar?.or p.listing? = some f) (arguments : List Value) :
    Applies ev enough scope (.primitive p) arguments w (.ofExcept (f arguments)) w := by
  refine .of_eq fun room => ?_
  show applyPrimitive (ev room) scope p arguments w = _
  cases p <;> cases plain <;> rfl

omit [Stepwise ev] in
/-- The head of a quoted list is the quoted list of its first element. -/
theorem applies_head (v : Value) (rest : List Value) :
    Applies ev enough scope (.primitive .head) [.qexpr (v :: rest)] w (.qexpr [v]) w :=
  .of_eq fun _ => rfl

omit [Stepwise ev] in
/-- The tail of a quoted list has the other elements. -/
theorem applies_tail (v : Value) (rest : List Value) :
    Applies ev enough scope (.primitive .tail) [.qexpr (v :: rest)] w (.qexpr rest) w :=
  .of_eq fun _ => rfl

omit [Stepwise ev] in
/-- A comparison tells whether two values are the same. -/
theorem applies_equal (v v' : Value) :
    Applies ev enough scope (.primitive .equal) [v, v'] w (.bool (v.same v')) w :=
  .of_eq fun _ => rfl

omit [Stepwise ev] in
/-- A comparison with the empty list tells whether a list is empty. -/
theorem applies_isEmpty (items : List Value) :
    Applies ev enough scope (.primitive .equal) [.qexpr items, .qexpr []] w (.bool items.isEmpty) w := by
  have same : (Value.qexpr items).same (.qexpr []) = items.isEmpty := by cases items <;> rfl
  rw [← same]
  exact applies_equal _ _

omit [Stepwise ev] in
/-- Evaluating a value takes its quotation away. -/
theorem applies_eval (evaluates : Evaluates ev enough scope t.unquote w v w') :
    Applies ev enough scope (.primitive .eval) [t] w v w' :=
  evaluates

omit [Stepwise ev] in
/-- A conditional evaluates the branch that is selected. -/
theorem applies_cond (chosen : Primitive.cond.branch arguments = .ok items)
    (evaluates : Evaluates ev enough scope (.sexpr items) w v w') :
    Applies ev enough scope (.primitive .cond) arguments w v w' := by
  refine evaluates.of_run fun room => ?_
  show orFail (Primitive.cond.branch arguments) _ w = _
  rw [chosen]
  rfl

omit [Stepwise ev] in
/-- A definition binds names in the outermost scope. -/
theorem applies_define {bindings : List (String × Value)}
    (given : Primitive.define.bindings arguments = .ok bindings) :
    Applies ev enough scope (.primitive .define) arguments w .unit
      { w with scopes := w.scopes.bindAll (w.scopes.root scope) bindings } := by
  refine .of_eq fun room => ?_
  show orFail (Primitive.define.bindings arguments) _ w = _
  rw [given]
  rfl

omit [Stepwise ev] in
/-- A function is made with the scope that it is made in. -/
theorem applies_make {formals body : Value}
    (given : Primitive.lambda.functionParts arguments = .ok (formals, body)) :
    Applies ev enough scope (.primitive .lambda) arguments w (.lambda formals body (some scope)) w := by
  refine .of_eq fun room => ?_
  show orFail (Primitive.lambda.functionParts arguments) _ w = _
  rw [given]
  rfl

omit [Stepwise ev] in
omit [Stepwise ev] in
/-- A function of as many formals as there are arguments evaluates its body where they are bound. -/
theorem call_filled {names : List String} {body : List Value} (unmarked : variadicMarker ∉ names)
    (filled : names.length = arguments.length) (ev : Evaluator) (scope : ScopeId) :
    call ev scope (.lambda (.qexpr (names.map .symbol)) (.qexpr body) (some s)) arguments w =
      ev w.scopes.next (.sexpr body) (w.entered s (names.zip arguments)) := by
  -- Without a variadic marker each formal takes one argument, and nothing is left on either side.
  have matched : matchFormals (names.map .symbol) arguments = .full (names.zip arguments) none := by
    rw [matchFormals_unmarked unmarked, if_neg (by omega), if_neg (by omega)]
  show applyLambda ev _ _ _ _ w = _
  rw [applyLambda_eq]
  show proceed _ _ _ _ (matchFormals (names.map .symbol) arguments) _
    (enter (some s) (matchFormals (names.map .symbol) arguments).bound w).2 = _
  rw [matched]
  rfl

omit [Stepwise ev] in
/-- What its body evaluates to is what such a function gives. -/
theorem applies_lambda {names : List String} {body : List Value} (unmarked : variadicMarker ∉ names)
    (filled : names.length = arguments.length)
    (evaluates : Evaluates ev enough w.scopes.next (.sexpr body) (w.entered s (names.zip arguments)) v w') :
    Applies ev enough scope (.lambda (.qexpr (names.map .symbol)) (.qexpr body) (some s)) arguments w
      v w' :=
  evaluates.of_run fun _ => call_filled unmarked filled _ _

end Expressions

end Run
end QLisp
