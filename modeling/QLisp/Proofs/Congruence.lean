import QLisp.Eval.Reduce

/-!
Relations between runs that evaluation respects.

Evaluation is put together from a few steps: it goes on after other runs, works on the scopes, prints and
reads files. A relation that holds of each step and itself, and of what is put together from parts of
which it holds, holds of everything that is done with evaluators of which it holds.
-/

namespace QLisp.Run

/-- What is done with the values of the elements of a list: they are searched for errors and applied. -/
def finish (ev : Evaluator) (scope : ScopeId) (values : List Value) : Run Value :=
  match values.find? (·.isError) with
  | some failed => return failed
  | none =>
    match values with
    | [] => return .unit
    | [v] => ev scope v
    | operator :: arguments => call ev scope operator arguments

/-- A list is reduced by evaluating its elements first. -/
theorem reduce_eq (ev : Evaluator) (scope : ScopeId) (items : List Value) :
    reduce ev scope items = each ev scope items >>= finish ev scope :=
  rfl

/-- A relation between runs that is respected by the steps of which evaluation is put together. -/
structure Congruence (rel : (α : Type) → Run α → Run α → Prop) : Prop where
  /-- Results that need no work are related to themselves. -/
  pure {α : Type} (a : α) : rel α (pure a) (pure a)
  /-- Runs that go on after others are related when both parts are. -/
  bind {α β : Type} {run run' : Run α} {next next' : α → Run β} (first : rel α run run')
    (second : ∀ a, rel β (next a) (next' a)) : rel β (run >>= next) (run' >>= next')
  /-- What is done with the scopes alone is related to itself. -/
  scopes {α : Type} (work : Scopes Value → α × Scopes Value) :
    let run : Run α := fun w => ((work w.scopes).1, { w with scopes := (work w.scopes).2 })
    rel α run run
  /-- Printing is related to itself. -/
  write (bytes : Text.Bytes) : rel Unit (write bytes) (write bytes)
  /-- Reading a file is related to itself. -/
  readFile (path : Text.Bytes) : rel _ (readFile path) (readFile path)

namespace Congruence

variable {α : Type} {rel : (α : Type) → Run α → Run α → Prop} (congruence : Congruence rel)
include congruence

/-- Looking up a name is related to itself. -/
theorem lookup (scope : ScopeId) (name : String) : rel Value (lookup scope name) (lookup scope name) :=
  congruence.scopes fun scopes => (scopes.lookup scope name, scopes)

/-- Finding the outermost scope of a chain is related to itself. -/
theorem root (scope : ScopeId) : rel ScopeId (root scope) (root scope) :=
  congruence.scopes fun scopes => (scopes.root scope, scopes)

/-- Making a scope is related to itself. -/
theorem enter (parent : Option ScopeId) (bindings : List (String × Value)) :
    rel ScopeId (enter parent bindings) (enter parent bindings) :=
  congruence.scopes fun scopes => (scopes.next, (scopes.extend parent).bindAll scopes.next bindings)

/-- Binding names is related to itself. -/
theorem bindAll (id : ScopeId) (bindings : List (String × Value)) :
    rel Unit (bindAll id bindings) (bindAll id bindings) :=
  congruence.scopes fun scopes => ((), scopes.bindAll id bindings)

/-- Ending with a failure or going on is related when going on is. -/
theorem orFail (result : Except Failure α) {next next' : α → Run Value}
    (same : ∀ a, rel Value (next a) (next' a)) : rel Value (orFail result next) (orFail result next') := by
  cases result with
  | ok a => exact same a
  | error failure => exact congruence.pure _

variable {ev ev' : Evaluator} (same : ∀ scope v, rel Value (ev scope v) (ev' scope v))
include same

/-- Evaluating expressions in order is related when evaluating one is. -/
theorem each (scope : ScopeId) (expressions : List Value) :
    rel (List Value) (each ev scope expressions) (each ev' scope expressions) := by
  induction expressions with
  | nil => exact congruence.pure []
  | cons v rest ih =>
    rw [Run.each, Run.each, List.mapM_cons, List.mapM_cons]
    exact congruence.bind (same scope v) fun t => congruence.bind ih fun values =>
      congruence.pure (t :: values)

/-- Selecting among clauses is related when evaluating is. -/
theorem select (scope : ScopeId) (clauses : List (Value × Value)) :
    rel Value (select ev scope clauses) (select ev' scope clauses) := by
  -- By induction on the clauses; the others are tried only when the first does not hold.
  induction clauses with
  | nil => exact congruence.pure _
  | cons clause rest ih =>
    refine congruence.bind (same scope clause.1) fun test => ?_
    split
    · exact congruence.pure test
    · refine congruence.orFail _ fun chosen => ?_
      cases chosen with
      | true => exact same scope clause.2
      | false => exact ih

/-- Loading a file is related when evaluating is. -/
theorem load (scope : ScopeId) (file : Text.Bytes) : rel Value (load ev scope file) (load ev' scope file) := by
  -- Whether the file is there and can be read is the same for both, since neither evaluates
  -- anything.
  refine congruence.bind (congruence.readFile file) fun contents => ?_
  cases contents with
  | error fault => exact congruence.pure _
  | ok bytes =>
    simp only
    cases Form.parse (withoutInterpreterLine bytes) with
    | error e => exact congruence.pure _
    | ok forms =>
      exact congruence.bind (congruence.each same scope _) fun _ =>
        congruence.bind (congruence.write _) fun _ => congruence.pure _

/-- Applying a primitive operation is related when evaluating is. -/
theorem applyPrimitive (scope : ScopeId) (p : Primitive) (arguments : List Value) :
    rel Value (applyPrimitive ev scope p arguments) (applyPrimitive ev' scope p arguments) := by
  -- Only what evaluates something is handed an evaluator.
  cases p
  case eval => exact congruence.orFail _ fun v => same scope v.unquote
  -- What writes or makes a scope does the same on both sides, whoever evaluates.
  case define =>
    exact congruence.orFail _ fun bindings => congruence.bind (congruence.root scope) fun id =>
      congruence.bind (congruence.bindAll id bindings) fun _ => congruence.pure _
  case assign =>
    exact congruence.orFail _ fun bindings =>
      congruence.bind (congruence.bindAll scope bindings) fun _ => congruence.pure _
  case lambda => exact congruence.orFail _ fun _ => congruence.pure _
  case cond => exact congruence.orFail _ fun items => same scope (.sexpr items)
  case print => exact congruence.bind (congruence.write _) fun _ => congruence.pure _
  case load =>
    exact congruence.orFail _ fun file => congruence.bind (congruence.root scope) fun id =>
      congruence.load same id file
  -- The body of a block is evaluated in a scope that both sides have made.
  case block =>
    exact congruence.orFail _ fun body => congruence.orFail _ fun items =>
      congruence.bind (congruence.enter _ _) fun id => same id (.sexpr items)
  case select => exact congruence.orFail _ fun clauses => congruence.select same scope clauses
  all_goals exact congruence.pure _

/-- Applying a function is related when evaluating is. -/
theorem applyLambda (formals body : Value) (captured : Option ScopeId) (arguments : List Value) :
    rel Value (applyLambda ev formals body captured arguments)
      (applyLambda ev' formals body captured arguments) := by
  rw [Run.applyLambda, Run.applyLambda]
  refine congruence.bind (congruence.enter _ _) fun own => ?_
  cases matchFormals formals.items arguments with
  | full bound rest =>
    exact congruence.bind (congruence.bindAll own _) fun _ => same own (.sexpr body.items)
  | _ => exact congruence.pure _

/-- Applying an operator is related when evaluating is. -/
theorem call (scope : ScopeId) (operator : Value) (arguments : List Value) :
    rel Value (call ev scope operator arguments) (call ev' scope operator arguments) := by
  cases operator with
  | builtin operation =>
    cases operation with
    | primitive p => exact congruence.applyPrimitive same scope p arguments
    | foreign identity name => exact congruence.pure _
  | lambda formals body own => exact congruence.applyLambda same formals body own arguments
  | _ => exact congruence.pure _

/-- What is done with values is related when evaluating is. -/
theorem finish (scope : ScopeId) (values : List Value) :
    rel Value (finish ev scope values) (finish ev' scope values) := by
  -- An evaluator is needed for a lone value and for the call of an operator.
  unfold Run.finish
  cases values.find? (·.isError) with
  | some failed => exact congruence.pure failed
  | none =>
    rcases values with _ | ⟨v, _ | ⟨argument, rest⟩⟩
    · exact congruence.pure _
    · exact same scope v
    · exact congruence.call same scope v (argument :: rest)

/-- Reducing a list is related when evaluating is. -/
theorem reduce (scope : ScopeId) (items : List Value) :
    rel Value (reduce ev scope items) (reduce ev' scope items) :=
  congruence.bind (congruence.each same scope items) (congruence.finish same scope)

omit same in
/-- Evaluating an expression is related when reducing a list is. -/
theorem evalWith {reduce reduce' : List Value → Run Value}
    (same : ∀ items, rel Value (reduce items) (reduce' items)) (scope : ScopeId) (v : Value) :
    rel Value (evalWith reduce scope v) (evalWith reduce' scope v) := by
  cases v with
  | symbol name => exact congruence.lookup scope name
  | list kind items =>
    cases kind with
    | sexpr => exact same items
    | qexpr => exact congruence.pure _
  | _ => exact congruence.pure _

end Congruence
end QLisp.Run
