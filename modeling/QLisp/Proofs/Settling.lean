import QLisp.Proofs.Caller
import QLisp.Proofs.Normal
import QLisp.Proofs.Source

/-!
Evaluation gives normal forms.

Every binding is normal, every operator is given normal arguments, and every result is normal or an
error; each of the three rests on the other two. They are proved together along two runs that are
the same but for the evaluator, so that evaluation may be compared with one that hands its arguments
to something else.
-/

namespace QLisp

/-- Every binding is regular and normal. -/
def World.Tidy (w : World Value) : Prop :=
  ∀ id name v, w.scopes.local? id name = some v → v.Regular ∧ v.isNormal

/-- Binding names to regular and normal values keeps a world tidy. -/
theorem World.Tidy.bindAll {w : World Value} (tidy : w.Tidy) (id : ScopeId)
    {bindings : List (String × Value)} (fine : ∀ b ∈ bindings, b.2.Regular ∧ b.2.isNormal) :
    World.Tidy { w with scopes := w.scopes.bindAll id bindings } :=
  Scopes.forall_bindAll tidy id fine

/-- A new scope binds nothing. -/
theorem World.Tidy.extend {w : World Value} (tidy : w.Tidy) (parent : Option ScopeId) :
    World.Tidy { w with scopes := w.scopes.extend parent } := by
  intro id name v found
  rw [Scopes.local?_extend] at found
  exact tidy id name v found

namespace Run

variable {α β : Type} {w : World Value} {ev ev' : Evaluator} {scope : ScopeId}

/-- Two runs do the same, and leave a tidy world and a good result. -/
structure Keeps (w : World Value) (run run' : Run α) (good : α → Prop) : Prop where
  /-- The runs do the same. -/
  same : run' w = run w
  /-- The world is tidy after them. -/
  tidy : (run w).2.Tidy
  /-- The result is good. -/
  good : good (run w).1

/-- A result that needs no work is kept. -/
theorem keeps_pure (tidy : w.Tidy) {a : α} {good : α → Prop} (fine : good a) :
    Keeps w (pure a) (pure a) good :=
  ⟨rfl, tidy, fine⟩

/-- Runs that go on after others do the same when both parts do. -/
theorem Keeps.bind {run run' : Run α} {next next' : α → Run β} {good : α → Prop} {fine : β → Prop}
    (first : Keeps w run run' good)
    (second : ∀ a w', w'.Tidy → good a → Keeps w' (next a) (next' a) fine) :
    Keeps w (run >>= next) (run' >>= next') fine := by
  have later := second (run w).1 (run w).2 first.tidy first.good
  refine ⟨?_, later.tidy, later.good⟩
  show next' (run' w).1 (run' w).2 = next (run w).1 (run w).2
  rw [first.same]
  exact later.same

/-- Ending with a failure or going on does the same when going on does. -/
theorem keeps_orFail (tidy : w.Tidy) {result : Except Failure α} {next next' : α → Run Value}
    (safe : ∀ a, result = .ok a → Keeps w (next a) (next' a) Value.Settled) :
    Keeps w (orFail result next) (orFail result next') Value.Settled := by
  cases result with
  | ok a => exact safe a rfl
  | error failure => exact keeps_pure tidy (Value.settled_error failure)

/-- What a name is bound to is settled. -/
theorem keeps_lookup (tidy : w.Tidy) (scope : ScopeId) (name : String) :
    Keeps w (lookup scope name) (lookup scope name) Value.Settled := by
  -- A name that is found is bound in some scope of the chain.
  refine ⟨rfl, tidy, ?_⟩
  show ((w.scopes.lookup? scope name).getD (.error (.unbound name))).Settled
  cases found : w.scopes.lookup? scope name with
  | none => exact Value.settled_error _
  | some v =>
    obtain ⟨id, _, bound⟩ := List.exists_of_findSome?_eq_some found
    obtain ⟨regular, normal⟩ := tidy id name v bound
    exact ⟨regular, .inl normal⟩

/-- Binding names to regular and normal values is kept. -/
theorem keeps_bindAll (tidy : w.Tidy) (id : ScopeId) {bindings : List (String × Value)}
    (fine : ∀ b ∈ bindings, b.2.Regular ∧ b.2.isNormal) :
    Keeps w (bindAll id bindings) (bindAll id bindings) fun _ => True :=
  ⟨rfl, tidy.bindAll id fine, trivial⟩

/-- Making a scope with names bound to regular and normal values is kept. -/
theorem keeps_enter (tidy : w.Tidy) (parent : Option ScopeId) {bindings : List (String × Value)}
    (fine : ∀ b ∈ bindings, b.2.Regular ∧ b.2.isNormal) :
    Keeps w (enter parent bindings) (enter parent bindings) fun _ => True :=
  ⟨rfl, (tidy.extend parent).bindAll w.scopes.next fine, trivial⟩

/-- Printing is kept. -/
theorem keeps_write (tidy : w.Tidy) (bytes : Text.Bytes) :
    Keeps w (write bytes) (write bytes) fun _ => True :=
  ⟨rfl, tidy, trivial⟩

/-- Finding the outermost scope is kept. -/
theorem keeps_root (tidy : w.Tidy) (scope : ScopeId) :
    Keeps w (root scope) (root scope) fun _ => True :=
  ⟨rfl, tidy, trivial⟩

/-- Two evaluators do the same with regular expressions in tidy worlds, and settle them. -/
def Settles (ev ev' : Evaluator) : Prop :=
  ∀ ⦃w scope v⦄, World.Tidy w → v.Regular → Keeps w (ev scope v) (ev' scope v) Value.Settled

/-- Evaluating regular expressions in order settles all of them. -/
theorem keeps_each (settles : Settles ev ev') (tidy : w.Tidy) {expressions : List Value}
    (regular : ∀ v ∈ expressions, v.Regular) :
    Keeps w (each ev scope expressions) (each ev' scope expressions)
      fun values => ∀ v ∈ values, v.Settled := by
  -- The induction is on the expressions; each leaves a tidy world to the next.
  induction expressions generalizing w with
  | nil => exact keeps_pure tidy (by simp)
  | cons t rest ih =>
    rw [each, each, List.mapM_cons, List.mapM_cons]
    refine (settles tidy (regular t (by simp))).bind fun v w' tidy' settled => ?_
    refine (ih tidy' fun v member => regular v (by simp [member])).bind fun values w'' tidy'' all => ?_
    exact keeps_pure tidy'' (by simpa using ⟨settled, all⟩)

/-- Evaluating clauses in order settles the result of the first whose condition holds. -/
theorem keeps_select (settles : Settles ev ev') (tidy : w.Tidy) {clauses : List (Value × Value)}
    (regular : ∀ c ∈ clauses, c.1.Regular ∧ c.2.Regular) :
    Keeps w (select ev scope clauses) (select ev' scope clauses) Value.Settled := by
  -- The induction is on the clauses; a condition that fails ends the selection at once.
  induction clauses generalizing w with
  | nil => exact keeps_pure tidy (Value.settled_error _)
  | cons clause rest ih =>
    obtain ⟨condition, result⟩ := clause
    obtain ⟨conditionRegular, resultRegular⟩ := regular _ List.mem_cons_self
    refine (settles tidy conditionRegular).bind fun test w' tidy' settled => ?_
    by_cases failed : test.isError
    · rw [if_pos failed, if_pos failed]
      exact keeps_pure tidy' settled
    · rw [if_neg failed, if_neg failed]
      refine keeps_orFail tidy' fun chosen _ => ?_
      cases chosen with
      | true => exact settles tidy' resultRegular
      | false => exact ih tidy' fun c member => regular c (List.mem_cons_of_mem _ member)

/-- Evaluating the forms of a file settles all of them. -/
theorem keeps_load (settles : Settles ev ev') (tidy : w.Tidy) (path : Text.Bytes) :
    Keeps w (load ev scope path) (load ev' scope path) Value.Settled := by
  -- The forms of a file are read like those of a source, so they are regular.
  have opened : Keeps w (readFile path) (readFile path) fun _ => True := ⟨rfl, tidy, trivial⟩
  refine opened.bind fun contents w' tidy' _ => ?_
  -- A file that is missing or not readable is told of, and nothing is evaluated.
  cases contents with
  | error fault => exact keeps_pure tidy' (Value.settled_error _)
  | ok bytes =>
    simp only
    cases Form.parse (withoutInterpreterLine bytes) with
    | error e => exact keeps_pure tidy' (Value.settled_error _)
    | ok forms =>
      have regular := Value.regularAll_iff.mp (Form.regularAll_toValues Primitive.all forms)
      -- All forms are evaluated; their errors are written, and the result is the empty list.
      refine (keeps_each settles tidy' regular).bind fun results w'' tidy'' _ => ?_
      exact (keeps_write tidy'' _).bind fun _ _ tidy _ => keeps_pure tidy Value.settled_unit

/-- A primitive operation on regular and normal arguments gives a settled value. -/
theorem keeps_applyPrimitive (settles : Settles ev ev') (tidy : w.Tidy) (p : Primitive)
    {arguments : List Value} (fine : ∀ v ∈ arguments, v.Regular ∧ v.isNormal) :
    Keeps w (applyPrimitive ev scope p arguments) (applyPrimitive ev' scope p arguments)
      Value.Settled := by
  -- What evaluates, binds or prints is looked at by itself; the others depend on the
  -- arguments alone.
  have regular : ∀ v ∈ arguments, v.Regular := fun v member => (fine v member).1
  have bound : ∀ {bindings}, p.bindings arguments = .ok bindings →
      ∀ b ∈ bindings, b.2.Regular ∧ b.2.isNormal := fun given b member =>
    fine b.2 (Primitive.mem_of_bindings given b member)
  have plain : ∀ {f}, p.scalar?.or p.listing? = some f →
      Keeps w (pure (.ofExcept (f arguments))) (pure (.ofExcept (f arguments))) Value.Settled :=
    fun found => keeps_pure tidy (Primitive.settled_plain found regular)
  -- The cases are the operations; the last line is that of all those that change nothing.
  cases p
  case eval =>
    refine keeps_orFail tidy fun v given => settles tidy ?_
    exact (regular v (Primitive.mem_of_onOne given)).unquote
  case define =>
    -- What is bound is one of the arguments, so the world stays tidy.
    refine keeps_orFail tidy fun bindings given => (keeps_root tidy scope).bind fun id w' tidy _ => ?_
    exact (keeps_bindAll tidy id (bound given)).bind fun _ _ tidy _ =>
      keeps_pure tidy Value.settled_unit
  case assign =>
    refine keeps_orFail tidy fun bindings given => ?_
    exact (keeps_bindAll tidy scope (bound given)).bind fun _ _ tidy _ =>
      keeps_pure tidy Value.settled_unit
  case lambda =>
    refine keeps_orFail tidy fun parts given => keeps_pure tidy ?_
    -- A function is made of names and of a quoted list, which are regular.
    obtain ⟨names, quoted, _, member⟩ := Primitive.functionParts_ok given
    exact Value.Regular.lambda ⟨names, quoted, regular _ member⟩
  case cond =>
    refine keeps_orFail tidy fun items given => settles tidy ?_
    -- A branch is part of an argument.
    exact Value.regular_list.mpr (Value.regular_list.mp (regular _ (Primitive.branch_ok given)))
  case print =>
    exact (keeps_write tidy _).bind fun _ _ tidy _ => keeps_pure tidy Value.settled_unit
  case load =>
    refine keeps_orFail tidy fun path _ => (keeps_root tidy scope).bind fun id w' tidy _ => ?_
    exact keeps_load settles tidy path
  case sequence =>
    refine keeps_pure tidy ?_
    -- The last argument is the result; without arguments it is the empty list.
    rcases List.eq_nil_or_concat arguments with rfl | ⟨front, last, rfl⟩
    · exact Value.settled_unit
    · obtain ⟨lastRegular, normal⟩ := fine last (by simp)
      rw [List.concat_eq_append, List.getLastD_concat]
      exact ⟨lastRegular, .inl normal⟩
  case block =>
    refine keeps_orFail tidy fun body given => keeps_orFail tidy fun items quoted => ?_
    -- A block makes a scope in which nothing is bound, and is evaluated there.
    refine (keeps_enter tidy (some scope) (by simp)).bind fun own w' tidy _ => settles tidy ?_
    have whole := regular body (Primitive.mem_of_onOne given)
    rw [Primitive.eq_of_quotedItems quoted] at whole
    exact Value.regular_list.mpr (Value.regular_list.mp whole)
  case select =>
    refine keeps_orFail tidy fun clauses given => keeps_select settles tidy fun clause member => ?_
    -- A clause is an element of an argument, and so are its condition and its result.
    obtain ⟨v, inside, found⟩ := (mapM_ok given).2 clause member
    obtain ⟨condition, result⟩ := Primitive.clause_ok found
    exact ⟨(regular v inside).items _ condition, (regular v inside).items _ result⟩
  all_goals exact plain rfl

/-- Applying a regular function to regular and normal arguments gives a settled value. -/
theorem keeps_applyLambda (settles : Settles ev ev') (tidy : w.Tidy) {formals body : Value}
    {captured : Option ScopeId} (regular : (Value.lambda formals body captured).Regular)
    {arguments : List Value} (fine : ∀ v ∈ arguments, v.Regular ∧ v.isNormal) :
    Keeps w (applyLambda ev formals body captured arguments)
      (applyLambda ev' formals body captured arguments) Value.Settled := by
  -- Some arguments may be bound even when the function is not applied to all of them.
  obtain ⟨names, quoted, bodied⟩ := regular
  have bound : ∀ b ∈ (matchFormals formals.items arguments).bound, b.2.Regular ∧ b.2.isNormal :=
    fun b member => fine b.2 (mem_of_mem_bound member)
  rw [applyLambda, applyLambda]
  -- The call binds its arguments in a scope of its own.
  refine (keeps_enter tidy captured bound).bind fun own w' tidy _ => ?_
  -- All arguments may be bound, too few of them, or too many.
  cases found : matchFormals formals.items arguments with
  | full bound rest =>
    refine (keeps_bindAll tidy own fun b member => ?_).bind fun _ w'' tidy _ => settles tidy ?_
    · -- A variadic name is bound to a quoted list of the arguments that are left.
      obtain ⟨⟨name, values⟩, inside, rfl⟩ := List.mem_map.mp member
      rw [Option.mem_toList.mp inside] at found
      exact ⟨Value.regular_list.mpr fun v here => (fine v (rest_subset found here)).1, rfl⟩
    -- The body is a regular list, so it may be evaluated.
    · exact Value.regular_list.mpr bodied.items
  | short bound waiting =>
    refine keeps_pure tidy (Value.Regular.lambda ⟨?_, quoted, bodied⟩)
    -- The names that wait are among the formals.
    exact Value.isNames_withItems names (waiting_suffix found).subset
  | excess bound => exact keeps_pure tidy (Value.settled_error _)
  | malformed bound => exact keeps_pure tidy (Value.settled_error _)

/-- Applying a regular operator to regular and normal arguments gives a settled value. -/
theorem keeps_call (settles : Settles ev ev') (tidy : w.Tidy) {operator : Value}
    (regular : operator.Regular) {arguments : List Value}
    (fine : ∀ v ∈ arguments, v.Regular ∧ v.isNormal) :
    Keeps w (call ev scope operator arguments) (call ev' scope operator arguments)
      Value.Settled := by
  -- Anything but an operation or a function is refused.
  cases operator with
  | builtin operation =>
    cases operation with
    | primitive p => exact keeps_applyPrimitive settles tidy p fine
    | _ => exact keeps_pure tidy (Value.settled_error _)
  | lambda formals body own => exact keeps_applyLambda settles tidy regular fine
  | _ => exact keeps_pure tidy (Value.settled_error _)

/-! Evaluation that hands arguments to something else. -/

variable {caller : Caller}

/-- Operators are applied as they should be to arguments that are there and normal. -/
def Caller.Agrees (caller : Caller) : Prop :=
  ∀ ev scope operator arguments, Value.areArguments arguments →
    caller ev scope operator arguments = call ev scope operator arguments

/-- Reducing a list of regular values settles it, and hands over only normal arguments. -/
theorem keeps_reduce (agrees : caller.Agrees) (settles : Settles ev ev') (tidy : w.Tidy)
    {items : List Value} (regular : ∀ v ∈ items, v.Regular) :
    Keeps w (reduce ev scope items) (reduceVia caller ev' scope items) Value.Settled := by
  -- All elements are evaluated before anything is called.
  refine (keeps_each settles tidy regular).bind fun values w' tidy' settled => ?_
  cases found : values.find? (·.isError) with
  | some failed => exact keeps_pure tidy' (settled failed (List.mem_of_find?_eq_some found))
  | none =>
    -- Without an error among them, the values are normal.
    have fine : ∀ v ∈ values, v.Regular ∧ v.isNormal := fun v member =>
      ⟨(settled v member).regular, (settled v member).final.resolve_right
        (List.find?_eq_none.mp found v member)⟩
    -- An empty list is the result, or the only value, or what the call gives.
    rcases values with _ | ⟨v, _ | ⟨argument, rest⟩⟩
    · exact keeps_pure tidy' Value.settled_unit
    · exact settles tidy' (fine v (by simp)).1
    · have arguments : ∀ t ∈ argument :: rest, t.Regular ∧ t.isNormal := fun t member =>
        fine t (List.mem_cons_of_mem _ member)
      have keeps : Keeps w' (call ev scope v (argument :: rest)) (call ev' scope v (argument :: rest))
        Value.Settled := keeps_call settles tidy' (fine v (by simp)).1 arguments
      -- The values that are handed over are arguments, on which both callers agree.
      have handed : Value.areArguments (argument :: rest) :=
        List.all_eq_true.mpr fun t member => (arguments t member).2
      show Keeps w' _ (caller ev' scope v (argument :: rest)) _
      rw [agrees ev' scope v (argument :: rest) handed]
      exact keeps

/-- A regular expression is settled when reducing a list settles it. -/
theorem keeps_evalWith {reduce reduce' : List Value → Run Value} (tidy : w.Tidy) {v : Value}
    (regular : v.Regular)
    (reduces : ∀ items, (∀ t ∈ items, t.Regular) → Keeps w (reduce items) (reduce' items)
      Value.Settled) :
    Keeps w (evalWith reduce scope v) (evalWith reduce' scope v) Value.Settled := by
  -- Only symbols and lists in round brackets do not stand for themselves.
  cases v with
  | symbol name => exact keeps_lookup tidy scope name
  | list kind items =>
    cases kind with
    | sexpr => exact reduces items (Value.regular_list.mp regular)
    | qexpr => exact keeps_pure tidy ⟨regular, .inl rfl⟩
  | lambda formals body captured => exact keeps_pure tidy (Value.Regular.lambda regular)
  | error failure => exact keeps_pure tidy (Value.settled_error failure)
  | bare tag => exact regular.elim
  | _ => exact keeps_pure tidy ⟨regular, .inl rfl⟩

/-- Evaluation settles regular expressions, and hands over only normal arguments. -/
theorem settles_eval (agrees : caller.Agrees) (room : Nat) :
    Settles (eval room) (evalVia caller room) := by
  -- The induction is on the reductions that may still be entered.
  induction room with
  | zero =>
    intro w scope v tidy regular
    exact keeps_evalWith tidy regular fun _ _ => ⟨rfl, tidy, Value.settled_error _⟩
  | succ room ih =>
    intro w scope v tidy regular
    exact keeps_evalWith tidy regular fun items fine => keeps_reduce agrees ih tidy fine

/-- The same of evaluation with no reduction in progress. -/
theorem settles_evaluate (agrees : caller.Agrees) : Settles evaluate (evaluateVia caller) := by
  intro w scope v tidy regular
  have inner : Keeps w (eval w.limit scope v) (evalVia caller w.limit scope v) Value.Settled :=
    settles_eval agrees w.limit tidy regular
  exact ⟨inner.same, inner.tidy, inner.good⟩

/-- Applying operators as they are applied agrees. -/
theorem agrees_call : Caller.Agrees call :=
  fun _ _ _ _ _ => rfl

/-- Evaluating a source leaves a tidy world and settled values, and hands over normal arguments. -/
theorem keeps_evaluateSource (agrees : caller.Agrees) (tidy : w.Tidy) (source : Source) :
    Keeps w (evaluateSource source) (evaluateSourceBy (evaluateVia caller) source) fun result =>
      ∀ values, result = .ok values → ∀ v ∈ values, v.Settled := by
  -- Reading leaves the scopes as they are, and what is read is regular.
  rw [evaluateSource_eq]
  obtain ⟨scopes, forms⟩ := readSource_forms source w
  have reads : Keeps w (readSource source) (readSource source) fun result =>
      ∀ expressions, result = .ok expressions → ∀ v ∈ expressions, v.Regular := by
    refine ⟨rfl, fun id name v found => tidy id name v (scopes ▸ found), fun expressions read => ?_⟩
    obtain ⟨given, rfl⟩ := forms expressions read
    exact Value.regularAll_iff.mp (Form.regularAll_toValues _ given)
  refine reads.bind fun read w' tidy' regular => ?_
  -- What is not readable is told of, and nothing is evaluated.
  cases read with
  | error e => exact keeps_pure tidy' fun _ result => nomatch result
  | ok expressions =>
    have all : Keeps w' (each evaluate Scopes.global expressions)
        (each (evaluateVia caller) Scopes.global expressions) fun values => ∀ v ∈ values, v.Settled :=
      keeps_each (settles_evaluate agrees) tidy' (regular expressions rfl)
    refine all.bind fun values w'' tidy'' settled => keeps_pure tidy'' fun given result => ?_
    cases result
    exact settled

end Run

/-! Sessions. -/

/-- A request to a session. -/
inductive Request where
  /-- To bind the arguments of the program. -/
  | arguments (list : List Text.Bytes)
  /-- To set the limit on nested reductions. -/
  | limit (setting : Int)
  /-- To evaluate a source. -/
  | evaluate (source : Source)

/-- Carries out a request. -/
def Request.perform : Request → Run Unit
  | .arguments list => Run.setArguments list
  | .limit setting => Run.setLimit setting
  | .evaluate source => do
    let _ ← Run.evaluateSource source

/-- A fresh world binds nothing. -/
theorem World.tidy_initial (files : Files) : (World.initial files).Tidy := by
  intro id name v found
  simp [World.initial] at found

/-- Evaluating regular expressions leaves a tidy world tidy. -/
theorem World.Tidy.each {w : World Value} (tidy : w.Tidy) {expressions : List Value}
    (regular : ∀ v ∈ expressions, v.Regular) :
    (Run.after (Run.each Run.evaluate Scopes.global expressions) w).Tidy :=
  (Run.keeps_each (Run.settles_evaluate Run.agrees_call) tidy regular).tidy

/-- The world that a program starts in is tidy. -/
theorem World.tidy_standard (files : Files) : (World.standard files).Tidy := by
  -- The operations are bound first, and then the library is evaluated like a source.
  have primitives : (World.withPrimitives files).Tidy := by
    refine (World.tidy_initial files).bindAll Scopes.global fun b member => ?_
    obtain ⟨p, _, rfl⟩ := List.mem_map.mp member
    exact ⟨trivial, rfl⟩
  exact primitives.each Library.regular_expression

/-- Every request leaves a tidy world tidy. -/
theorem World.Tidy.perform {w : World Value} (tidy : w.Tidy) (request : Request) :
    (Run.after request.perform w).Tidy := by
  cases request with
  | arguments list =>
    refine tidy.bindAll Scopes.global fun b member => ?_
    obtain rfl := List.mem_singleton.mp member
    exact ⟨Value.regular_list.mpr (by simp [Value.Regular]), rfl⟩
  | limit setting => exact tidy
  | evaluate source => exact (Run.keeps_evaluateSource Run.agrees_call tidy source).tidy

/-- Any requests leave a tidy world tidy. -/
theorem World.Tidy.session (requests : List Request) :
    ∀ {w : World Value}, w.Tidy → (Run.after (requests.forM Request.perform) w).Tidy := by
  -- The induction is on the requests.
  induction requests with
  | nil => exact fun tidy => tidy
  | cons request rest ih => exact fun tidy => ih (tidy.perform request)

/-- What a read expression evaluates to in a tidy world is normal or an error. -/
theorem World.Tidy.final {w : World Value} (tidy : w.Tidy) (scope : ScopeId) (words : Vocabulary)
    (form : Form) : (Run.evaluate scope (form.toValue words) w).1.isNormal ∨
      (Run.evaluate scope (form.toValue words) w).1.isError :=
  (Run.settles_evaluate Run.agrees_call tidy (form.regular_toValue words)).good.final

end QLisp
