import QLisp.Proofs.Settling
import QLisp.Proofs.Symbols

/-!
The names of operations keep their meaning.

A program binds names that it has as symbols, and it has no symbol with the name of an operation. So
the operations stay bound to their names where they were, and no other scope hides them. That bindings
and results have no such symbols is proved along with it, one step of evaluation after another.
-/

namespace QLisp

/-- The names of operations mean what they did, and no bound value has a symbol with such a name. -/
structure World.Intact (w : World Value) : Prop where
  /-- The global scope binds each name to its operation. -/
  original (p : Primitive) : w.scopes.local? Scopes.global p.name = some (.primitive p)
  /-- No other scope binds it. -/
  elsewhere (id : ScopeId) (p : Primitive) :
    id ≠ Scopes.global → w.scopes.local? id p.name = none
  /-- No symbol in a bound value has the name of an operation. -/
  unreserved (id : ScopeId) (name : String) (v : Value) :
    w.scopes.local? id name = some v → v.Unreserved

namespace World.Intact

variable {w : World Value}

/-- Nothing but the scopes of a world matters. -/
theorem congr (intact : w.Intact) {w' : World Value} (same : w'.scopes = w.scopes) : w'.Intact := by
  constructor
  · exact fun p => same ▸ intact.original p
  · exact fun id p => same ▸ intact.elsewhere id p
  · exact fun id name v => same ▸ intact.unreserved id name v

/-- Binding another name changes the meaning of no operation's name. -/
theorem bind (intact : w.Intact) (id : ScopeId) {name : String} {v : Value}
    (free : ∀ p : Primitive, p.name ≠ name) (unreserved : v.Unreserved) :
    World.Intact { w with scopes := w.scopes.bind id name v } := by
  -- Only the name that is bound has another value than before.
  have kept : ∀ other (p : Primitive),
      (w.scopes.bind id name v).local? other p.name = w.scopes.local? other p.name := by
    intro other p
    rw [Scopes.local?_bind, if_neg]
    exact fun same => free p same.2.1
  constructor
  · exact fun p => (kept _ p).trans (intact.original p)
  · exact fun other p apart => (kept other p).trans (intact.elsewhere other p apart)
  · exact Scopes.forall_bind intact.unreserved id name unreserved

/-- Binding other names changes the meaning of no operation's name. -/
theorem bindAll (intact : w.Intact) (id : ScopeId) {bindings : List (String × Value)}
    (fine : ∀ b ∈ bindings, (∀ p : Primitive, p.name ≠ b.1) ∧ b.2.Unreserved) :
    World.Intact { w with scopes := w.scopes.bindAll id bindings } := by
  -- The induction is on the bindings.
  induction bindings generalizing w with
  | nil => exact intact
  | cons b rest ih =>
    obtain ⟨free, unreserved⟩ := fine b (by simp)
    exact ih (intact.bind id free unreserved) fun b member => fine b (by simp [member])

/-- A new scope binds nothing. -/
theorem extend (intact : w.Intact) (parent : Option ScopeId) :
    World.Intact { w with scopes := w.scopes.extend parent } := by
  -- Every scope binds what it did.
  constructor
  · intro p
    rw [Scopes.local?_extend]
    exact intact.original p
  · intro id p
    rw [Scopes.local?_extend]
    exact intact.elsewhere id p
  · intro id name v
    rw [Scopes.local?_extend]
    exact intact.unreserved id name v

end World.Intact

namespace Run

variable {α β : Type} {w : World Value} {ev : Evaluator} {scope : ScopeId}

/-- A run leaves the meaning of the operations' names intact, and a good result. -/
structure Guards (w : World Value) (run : Run α) (good : α → Prop) : Prop where
  /-- The names mean what they did after the run. -/
  intact : (run w).2.Intact
  /-- The result is good. -/
  good : good (run w).1

/-- A result that needs no work changes nothing. -/
theorem guards_pure (intact : w.Intact) {a : α} {good : α → Prop} (fine : good a) :
    Guards w (pure a) good :=
  ⟨intact, fine⟩

/-- A run that goes on after another guards the names when both parts do. -/
theorem Guards.bind {run : Run α} {next : α → Run β} {good : α → Prop} {fine : β → Prop}
    (first : Guards w run good)
    (second : ∀ a w', w'.Intact → good a → Guards w' (next a) fine) :
    Guards w (run >>= next) fine := by
  have later := second (run w).1 (run w).2 first.intact first.good
  exact ⟨later.intact, later.good⟩

/-- Ending with a failure or going on guards the names when going on does. -/
theorem guards_orFail (intact : w.Intact) {result : Except Failure α} {next : α → Run Value}
    (safe : ∀ a, result = .ok a → Guards w (next a) Value.Unreserved) :
    Guards w (orFail result next) Value.Unreserved := by
  cases result with
  | ok a => exact safe a rfl
  | error failure => exact guards_pure intact (Value.unreserved_error failure)

/-- What a name is bound to has no symbol with the name of an operation. -/
theorem guards_lookup (intact : w.Intact) (scope : ScopeId) (name : String) :
    Guards w (lookup scope name) Value.Unreserved := by
  -- A name that is found is bound in some scope of the chain.
  refine ⟨intact, ?_⟩
  show ((w.scopes.lookup? scope name).getD (.error (.unbound name))).Unreserved
  cases found : w.scopes.lookup? scope name with
  | none => exact Value.unreserved_error _
  | some v =>
    obtain ⟨id, _, bound⟩ := List.exists_of_findSome?_eq_some found
    exact intact.unreserved id name v bound

/-- Binding other names than those of operations guards these. -/
theorem guards_bindAll (intact : w.Intact) (id : ScopeId) {bindings : List (String × Value)}
    (fine : ∀ b ∈ bindings, (∀ p : Primitive, p.name ≠ b.1) ∧ b.2.Unreserved) :
    Guards w (bindAll id bindings) fun _ => True :=
  ⟨intact.bindAll id fine, trivial⟩

/-- Making a scope with other names bound than those of operations guards these. -/
theorem guards_enter (intact : w.Intact) (parent : Option ScopeId)
    {bindings : List (String × Value)}
    (fine : ∀ b ∈ bindings, (∀ p : Primitive, p.name ≠ b.1) ∧ b.2.Unreserved) :
    Guards w (enter parent bindings) fun _ => True :=
  ⟨(intact.extend parent).bindAll w.scopes.next fine, trivial⟩

/-- Printing guards the names. -/
theorem guards_write (intact : w.Intact) (bytes : Text.Bytes) : Guards w (write bytes) fun _ => True :=
  ⟨intact.congr rfl, trivial⟩

/-- Finding the outermost scope guards the names. -/
theorem guards_root (intact : w.Intact) (scope : ScopeId) :
    Guards w (root scope) fun _ => True :=
  ⟨intact, trivial⟩

/-- An evaluator guards the names on expressions without symbols of such a name. -/
def Guarding (ev : Evaluator) : Prop :=
  ∀ ⦃w scope v⦄, World.Intact w → v.Unreserved → Guards w (ev scope v) Value.Unreserved

/-- Evaluating expressions in order guards the names. -/
theorem guards_each (guarding : Guarding ev) (intact : w.Intact) {expressions : List Value}
    (unreserved : ∀ v ∈ expressions, v.Unreserved) :
    Guards w (each ev scope expressions) fun values => ∀ v ∈ values, v.Unreserved := by
  -- The induction is on the expressions; each leaves the names intact for the next.
  induction expressions generalizing w with
  | nil => exact guards_pure intact (by simp)
  | cons t rest ih =>
    rw [each, List.mapM_cons]
    refine (guarding intact (unreserved t (by simp))).bind fun v w' intact' fine => ?_
    refine (ih intact' fun v member => unreserved v (by simp [member])).bind
      fun values w'' intact'' all => ?_
    exact guards_pure intact'' (by simpa using ⟨fine, all⟩)

/-- Evaluating clauses in order guards the names. -/
theorem guards_select (guarding : Guarding ev) (intact : w.Intact)
    {clauses : List (Value × Value)}
    (unreserved : ∀ c ∈ clauses, c.1.Unreserved ∧ c.2.Unreserved) :
    Guards w (select ev scope clauses) Value.Unreserved := by
  -- The induction is on the clauses; a condition that fails ends the selection at once.
  induction clauses generalizing w with
  | nil => exact guards_pure intact (Value.unreserved_error _)
  | cons clause rest ih =>
    obtain ⟨condition, result⟩ := clause
    obtain ⟨tested, given⟩ := unreserved _ List.mem_cons_self
    -- The condition is evaluated first, and it may bind names.
    refine (guarding intact tested).bind fun test w' intact' fine => ?_
    by_cases failed : test.isError
    · rw [if_pos failed]
      exact guards_pure intact' fine
    · rw [if_neg failed]
      -- An error is the result; what is no error decides whether the clause is taken.
      refine guards_orFail intact' fun chosen _ => ?_
      cases chosen with
      | true => exact guarding intact' given
      | false => exact ih intact' fun c member => unreserved c (List.mem_cons_of_mem _ member)

/-- Evaluating the forms of a file guards the names. -/
theorem guards_load (guarding : Guarding ev) (intact : w.Intact) (path : Text.Bytes) :
    Guards w (load ev scope path) Value.Unreserved := by
  -- A file is read like any other text, so the operations' names in it are read as operations.
  have opened : Guards w (readFile path) fun _ => True := ⟨intact.congr rfl, trivial⟩
  refine opened.bind fun contents w' intact' _ => ?_
  -- Reading binds nothing, and a failure names no operation.
  cases contents with
  | error fault => exact guards_pure intact' (Value.unreserved_error _)
  | ok bytes =>
    simp only
    cases read : Form.parse (withoutInterpreterLine bytes) with
    | error e => exact guards_pure intact' (Value.unreserved_error _)
    | ok forms =>
      refine (guards_each guarding intact' (Form.unreserved_of_parse read)).bind
        fun results w'' intact'' _ => ?_
      -- The results are printed when they are errors, and the answer is the empty list.
      exact (guards_write intact'' _).bind fun _ _ intact _ =>
        guards_pure intact Value.unreserved_unit

/-- A primitive operation guards the names on arguments without symbols of such a name. -/
theorem guards_applyPrimitive (guarding : Guarding ev) (intact : w.Intact) (p : Primitive)
    {arguments : List Value} (fine : ∀ v ∈ arguments, v.Unreserved) :
    Guards w (applyPrimitive ev scope p arguments) Value.Unreserved := by
  -- What is bound has its name from a symbol in an argument, and no operation has that name.
  have bound : ∀ {bindings}, p.bindings arguments = .ok bindings →
      ∀ b ∈ bindings, (∀ q : Primitive, q.name ≠ b.1) ∧ b.2.Unreserved := by
    intro bindings given b member
    obtain ⟨names, here, inside⟩ := Primitive.name_of_bindings given b member
    have symbol := (fine names here).items _ inside
    exact ⟨symbol.symbolName, fine b.2 (Primitive.mem_of_bindings given b member)⟩
  -- What gives a value from the arguments alone puts no new symbols into it.
  have plain : ∀ {f}, p.scalar?.or p.listing? = some f →
      Guards w (pure (.ofExcept (f arguments))) Value.Unreserved :=
    fun found => guards_pure intact ((Primitive.madeOf_plain found arguments).unreserved fine)
  cases p
  -- What the operation evaluates, binds or gives is taken from its arguments.
  case eval =>
    refine guards_orFail intact fun v given => guarding intact ?_
    exact (fine v (Primitive.mem_of_onOne given)).unquote
  case define =>
    refine guards_orFail intact fun bindings given =>
      (guards_root intact scope).bind fun id w' intact _ => ?_
    exact (guards_bindAll intact id (bound given)).bind fun _ _ intact _ =>
      guards_pure intact Value.unreserved_unit
  case assign =>
    refine guards_orFail intact fun bindings given => ?_
    exact (guards_bindAll intact scope (bound given)).bind fun _ _ intact _ =>
      guards_pure intact Value.unreserved_unit
  -- The formals and the body are arguments, so their symbols name no operation.
  case lambda =>
    refine guards_orFail intact fun parts given => guards_pure intact ?_
    obtain ⟨_, _, formals, body⟩ := Primitive.functionParts_ok given
    exact Value.unreserved_lambda.mpr ⟨fine _ formals, fine _ body⟩
  case cond =>
    refine guards_orFail intact fun items given => guarding intact ?_
    exact Value.unreserved_list.mpr (Value.unreserved_list.mp (fine _ (Primitive.branch_ok given)))
  case print =>
    exact (guards_write intact _).bind fun _ _ intact _ =>
      guards_pure intact Value.unreserved_unit
  case load =>
    refine guards_orFail intact fun path _ =>
      (guards_root intact scope).bind fun id w' intact _ => ?_
    exact guards_load guarding intact path
  -- The result is the last argument, or the empty list.
  case sequence =>
    refine guards_pure intact ?_
    rcases List.eq_nil_or_concat arguments with rfl | ⟨front, last, rfl⟩
    · exact Value.unreserved_unit
    · rw [List.concat_eq_append, List.getLastD_concat]
      exact fine last (by simp)
  case block =>
    -- The block has a scope of its own, in which nothing is bound yet.
    refine guards_orFail intact fun body given => guards_orFail intact fun items quoted => ?_
    refine (guards_enter intact (some scope) (by simp)).bind
      fun own w' intact _ => guarding intact ?_
    have whole := fine body (Primitive.mem_of_onOne given)
    rw [Primitive.eq_of_quotedItems quoted] at whole
    exact Value.unreserved_list.mpr (Value.unreserved_list.mp whole)
  -- Conditions and results are elements of the arguments, which hold no such symbol.
  case select =>
    refine guards_orFail intact fun clauses given =>
      guards_select guarding intact fun clause member => ?_
    obtain ⟨v, inside, found⟩ := (mapM_ok given).2 clause member
    obtain ⟨condition, result⟩ := Primitive.clause_ok found
    exact ⟨(fine v inside).items _ condition, (fine v inside).items _ result⟩
  all_goals exact plain rfl

/-- Applying a function guards the names. -/
theorem guards_applyLambda (guarding : Guarding ev) (intact : w.Intact) {formals body : Value}
    {captured : Option ScopeId} (unreserved : (Value.lambda formals body captured).Unreserved)
    {arguments : List Value} (fine : ∀ v ∈ arguments, v.Unreserved) :
    Guards w (applyLambda ev formals body captured arguments) Value.Unreserved := by
  -- The names that arguments are bound to are those of formals.
  obtain ⟨named, bodied⟩ := Value.unreserved_lambda.mp unreserved
  have free : ∀ {name}, (∃ formal ∈ formals.items, formal.symbolName = name) →
      ∀ p : Primitive, p.name ≠ name := by
    rintro name ⟨formal, inside, rfl⟩
    exact (named.items formal inside).symbolName
  have bound : ∀ b ∈ (matchFormals formals.items arguments).bound,
      (∀ p : Primitive, p.name ≠ b.1) ∧ b.2.Unreserved := fun b member =>
    ⟨free (name_of_mem_bound member), fine b.2 (mem_of_mem_bound member)⟩
  -- The call makes a scope and binds the arguments in it.
  rw [applyLambda]
  refine (guards_enter intact captured bound).bind fun own w' intact _ => ?_
  cases found : matchFormals formals.items arguments with
  -- All arguments that fit are bound; those of a variadic name are bound together.
  | full bound rest =>
    refine (guards_bindAll intact own fun b member => ?_).bind
      fun _ w'' intact _ => guarding intact ?_
    · -- A variadic name is bound to a quoted list of the arguments that are left.
      obtain ⟨⟨name, values⟩, inside, rfl⟩ := List.mem_map.mp member
      rw [Option.mem_toList.mp inside] at found
      refine ⟨free (name_of_rest found), ?_⟩
      exact Value.unreserved_list.mpr fun v here => fine v (rest_subset found here)
    · exact Value.unreserved_list.mpr bodied.items
  -- A function that waits has some of the formals, and the same body.
  | short bound waiting =>
    refine guards_pure intact (Value.unreserved_lambda.mpr ⟨?_, bodied⟩)
    exact named.withItems (waiting_suffix found).subset
  | excess bound => exact guards_pure intact (Value.unreserved_error _)
  | malformed bound => exact guards_pure intact (Value.unreserved_error _)

/-- Applying an operator guards the names. -/
theorem guards_call (guarding : Guarding ev) (intact : w.Intact) {operator : Value}
    (unreserved : operator.Unreserved) {arguments : List Value}
    (fine : ∀ v ∈ arguments, v.Unreserved) :
    Guards w (call ev scope operator arguments) Value.Unreserved := by
  -- Anything but an operation or a function is refused.
  cases operator with
  | builtin operation =>
    cases operation with
    | primitive p => exact guards_applyPrimitive guarding intact p fine
    | foreign identity name => exact guards_pure intact (Value.unreserved_error _)
  | lambda formals body own => exact guards_applyLambda guarding intact unreserved fine
  | _ => exact guards_pure intact (Value.unreserved_error _)

/-- Reducing a list guards the names. -/
theorem guards_reduce (guarding : Guarding ev) (intact : w.Intact) {items : List Value}
    (unreserved : ∀ v ∈ items, v.Unreserved) :
    Guards w (reduce ev scope items) Value.Unreserved := by
  -- The elements are evaluated first, and one of the values may be an error.
  refine (guards_each guarding intact unreserved).bind fun values w' intact' fine => ?_
  cases found : values.find? (·.isError) with
  | some failed => exact guards_pure intact' (fine failed (List.mem_of_find?_eq_some found))
  | none =>
    rcases values with _ | ⟨v, _ | ⟨argument, rest⟩⟩
    · exact guards_pure intact' Value.unreserved_unit
    · exact guarding intact' (fine v (by simp))
    · exact guards_call guarding intact' (fine v (by simp)) fun t member =>
        fine t (List.mem_cons_of_mem _ member)

/-- Evaluating an expression guards the names when reducing a list does. -/
theorem guards_evalWith {reduce : List Value → Run Value} (intact : w.Intact) {v : Value}
    (unreserved : v.Unreserved)
    (reduces : ∀ items, (∀ t ∈ items, t.Unreserved) → Guards w (reduce items) Value.Unreserved) :
    Guards w (evalWith reduce scope v) Value.Unreserved := by
  -- Only symbols and lists in round brackets do not stand for themselves.
  cases v with
  | symbol name => exact guards_lookup intact scope name
  | list kind items =>
    cases kind with
    | sexpr => exact reduces items (Value.unreserved_list.mp unreserved)
    | qexpr => exact guards_pure intact unreserved
  | _ => exact guards_pure intact unreserved

/-- Evaluation guards the names. -/
theorem guarding_eval (room : Nat) : Guarding (eval room) := by
  -- The induction is on the reductions that may still be entered.
  induction room with
  | zero =>
    intro w scope v intact unreserved
    exact guards_evalWith intact unreserved fun _ _ => ⟨intact, Value.unreserved_error _⟩
  | succ room ih =>
    intro w scope v intact unreserved
    exact guards_evalWith intact unreserved fun items fine => guards_reduce ih intact fine

/-- Evaluation with no reduction in progress guards the names. -/
theorem guarding_evaluate : Guarding evaluate := by
  intro w scope v intact unreserved
  have inner : Guards w (eval w.limit scope v) Value.Unreserved :=
    guarding_eval w.limit intact unreserved
  exact ⟨inner.intact, inner.good⟩

/-- Evaluating a source guards the names. -/
theorem guards_evaluateSource (intact : w.Intact) (source : Source) :
    Guards w (evaluateSource source) fun result =>
      ∀ values, result = .ok values → ∀ v ∈ values, v.Unreserved := by
  -- Reading leaves the scopes as they are.
  rw [evaluateSource_eq]
  obtain ⟨scopes, spelled⟩ := readSource_spelled source w
  have reads : Guards w (readSource source) fun result =>
      ∀ expressions, result = .ok expressions → ∀ v ∈ expressions, v.Unreserved :=
    ⟨intact.congr scopes, fun expressions read => (spelled expressions read).unreserved⟩
  refine reads.bind fun read w' intact' unreserved => ?_
  cases read with
  | error e => exact guards_pure intact' fun _ result => nomatch result
  | ok expressions =>
    -- Evaluating them binds no name of an operation, and no such name is in the results.
    have all : Guards w' (each evaluate Scopes.global expressions) fun values =>
        ∀ v ∈ values, v.Unreserved :=
      guards_each guarding_evaluate intact' (unreserved expressions rfl)
    refine all.bind fun values w'' intact'' fine => guards_pure intact'' fun given result => ?_
    cases result
    exact fine

end Run

namespace World

/-- Evaluating expressions without symbols of such a name leaves the names of operations intact. -/
theorem Intact.each {w : World Value} (intact : w.Intact) {expressions : List Value}
    (unreserved : ∀ v ∈ expressions, v.Unreserved) :
    (Run.after (Run.each Run.evaluate Scopes.global expressions) w).Intact :=
  (Run.guards_each Run.guarding_evaluate intact unreserved).intact

/-- An operation that is bound to its name along with others is bound to it after them. -/
theorem original_bindAll {scopes : Scopes Value} (made : scopes.Made Scopes.global)
    {operations : List Primitive} {p : Primitive}
    (known : p ∈ operations ∨ scopes.local? Scopes.global p.name = some (.primitive p)) :
    (scopes.bindAll Scopes.global (operations.map fun q => (q.name, .primitive q))).local?
      Scopes.global p.name = some (.primitive p) := by
  -- The induction is on the operations; no later one takes the name of an earlier one.
  induction operations generalizing scopes with
  | nil => simpa [Scopes.bindAll] using known
  | cons q rest ih =>
    refine ih (Scopes.made_bind.mpr made) ?_
    rw [Scopes.local?_bind]
    by_cases same : p = q
    · subst same
      exact .inr (if_pos ⟨rfl, rfl, made⟩)
    · rw [if_neg fun bound => same (Primitive.name_injective bound.2.1)]
      simpa [same] using known

/-- The names of operations are intact where nothing else is bound. -/
theorem intact_withPrimitives (files : Files) : (withPrimitives files).Intact := by
  -- A fresh world binds nothing, and what is bound then is in the global scope.
  constructor
  · exact fun p => original_bindAll Scopes.made_initial (.inl p.mem_all)
  · intro id p apart
    exact (Scopes.local?_bindAll_of_ne apart _ _).trans (Scopes.local?_initial id p.name)
  · refine Scopes.forall_bindAll (by simp [initial]) Scopes.global fun b member => ?_
    obtain ⟨p, _, rfl⟩ := List.mem_map.mp member
    simp [Value.Unreserved, Value.primitive, Value.symbols]

/-- The names of operations are intact in the world that a program starts in. -/
theorem intact_standard (files : Files) : (World.standard files).Intact :=
  (intact_withPrimitives files).each Library.unreserved_expression

/-- Every request leaves the names of operations intact. -/
theorem Intact.perform {w : World Value} (intact : w.Intact) (request : Request) :
    (Run.after request.perform w).Intact := by
  cases request with
  -- The list of arguments is bound to one name, which is not that of an operation.
  | arguments list =>
    refine intact.bindAll Scopes.global fun b member => ?_
    obtain rfl := List.mem_singleton.mp member
    refine ⟨fun p => ?_, Value.unreserved_list.mpr (by simp [Value.Unreserved, Value.symbols])⟩
    cases p <;> simp [Primitive.name]
  | limit setting => exact intact.congr rfl
  | evaluate source => exact (Run.guards_evaluateSource intact source).intact

/-- Any requests leave the names of operations intact. -/
theorem Intact.session (requests : List Request) :
    ∀ {w : World Value}, w.Intact → (Run.after (requests.forM Request.perform) w).Intact := by
  -- The induction is on the requests.
  induction requests with
  | nil => exact fun intact => intact
  | cons request rest ih => exact fun intact => ih (intact.perform request)

end World
end QLisp
