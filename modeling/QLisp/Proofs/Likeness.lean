import QLisp.Proofs.Caller
import QLisp.Proofs.Comparison

/-!
Evaluation in worlds that correspond.

In worlds that correspond, related expressions are evaluated to related values, and leave worlds that
correspond. So what a program does depends neither on what the messages of its failures say, as far as
these are told apart in the same way, nor on how many scopes it takes to show what it sees.
-/

namespace QLisp.Run

variable {α β γ δ : Type} {c : Comparison} {w w' : World Value} {ev ev' : Evaluator}
  {scope scope' : ScopeId}

/-- Two runs, each in a world of its own, leave worlds that correspond and results that are related. -/
structure Resembles (c : Comparison) (w w' : World Value) (run : Run α) (run' : Run β)
    (good : Scopes Value → α → β → Prop) : Prop where
  /-- The worlds correspond after the runs. -/
  world : World.Related c (run w).2 (run' w').2
  /-- No scope is lost. -/
  within : w.scopes.Within (run w).2.scopes
  /-- The results are related. -/
  good : good (run w).2.scopes (run w).1 (run' w').1

/-- Results that need no work change nothing. -/
theorem resembles_pure (related : w.Related c w') {a : α} {b : β} {good : Scopes Value → α → β → Prop}
    (fine : good w.scopes a b) : Resembles c w w' (pure a) (pure b) good :=
  ⟨related, Nat.le_refl _, fine⟩

/-- Runs that go on after others resemble one another when both parts do. -/
theorem Resembles.bind {run : Run α} {run' : Run β} {next : α → Run γ} {next' : β → Run δ}
    {good : Scopes Value → α → β → Prop} {fine : Scopes Value → γ → δ → Prop}
    (first : Resembles c w w' run run' good)
    (second : ∀ a b {u u' : World Value}, u.Related c u' → w.scopes.Within u.scopes → good u.scopes a b →
      Resembles c u u' (next a) (next' b) fine) :
    Resembles c w w' (run >>= next) (run' >>= next') fine := by
  have later := second (run w).1 (run' w').1 first.world first.within first.good
  exact ⟨later.world, first.within.trans later.within, later.good⟩

/-- Results may be less related than they are. -/
theorem Resembles.imp {run : Run α} {run' : Run β} {good fine : Scopes Value → α → β → Prop}
    (resembles : Resembles c w w' run run' good)
    (weaker : ∀ a b, good (run w).2.scopes a b → fine (run w).2.scopes a b) :
    Resembles c w w' run run' fine :=
  ⟨resembles.world, resembles.within, weaker _ _ resembles.good⟩

/-- Runs that need outcomes that agree resemble one another when going on does. -/
theorem resembles_orFail (related : w.Related c w') {good : α → β → Prop} {r : Except Failure α}
    {r' : Except Failure β} (agree : Agree good r r') {next : α → Run Value} {next' : β → Run Value}
    (goes : ∀ a b, good a b → Resembles c w w' (next a) (next' b) c.values) :
    Resembles c w w' (orFail r next) (orFail r' next') c.values := by
  rcases agree.outcomes with ⟨a, b, rfl, rfl, fine⟩ | ⟨e, rfl, rfl, own⟩
  · exact goes a b fine
  · exact resembles_pure related (.error (c.faithful.evaluation own))

/-- A failure of evaluation resembles itself. -/
theorem resembles_failure (related : w.Related c w') {e : Failure} (own : e.kind ≠ .malformedSource) :
    Resembles c w w' (pure (.error e)) (pure (.error e)) c.values :=
  resembles_pure related (.error (c.faithful.evaluation own))

/-- The absence of a result resembles itself. -/
theorem resembles_unit (related : w.Related c w') :
    Resembles c w w' (pure .unit) (pure .unit) c.values :=
  resembles_pure related (.listed .sexpr .nil)

/-- Names that are bound to related values in scopes that correspond leave worlds that correspond. -/
theorem resembles_bindAll (related : w.Related c w') (linked : c.link w.scopes scope scope')
    {bindings bindings' : List (String × Value)}
    (values : List.Forall₂ (c.bindings w.scopes) bindings bindings') :
    Resembles c w w' (bindAll scope bindings) (bindAll scope' bindings') fun _ _ _ => True where
  world := related.bindAll linked values
  within := by
    show w.scopes.made.size ≤ (w.scopes.bindAll scope bindings).made.size
    exact Nat.le_of_eq (Scopes.size_bindAll ..).symm
  good := trivial

/-- New scopes with related values, below scopes that correspond, do correspond. -/
theorem resembles_enter (related : w.Related c w') (linked : c.link w.scopes scope scope')
    {bindings bindings' : List (String × Value)}
    (values : List.Forall₂ (c.bindings w.scopes) bindings bindings') :
    Resembles c w w' (enter (some scope) bindings) (enter (some scope') bindings') c.link := by
  -- The new scope corresponds to the new one, and all older ones to what they did.
  have extended := related.extend linked
  have within : w.scopes.Within (w.scopes.extend (some scope)) := by simp [Scopes.Within]
  have new : c.link (w.scopes.extend (some scope)) w.scopes.next w'.scopes.next :=
    ⟨related.next, Scopes.made_extend_next _ _⟩
  -- The new scope is made before anything is bound in it.
  have size : w.scopes.Within (enter (some scope) bindings w).2.scopes := by
    show w.scopes.made.size ≤ ((w.scopes.extend (some scope)).bindAll w.scopes.next bindings).made.size
    rw [Scopes.size_bindAll]
    exact within
  refine ⟨extended.bindAll new (within.list_bindings values), size, new.1, ?_⟩
  show w.scopes.next.index < ((w.scopes.extend (some scope)).bindAll w.scopes.next bindings).made.size
  rw [Scopes.size_bindAll]
  exact new.2

/-- Texts that are alike are printed. -/
theorem resembles_write (related : w.Related c w') {text text' : Text.Bytes}
    (texts : Text.Alike c.failures text text') :
    Resembles c w w' (write text) (write text') fun _ _ _ => True := by
  obtain ⟨early, early', printed, printed', same⟩ := related.output
  -- The text comes after what each has printed so far.
  refine ⟨{ related with output := ⟨early ++ text, early' ++ text', ?_, ?_, ?_⟩ }, Nat.le_refl _, trivial⟩
  · show w.output ++ text = _
    rw [printed, List.append_assoc]
  · show w'.output ++ text' = _
    rw [printed', List.append_assoc]
  · exact same.append texts

/-- The outermost scopes of chains that correspond do correspond. -/
theorem resembles_root (related : w.Related c w') (linked : c.link w.scopes scope scope') :
    Resembles c w w' (root scope) (root scope') c.link := by
  obtain ⟨here, there⟩ := related.root linked
  refine ⟨related, Nat.le_refl _, ?_⟩
  show c.link w.scopes (w.scopes.root scope) (w'.scopes.root scope')
  rw [here, there]
  exact ⟨c.global, related.global⟩

/-- A file that is read holds the same, and what it holds is related to itself. -/
theorem resembles_readFile (related : w.Related c w') (path : Text.Bytes) :
    Resembles c w w' (readFile path) (readFile path) fun scopes contents contents' =>
      contents' = contents ∧ ∀ bytes forms, contents = .ok bytes →
        Form.parse (withoutInterpreterLine bytes) = .ok forms →
        List.Forall₂ (c.values scopes) (Form.toValues Primitive.all forms)
          (Form.toValues Primitive.all forms) := by
  have same : w'.files path = w.files path := by rw [related.files]
  obtain ⟨paths, asked, asked'⟩ := related.asked
  refine ⟨{ related with asked := ⟨path :: paths, ?_, ?_⟩ }, Nat.le_refl _, same,
    fun bytes forms found parsed => ?_⟩
  · exact congrArg (path :: ·) asked
  · exact congrArg (path :: ·) asked'
  · have alike := related.steady path bytes forms found parsed
    -- What is read holds no functions.
    refine Value.relatedAll_iff.mp ((Value.alikeAll_iff.mpr alike).related ?_)
    exact Value.obeyAll_iff.mpr fun v member => Form.obeys_of_mem_toValues member

/-- Two evaluators do the same with related expressions, in worlds that correspond. -/
def Blind (c : Comparison) (ev ev' : Evaluator) : Prop :=
  ∀ ⦃w w' scope scope' v v'⦄, World.Related c w w' → c.link w.scopes scope scope' → c.values w.scopes v v' →
    Resembles c w w' (ev scope v) (ev' scope' v') c.values

/-- Related expressions are evaluated in order to related values. -/
theorem resembles_each (blind : Blind c ev ev') (related : w.Related c w')
    (linked : c.link w.scopes scope scope') {expressions expressions' : List Value}
    (likeness : List.Forall₂ (c.values w.scopes) expressions expressions') :
    Resembles c w w' (each ev scope expressions) (each ev' scope' expressions')
      fun scopes => List.Forall₂ (c.values scopes) := by
  -- The induction is on the expressions; each leaves worlds that correspond for the next.
  induction expressions generalizing w w' expressions' with
  | nil =>
    cases likeness
    exact resembles_pure related .nil
  | cons expression rest ih =>
    cases likeness with
    | cons head tail =>
      -- The first expression is evaluated on both sides, and then the others in what it has left.
      rw [each, each, List.mapM_cons, List.mapM_cons]
      refine (blind related linked head).bind fun v v' u u' related within first => ?_
      refine (ih related (within.link linked) (within.list tail)).bind
        fun values values' x x' related later rest => ?_
      exact resembles_pure related (.cons (later.value first) rest)

/-- Clauses with related conditions and related results. -/
def ClausesRelated (c : Comparison) (scopes : Scopes Value) :
    Value × Value → Value × Value → Prop :=
  fun clause clause' => c.values scopes clause.1 clause'.1 ∧ c.values scopes clause.2 clause'.2

/-- Related clauses select related results. -/
theorem resembles_select (blind : Blind c ev ev') (related : w.Related c w')
    (linked : c.link w.scopes scope scope') {clauses clauses' : List (Value × Value)}
    (likeness : List.Forall₂ (ClausesRelated c w.scopes) clauses clauses') :
    Resembles c w w' (select ev scope clauses) (select ev' scope' clauses') c.values := by
  -- The induction is on the clauses; a condition that fails ends the selection at once.
  induction clauses generalizing w w' clauses' with
  | nil =>
    cases likeness
    exact resembles_failure related nofun
  | cons clause rest ih =>
    cases likeness with
    | @cons _ clause' _ rest' head tail =>
      -- The conditions have the same truth, or both are refused.
      obtain ⟨condition, result⟩ := clause
      obtain ⟨condition', result'⟩ := clause'
      -- A clause is taken on both sides or on neither.
      refine (blind related linked head.1).bind fun test test' u u' related within tested => ?_
      rw [tested.isError]
      by_cases failed : test'.isError
      · rw [if_pos failed, if_pos failed]
        exact resembles_pure related tested
      · rw [if_neg failed, if_neg failed]
        refine resembles_orFail related (Primitive.agree_condition _ tested) ?_
        rintro chosen _ rfl
        cases chosen with
        | true => exact blind related (within.link linked) (within.value head.2)
        -- Neither clause is taken, so the others are compared.
        | false =>
          exact ih related (within.link linked) (tail.imp fun _ _ both =>
            ⟨within.value both.1, within.value both.2⟩)

/-- The messages of errors among related values are alike. -/
theorem errors_alike {rel : FailureRel} {link : ScopeRel} {values values' : List Value}
    (likeness : List.Forall₂ (Value.Related rel link) values values') :
    Text.Alike rel ((values.filter (·.isError)).flatMap (·.render ++ Text.encode "\n"))
      ((values'.filter (·.isError)).flatMap (·.render ++ Text.encode "\n")) := by
  have errors : List.Forall₂ (Value.Related rel link) (values.filter (·.isError))
      (values'.filter (·.isError)) :=
    List.rel_filter (fun v v' alike => by simp only [alike.isError]) likeness
  -- A value is an error on both sides or on neither, so the same ones are left.
  rw [List.flatMap_def, List.flatMap_def]
  refine Text.Alike.flatten ?_
  rw [List.forall₂_map_left_iff, List.forall₂_map_right_iff]
  exact errors.imp fun v v' alike => alike.render.append (.refl _)

/-- Loading a file does the same, apart from failures that are related. -/
theorem resembles_load (blind : Blind c ev ev') (related : w.Related c w')
    (linked : c.link w.scopes scope scope') (path : Text.Bytes) :
    Resembles c w w' (load ev scope path) (load ev' scope' path) c.values := by
  refine (resembles_readFile related path).bind fun contents contents' u u' related within read => ?_
  obtain ⟨rfl, steady⟩ := read
  -- A file that is missing is missed on both sides.
  cases contents' with
  | error fault => exact resembles_failure related nofun
  | ok bytes =>
    simp only
    cases parsed : Form.parse (withoutInterpreterLine bytes) with
    | error e =>
      -- The failure to read a file tells of a place in the file.
      exact resembles_pure related (.error (c.faithful.loading path e.message))
    | ok forms =>
      refine (resembles_each blind related (within.link linked) (steady bytes forms rfl parsed)).bind
        fun results results' x x' related _ values => ?_
      -- The errors are printed alike, and both sides answer with the empty list.
      exact (resembles_write related (errors_alike values)).bind
        fun _ _ _ _ related _ _ => resembles_unit related

/-- The last of related values are related. -/
theorem getLastD_related {rel : Value → Value → Prop} {values values' : List Value} {v v' : Value}
    (likeness : List.Forall₂ rel values values') (otherwise : rel v v') :
    rel (values.getLastD v) (values'.getLastD v') := by
  induction likeness generalizing v v' with
  | nil => exact otherwise
  | cons head tail ih =>
    rw [List.getLastD_cons, List.getLastD_cons]
    exact ih head

/-- A primitive operation does the same with related arguments. -/
theorem resembles_applyPrimitive (blind : Blind c ev ev') (related : w.Related c w')
    (linked : c.link w.scopes scope scope') (p : Primitive) {arguments arguments' : List Value}
    (given : List.Forall₂ (c.values w.scopes) arguments arguments') :
    Resembles c w w' (applyPrimitive ev scope p arguments)
      (applyPrimitive ev' scope' p arguments') c.values := by
  -- What evaluates, binds or prints is looked at by itself; the others depend on the arguments alone.
  have plain : ∀ {f}, p.scalar?.or p.listing? = some f → Resembles c w w'
      (pure (.ofExcept (f arguments))) (pure (.ofExcept (f arguments'))) c.values :=
    fun found => resembles_pure related
      ((Primitive.agree_plain c.faithful found given).related c.faithful)
  -- Each operation is followed through what it evaluates and binds.
  cases p
  case eval =>
    refine resembles_orFail related (Primitive.agree_only _ given) fun v v' likeness => ?_
    exact blind related linked likeness.unquote
  -- A definition binds in the outermost scopes, which are linked.
  case define =>
    refine resembles_orFail related (Primitive.agree_bindings _ given)
      fun bindings bindings' bound => ?_
    refine (resembles_root related linked).bind fun id id' u u' related within outermost => ?_
    exact (resembles_bindAll related outermost (within.list_bindings bound)).bind
      fun _ _ _ _ related _ _ => resembles_unit related
  -- An assignment binds in the linked scopes themselves.
  case assign =>
    refine resembles_orFail related (Primitive.agree_bindings _ given)
      fun bindings bindings' bound => ?_
    exact (resembles_bindAll related linked bound).bind
      fun _ _ _ _ related _ _ => resembles_unit related
  case lambda =>
    refine resembles_orFail related (Primitive.agree_functionParts _ given)
      fun parts parts' made => ?_
    exact resembles_pure related (.lambda made.1 made.2 linked)
  case cond =>
    refine resembles_orFail related (Primitive.agree_branch _ given)
      fun items items' taken => ?_
    exact blind related linked (.listed .sexpr taken)
  -- What is printed is the display of related values.
  case print =>
    refine (resembles_write related ?_).bind fun _ _ _ _ related _ _ => resembles_unit related
    refine Text.Alike.append (.intercalate _ ?_) (.refl _)
    rw [List.forall₂_map_left_iff, List.forall₂_map_right_iff]
    exact given.imp fun v v' likeness => likeness.display
  -- Both sides read the same file, since they are given the same path.
  case load =>
    refine resembles_orFail related (Primitive.agree_path _ given) ?_
    rintro path _ rfl
    refine (resembles_root related linked).bind fun id id' u u' related _ outermost => ?_
    exact resembles_load blind related outermost path
  case sequence =>
    exact resembles_pure related (getLastD_related given (.listed .sexpr .nil))
  case block =>
    refine resembles_orFail related (Primitive.agree_only _ given)
      fun body body' likeness => ?_
    refine resembles_orFail related (Primitive.agree_quotedItems _ likeness)
      fun items items' inside => ?_
    -- The new scopes correspond, and nothing is bound in them yet.
    refine (resembles_enter related linked .nil).bind fun own own' u u' related within own => ?_
    exact blind related own (within.value (.listed .sexpr inside))
  -- The clauses are related, so the same one is taken.
  case select =>
    refine resembles_orFail related
      (Agree.mapM given fun v v' likeness => Primitive.agree_clause _ likeness)
      fun clauses clauses' likeness => ?_
    exact resembles_select blind related linked likeness
  all_goals exact plain rfl

/--
What is left to do in the scope of a call, given how the arguments fit the formals.

It is given too how it fails when there are too many of them.
-/
def proceed (ev : Evaluator) (formals body : Value) (surplus : Failure) (matched : Matched Value)
    (own : ScopeId) : Run Value :=
  match matched with
  | .full _ rest => do
    bindAll own (rest.toList.map fun (name, values) => (name, Value.qexpr values))
    ev own (.sexpr body.items)
  | .short _ waiting => return .lambda (formals.withItems waiting) body (some own)
  | .excess _ => return .error surplus
  | .malformed _ => return .error .malformedVariadic

/-- A function is applied by entering the scope of the call and doing what is left to do. -/
theorem applyLambda_eq (ev : Evaluator) (formals body : Value) (captured : Option ScopeId)
    (arguments : List Value) :
    applyLambda ev formals body captured arguments = (do
      let own ← enter captured (matchFormals formals.items arguments).bound
      proceed ev formals body (.wrongCount "lambda" formals.items.length arguments.length)
        (matchFormals formals.items arguments) own) := by
  rw [applyLambda]
  cases matchFormals formals.items arguments <;> rfl

/-- Results of calls that are related, or failures with too many arguments on both sides. -/
def ReturnsRelated (c : Comparison) (surplus surplus' : Failure) (scopes : Scopes Value)
    (v v' : Value) : Prop :=
  c.values scopes v v' ∨ v = .error surplus ∧ v' = .error surplus'

/-- What is left to do is the same for related functions whose arguments fit in the same way. -/
theorem resembles_proceed (blind : Blind c ev ev') (related : w.Related c w')
    {own own' : ScopeId} (linked : c.link w.scopes own own') {formals formals' body body' : Value}
    (formal : c.values w.scopes formals formals') (bodied : c.values w.scopes body body')
    (surplus surplus' : Failure) {matched matched' : Matched Value}
    (matching : MatchedRelated c.failures (c.link w.scopes) matched matched') :
    Resembles c w w' (proceed ev formals body surplus matched own)
      (proceed ev' formals' body' surplus' matched' own') (ReturnsRelated c surplus surplus') := by
  -- What is bound is bound on both sides, and the bodies are evaluated where it is.
  cases matching with
  | @full bound bound' rest rest' bindings others =>
    have collected : List.Forall₂ (c.bindings w.scopes)
        (rest.toList.map fun (name, values) => (name, Value.qexpr values))
        (rest'.toList.map fun (name, values) => (name, Value.qexpr values)) := by
      -- A variadic name takes related lists of arguments.
      cases others with
      | none => exact .nil
      | some likeness => exact .cons ⟨likeness.1, .listed .qexpr likeness.2⟩ .nil
    refine (resembles_bindAll related linked collected).bind fun _ _ u u' related within _ => ?_
    have evaluated := blind related (within.link linked) (within.value (.listed .sexpr bodied.items))
    exact evaluated.imp fun _ _ => .inl
  -- A function that waits captures the new scope, and its body is the old one.
  | short bindings waiting =>
    exact resembles_pure related (.inl (.lambda (formal.withItems waiting) bodied linked))
  | excess bindings => exact resembles_pure related (.inr ⟨rfl, rfl⟩)
  | malformed bindings =>
    exact resembles_pure related (.inl (.error (c.faithful.evaluation nofun)))

/-- Related functions do the same with related arguments. -/
theorem resembles_applyLambda (blind : Blind c ev ev') (related : w.Related c w')
    (captured : c.link w.scopes scope scope') {formals formals' body body' : Value}
    (formal : c.values w.scopes formals formals') (bodied : c.values w.scopes body body')
    {arguments arguments' : List Value}
    (given : List.Forall₂ (c.values w.scopes) arguments arguments') :
    Resembles c w w' (applyLambda ev formals body (some scope) arguments)
      (applyLambda ev' formals' body' (some scope') arguments') c.values := by
  have entered := (matchFormals_related formal.items given).bound
  -- Too many arguments are as many on either side.
  have surplus : Failure.wrongCount "lambda" formals'.items.length arguments'.length =
      .wrongCount "lambda" formals.items.length arguments.length := by
    rw [formal.items.length_eq, given.length_eq]
  -- The scopes of the calls are linked, and the first arguments are bound in them.
  rw [applyLambda_eq, applyLambda_eq, surplus]
  refine (resembles_enter related captured entered).bind
    fun own own' u u' related within linked => ?_
  have formal := within.value formal
  have matching := matchFormals_related formal.items (within.list given)
  refine (resembles_proceed blind related linked formal (within.value bodied) _ _ matching).imp
    fun v v' returned => ?_
  -- The result is related, or a failure about the number of arguments that is the same.
  rcases returned with values | ⟨rfl, rfl⟩
  · exact values
  · exact .error (c.faithful.evaluation nofun)

/-- Related operators do the same with related arguments. -/
theorem resembles_call (blind : Blind c ev ev') (related : w.Related c w')
    (linked : c.link w.scopes scope scope') {operator operator' : Value}
    (operators : c.values w.scopes operator operator') {arguments arguments' : List Value}
    (given : List.Forall₂ (c.values w.scopes) arguments arguments') :
    Resembles c w w' (call ev scope operator arguments) (call ev' scope' operator' arguments')
      c.values := by
  -- Anything but an operation or a function is refused.
  cases operators with
  | builtin operation =>
    cases operation with
    | primitive p => exact resembles_applyPrimitive blind related linked p given
    | foreign identity name => exact resembles_failure related nofun
  | lambda formal bodied captured =>
    exact resembles_applyLambda blind related captured formal bodied given
  | _ => exact resembles_failure related nofun

/-- Two ways of applying operators do the same with related operators and arguments. -/
def Caller.Blind (c : Comparison) (caller caller' : Caller) : Prop :=
  ∀ ⦃ev ev'⦄, Run.Blind c ev ev' → ∀ ⦃w w' scope scope' operator operator' arguments arguments'⦄,
    World.Related c w w' → c.link w.scopes scope scope' → c.values w.scopes operator operator' →
    List.Forall₂ (c.values w.scopes) arguments arguments' →
    Resembles c w w' (caller ev scope operator arguments) (caller' ev' scope' operator' arguments')
      c.values

/-- Applying operators as they are applied does the same on both sides. -/
theorem blind_call : Caller.Blind c call call :=
  fun _ _ blind _ _ _ _ _ _ _ _ related linked operators given =>
    resembles_call blind related linked operators given

variable {caller caller' : Caller}

/-- The first errors among related values are related, if there are any. -/
theorem findError_related {rel : Value → Value → Prop}
    (same : ∀ v v', rel v v' → v.isError = v'.isError) {values values' : List Value}
    (likeness : List.Forall₂ rel values values') :
    Option.Rel rel (values.find? (·.isError)) (values'.find? (·.isError)) := by
  induction likeness with
  | nil => exact .none
  | @cons v v' rest rest' head tail ih =>
    rw [List.find?_cons, List.find?_cons, same v v' head]
    cases v'.isError with
    | true => exact .some head
    | false => exact ih

/-- Related lists are reduced to related values. -/
theorem resembles_reduce (callers : Caller.Blind c caller caller') (blind : Blind c ev ev')
    (related : w.Related c w') (linked : c.link w.scopes scope scope') {items items' : List Value}
    (likeness : List.Forall₂ (c.values w.scopes) items items') :
    Resembles c w w' (reduceVia caller ev scope items) (reduceVia caller' ev' scope' items')
      c.values := by
  refine (resembles_each blind related linked likeness).bind
    fun values values' u u' related within evaluated => ?_
  -- The first error, if there is one, is found at the same place.
  have first := findError_related (fun _ _ alike => alike.isError) evaluated
  generalize values.find? (·.isError) = found at first
  generalize values'.find? (·.isError) = found' at first
  cases first with
  | some failed => exact resembles_pure related failed
  | none =>
    -- Without an error a list of no values is empty, and one of a single value is evaluated again.
    rcases evaluated with _ | ⟨head, _ | ⟨second, others⟩⟩
    · exact resembles_unit related
    · exact blind related (within.link linked) head
    · exact callers blind related (within.link linked) head (.cons second others)

/-- Related expressions are evaluated to related values when related lists are reduced so. -/
theorem resembles_evalWith {reduce reduce' : List Value → Run Value} (related : w.Related c w')
    (linked : c.link w.scopes scope scope') {v v' : Value} (likeness : c.values w.scopes v v')
    (reduces : ∀ items items', List.Forall₂ (c.values w.scopes) items items' →
      Resembles c w w' (reduce items) (reduce' items') c.values) :
    Resembles c w w' (evalWith reduce scope v) (evalWith reduce' scope' v') c.values := by
  -- Only symbols and lists in round brackets do not stand for themselves.
  have whole := likeness
  have inside := likeness.items
  cases likeness with
  | symbol name => exact ⟨related, Nat.le_refl _, related.lookup linked name⟩
  | list kind _ =>
    cases kind with
    | sexpr => exact reduces _ _ inside
    | qexpr => exact resembles_pure related whole
  | _ => exact resembles_pure related whole

/-- Evaluation does the same with related expressions. -/
theorem blind_evalVia (callers : Caller.Blind c caller caller') (room : Nat) :
    Blind c (evalVia caller room) (evalVia caller' room) := by
  -- The induction is on the reductions that may still be entered.
  induction room with
  -- No reduction may be entered, so either side gives the same failure.
  | zero =>
    intro w w' scope scope' v v' related linked likeness
    refine resembles_evalWith related linked likeness fun _ _ _ => ⟨related, Nat.le_refl _, ?_⟩
    show c.values w.scopes (.error (.tooDeep w.limit)) (.error (.tooDeep w'.limit))
    rw [related.limit]
    exact .error (c.faithful.evaluation nofun)
  -- One reduction is entered, and what is inside has one less left.
  | succ room ih =>
    intro w w' scope scope' v v' related linked likeness
    exact resembles_evalWith related linked likeness fun _ _ inside =>
      resembles_reduce callers ih related linked inside

/-- Evaluation with some room does the same with related expressions. -/
theorem blind_eval (room : Nat) : Blind c (eval room) (eval room) := by
  rw [← evalVia_call]
  exact blind_evalVia blind_call room

/-- Evaluation with no reduction in progress does the same with related expressions. -/
theorem blind_evaluateVia (callers : Caller.Blind c caller caller') :
    Blind c (evaluateVia caller) (evaluateVia caller') := by
  intro w w' scope scope' v v' related linked likeness
  have inner : Resembles c w w' (evalVia caller w.limit scope v) (evalVia caller' w.limit scope' v')
      c.values :=
    blind_evalVia callers w.limit related linked likeness
  -- Both sides have the same limit, so the same room is left on either.
  have there : evaluateVia caller' scope' v' w' = evalVia caller' w.limit scope' v' w' := by
    rw [related.limit]
    rfl
  refine ⟨?_, inner.within, ?_⟩
  · rw [there]
    exact inner.world
  · rw [there]
    exact inner.good

/-- Evaluation with no reduction in progress does the same with related expressions. -/
theorem blind_evaluate : Blind c evaluate evaluate := by
  rw [← evaluateVia_call]
  exact blind_evaluateVia blind_call

/-- Two answers to a source are the same failure, or related values. -/
def AnswersRelated (rel : Value → Value → Prop) :
    Except SourceError (List Value) → Except SourceError (List Value) → Prop
  | .ok values, .ok values' => List.Forall₂ rel values values'
  | .error e, .error e' => e = e'
  | _, _ => False

/-- A source whose expressions are related to themselves is answered in the same way. -/
theorem resembles_evaluateSourceBy (blind : Blind c ev ev') (related : w.Related c w')
    (source : Source) (likeness : ∀ expressions, source.read w.files = .ok expressions →
      List.Forall₂ (c.values w.scopes) expressions expressions) :
    Resembles c w w' (evaluateSourceBy ev source) (evaluateSourceBy ev' source)
      fun scopes => AnswersRelated (c.values scopes) := by
  -- Reading asks for the same files on both sides.
  obtain ⟨paths, asked, asked'⟩ := related.asked
  have reads : Resembles c w w' (readSource source) (readSource source)
      fun scopes answer answer' => answer = answer' ∧ ∀ expressions, answer = .ok expressions →
        List.Forall₂ (c.values scopes) expressions expressions := by
    -- What a source holds is the same on both sides, since the files are.
    constructor
    · rw [readSource_run, readSource_run]
      refine { related with asked := ⟨source.paths ++ paths, ?_, ?_⟩ }
      · rw [asked, List.append_assoc]
      · rw [asked', List.append_assoc]
    · rw [readSource_run]
      exact Nat.le_refl _
    · rw [readSource_run, readSource_run, related.files]
      exact ⟨rfl, related.files ▸ likeness⟩
  refine reads.bind fun answer answer' u u' related within ⟨same, alike⟩ => ?_
  subst same
  -- A source that cannot be read gives one failure on both sides.
  cases answer with
  | error e => exact resembles_pure related rfl
  | ok expressions =>
    -- The expressions of a source are evaluated in the global scope.
    have outermost : c.link u.scopes Scopes.global Scopes.global := ⟨c.global, related.global⟩
    refine (resembles_each blind related outermost (alike expressions rfl)).bind
      fun values values' x x' related _ evaluated => ?_
    exact resembles_pure related evaluated

end QLisp.Run
