import QLisp.Proofs.Program.Bypass

/-!
Evaluation with scopes bypassed.

A hygienic program does the same when functions capture the global scope in place of scopes that only
bind what `fun` keeps to itself. While `fun` runs it does see such names, but in the scope of its own
call, and from there no scope is seen that is bypassed.
-/

namespace QLisp.Run

open Library

variable {α β γ δ : Type} {extra : ScopeId → Prop} {files : Files} {w w' : World Value}
  {ev ev' : Evaluator} {scope s s' : ScopeId}

/-- Two runs, in a world and in one with scopes bypassed, leave such worlds and results that fit. -/
structure Bypasses (extra : ScopeId → Prop) (files : Files) (w w' : World Value) (run : Run α)
    (run' : Run β) (good : Scopes Value → α → β → Prop) : Prop where
  /-- Scopes are bypassed in the second world after the runs. -/
  world : (run w).2.Bypassed extra files (run' w').2
  /-- Scopes stay what they are but for what they bind. -/
  later : w.scopes.Continues (run w).2.scopes
  /-- The results fit. -/
  good : good (run w).2.scopes (run w).1 (run' w').1

/-- Results that need no work change nothing. -/
theorem bypasses_pure (bypassed : w.Bypassed extra files w') {a : α} {b : β}
    {good : Scopes Value → α → β → Prop} (fine : good w.scopes a b) :
    Bypasses extra files w w' (pure a) (pure b) good :=
  ⟨bypassed, .refl _ _, fine⟩

/-- What goes on after runs that fit fits when it does for their results. -/
theorem Bypasses.bind {run : Run α} {run' : Run β} {next : α → Run γ} {next' : β → Run δ}
    {good : Scopes Value → α → β → Prop} {fine : Scopes Value → γ → δ → Prop}
    (first : Bypasses extra files w w' run run' good)
    (second : ∀ a b {u u' : World Value}, u.Bypassed extra files u' → w.scopes.Continues u.scopes →
      good u.scopes a b → Bypasses extra files u u' (next a) (next' b) fine) :
    Bypasses extra files w w' (run >>= next) (run' >>= next') fine := by
  have rest := second (run w).1 (run' w').1 first.world first.later first.good
  exact ⟨rest.world, Scopes.Continues.trans first.later rest.later, rest.good⟩

/-- A failure fits itself. -/
theorem bypasses_failure (bypassed : w.Bypassed extra files w') (e : Failure) :
    Bypasses extra files w w' (pure (.error e)) (pure (.error e)) (Value.Bypassed extra) :=
  bypasses_pure bypassed ⟨.error rfl, trivial⟩

/-- Runs that need outcomes that agree fit when going on does. -/
theorem bypasses_orFail (bypassed : w.Bypassed extra files w') {good : α → β → Prop}
    {r : Except Failure α} {r' : Except Failure β} (agree : Agree good r r') {next : α → Run Value}
    {next' : β → Run Value} (goes : ∀ a b, r = .ok a → good a b →
      Bypasses extra files w w' (next a) (next' b) (Value.Bypassed extra)) :
    Bypasses extra files w w' (orFail r next) (orFail r' next') (Value.Bypassed extra) := by
  rcases agree.outcomes with ⟨a, b, rfl, rfl, fine⟩ | ⟨e, rfl, rfl, _⟩
  · exact goes a b rfl fine
  · exact bypasses_failure bypassed e

/-- The absence of a result fits itself. -/
theorem bypasses_unit (bypassed : w.Bypassed extra files w') :
    Bypasses extra files w w' (pure .unit) (pure .unit) (Value.Bypassed extra) :=
  bypasses_pure bypassed ⟨.listed .sexpr .nil, trivial⟩

/-- Names may be bound on both sides. -/
theorem bypasses_bindAll (bypassed : w.Bypassed extra files w') (made : w.scopes.Made scope)
    (own : ¬ extra scope) {bindings bindings' : List (String × Value)}
    (values : List.Forall₂ (Primitive.BindingRelated Eq (w.scopes.Bypass extra)) bindings bindings')
    (hygienic : ∀ b ∈ bindings, b.2.Hygienic (Defining extra w.scopes)) :
    Bypasses extra files w w' (bindAll scope bindings) (bindAll scope bindings') fun _ _ _ => True :=
  ⟨bypassed.bindAll made own values hygienic, Scopes.Spares.bindAll (.refl _ _) (.inl trivial) _, trivial⟩

/--
A scope may be entered below one that is bypassed, and below the global one on the other side.

If no scope that is bypassed is seen from the former, none is seen from the new scope.
-/
theorem bypasses_enter (bypassed : w.Bypassed extra files w') (captured : w.scopes.Bypass extra s s')
    {bindings bindings' : List (String × Value)}
    (values : List.Forall₂ (Primitive.BindingRelated Eq (w.scopes.Bypass extra)) bindings bindings')
    (hygienic : ∀ b ∈ bindings, b.2.Hygienic (Defining extra w.scopes)) :
    Bypasses extra files w w' (enter (some s) bindings) (enter (some s') bindings')
      fun scopes own own' => own' = own ∧ scopes.Made own ∧ ¬ extra own ∧
        (w.scopes.Avoids extra s → scopes.Avoids extra own) := by
  let u : World Value := { w with scopes := w.scopes.extend (some s) }
  let u' : World Value := { w' with scopes := w'.scopes.extend (some s') }
  -- Both worlds have made as many scopes, so the new ones are the same.
  have first : w.scopes.Continues u.scopes := Scopes.Spares.extend _ _ _
  have there : u.scopes.Made w.scopes.next := Scopes.made_extend_next _ _
  -- The bindings are made in the new scope, which is not one of those that are bypassed.
  have entered := (bypassed.extend captured).bindAll there bypassed.next_own
    (values.imp fun _ _ both => ⟨both.1, both.2.later first⟩) fun b member =>
      (hygienic b member).later bypassed.ordered first
  have second : w.scopes.Continues (u.scopes.bindAll w.scopes.next bindings) :=
    Scopes.Spares.bindAll first (.inl trivial) bindings
  -- The second world makes its scope below another one, but counts it alike.
  have run' : enter (some s') bindings' w' = (w.scopes.next,
      { u' with scopes := u'.scopes.bindAll w.scopes.next bindings' }) := by
    rw [← bypassed.next]
    rfl
  -- Four things are left: the worlds, the number of the scope, that it was made, and what it sees.
  refine ⟨?_, second, ?_, ?_, bypassed.next_own, fun avoids => ?_⟩
  · rw [run']
    exact entered
  · rw [run']
    rfl
  -- The scope of the call has been made before anything is bound in it.
  · show w.scopes.next.index < (u.scopes.bindAll w.scopes.next bindings).made.size
    rw [Scopes.size_bindAll]
    exact there
  -- What is seen from the new scope is seen from the one below which it is made.
  · refine avoids.below entered.ordered (second.chain bypassed.ordered captured.1) ?_ bypassed.next_own
    exact (Scopes.parent?_bindAll ..).trans ((Scopes.parent?_extend ..).trans (if_pos rfl))

/-- Chains end in the global scope on both sides. -/
theorem bypasses_root (bypassed : w.Bypassed extra files w') (made : w.scopes.Made scope)
    (own : ¬ extra scope) : Bypasses extra files w w' (root scope) (root scope)
      fun scopes id id' => scopes = w.scopes ∧ id = Scopes.global ∧ id' = Scopes.global :=
  ⟨bypassed, .refl _ _, rfl, bypassed.root made own⟩

/-- The same text is printed. -/
theorem bypasses_write (bypassed : w.Bypassed extra files w') {text text' : Text.Bytes}
    (same : text' = text) :
    Bypasses extra files w w' (write text) (write text') fun _ _ _ => True := by
  subst same
  refine ⟨{ bypassed with clear := fun t inside => ?_, output := ?_ }, .refl _ _, trivial⟩
  · exact { bypassed.clear t inside with }
  · exact congrArg (· ++ text') bypassed.output

/-- A file that is read holds the same on both sides, and its text is hygienic. -/
theorem bypasses_readFile (bypassed : w.Bypassed extra files w') (path : Text.Bytes) :
    Bypasses extra files w w' (readFile path) (readFile path) fun _ contents contents' =>
      contents' = contents ∧ contents = files path := by
  refine ⟨{ bypassed with clear := fun t inside => ?_, asked := ?_ }, .refl _ _, ?_, ?_⟩
  · exact { bypassed.clear t inside with }
  · exact congrArg (path :: ·) bypassed.asked
  · show w'.files path = w.files path
    rw [bypassed.held, bypassed.held']
  · exact congrFun bypassed.held path

/-- Two evaluators do the same, in a world and in one with scopes bypassed. -/
def Bypassing (extra : ScopeId → Prop) (files : Files) (ev ev' : Evaluator) : Prop :=
  ∀ ⦃w w' scope v v'⦄, World.Bypassed extra files w w' → w.scopes.Made scope → ¬ extra scope →
    Value.Related Eq (w.scopes.Bypass extra) v v' →
    v.Evaluable (Defining extra w.scopes) (w.scopes.Avoids extra scope) →
    Bypasses extra files w w' (ev scope v) (ev' scope v') (Value.Bypassed extra)

/-- Hygienic expressions are evaluated. -/
theorem Bypassing.value (bypassing : Bypassing extra files ev ev') (bypassed : w.Bypassed extra files w')
    (made : w.scopes.Made scope) (own : ¬ extra scope) {v v' : Value}
    (value : v.Bypassed extra w.scopes v') :
    Bypasses extra files w w' (ev scope v) (ev' scope v') (Value.Bypassed extra) :=
  bypassing bypassed made own value.related value.hygienic.evaluable

/-- Expressions are evaluated in order. -/
theorem bypasses_each (bypassing : Bypassing extra files ev ev') (bypassed : w.Bypassed extra files w')
    (made : w.scopes.Made scope) (own : ¬ extra scope) {expressions expressions' : List Value}
    (related : List.Forall₂ (Value.Related Eq (w.scopes.Bypass extra)) expressions expressions')
    (evaluable : ∀ v ∈ expressions, v.Evaluable (Defining extra w.scopes) (w.scopes.Avoids extra scope)) :
    Bypasses extra files w w' (each ev scope expressions) (each ev' scope expressions')
      fun scopes => List.Forall₂ (Value.Bypassed extra scopes) := by
  -- The induction is on the expressions; each leaves worlds that fit for the next.
  induction expressions generalizing w w' expressions' with
  | nil =>
    cases related
    exact bypasses_pure bypassed .nil
  | cons t rest ih =>
    cases related with
    | cons head tail =>
      rw [each, each, List.mapM_cons, List.mapM_cons]
      -- The first expression is evaluated, and leaves worlds that correspond.
      refine (bypassing bypassed made own head (evaluable t List.mem_cons_self)).bind
        fun v v' u u' bypassed₁ later first => ?_
      -- The others are evaluated after it, so what they are made of is the later worlds'.
      refine (ih bypassed₁ (Nat.lt_of_lt_of_le made later.within)
        (tail.imp fun _ _ both => both.later later) fun t member => ?_).bind
          fun values values' x x' bypassed₂ later₂ others => ?_
      · refine (evaluable t (List.mem_cons_of_mem _ member)).mono
          (fun _ _ _ defining => defining.later bypassed.ordered later) fun avoids => ?_
        rwa [Scopes.Avoids, later.chain bypassed.ordered made]
      -- The first value has to be related in the worlds that the others leave.
      · exact bypasses_pure bypassed₂ (.cons (first.later bypassed₁.ordered later₂) others)

/-- Clauses are tried in order. -/
theorem bypasses_select (bypassing : Bypassing extra files ev ev') (bypassed : w.Bypassed extra files w')
    (made : w.scopes.Made scope) (own : ¬ extra scope) {clauses clauses' : List (Value × Value)}
    (values : List.Forall₂ (fun clause clause' => clause.1.Bypassed extra w.scopes clause'.1 ∧
      clause.2.Bypassed extra w.scopes clause'.2) clauses clauses') :
    Bypasses extra files w w' (select ev scope clauses) (select ev' scope clauses')
      (Value.Bypassed extra) := by
  -- The induction is on the clauses; a condition that fails ends the selection at once.
  induction clauses generalizing w w' clauses' with
  -- When no clause is left, both sides fail in the same way.
  | nil =>
    cases values
    exact bypasses_failure bypassed _
  | cons clause rest ih =>
    cases values with
    | @cons _ clause' _ rest' head tail =>
      obtain ⟨condition, result⟩ := clause
      obtain ⟨condition', result'⟩ := clause'
      -- The condition of the first clause is evaluated before anything else.
      refine (bypassing.value bypassed made own head.1).bind
        fun test test' u u' bypassed₁ later tested => ?_
      have made₁ := Nat.lt_of_lt_of_le made later.within
      -- The conditions have the same truth, or both are refused.
      rw [tested.related.isError]
      by_cases failed : test'.isError
      -- A condition that fails is the result, and no later clause is looked at.
      · rw [if_pos failed, if_pos failed]
        exact bypasses_pure bypassed₁ tested
      · rw [if_neg failed, if_neg failed]
        refine bypasses_orFail bypassed₁ (Primitive.agree_condition _ tested.related) ?_
        rintro chosen _ _ rfl
        -- The branch is taken when the condition holds, and otherwise the next clause is tried.
        cases chosen with
        | true => exact bypassing.value bypassed₁ made₁ own (head.2.later bypassed.ordered later)
        | false =>
          exact ih bypassed₁ made₁ (tail.imp fun _ _ both =>
            ⟨both.1.later bypassed.ordered later, both.2.later bypassed.ordered later⟩)

/-- A text in a file is evaluated. -/
theorem bypasses_load (bypassing : Bypassing extra files ev ev') (bypassed : w.Bypassed extra files w')
    (made : w.scopes.Made scope) (own : ¬ extra scope) (path : Text.Bytes) :
    Bypasses extra files w w' (load ev scope path) (load ev' scope path) (Value.Bypassed extra) := by
  refine (bypasses_readFile bypassed path).bind fun contents contents' u u' bypassed₁ later read => ?_
  -- Both sides read the same contents, or fail with the same message.
  obtain ⟨rfl, found⟩ := read
  cases contents' with
  | error fault => exact bypasses_failure bypassed₁ _
  | ok bytes =>
    simp only
    cases parsed : Form.parse (withoutInterpreterLine bytes) with
    -- What is not readable is reported, and nothing of it is evaluated.
    | error e => exact bypasses_failure bypassed₁ _
    | ok forms =>
      -- What is read holds no functions.
      refine (bypasses_each bypassing bypassed₁ (Nat.lt_of_lt_of_le made later.within) own
        (List.forall₂_same.mpr fun v member => ?_) fun v member => ?_).bind
          fun results results' x x' bypassed₂ _ values => ?_
      · exact (Value.alike_self v fun _ _ => rfl).related (Form.obeys_of_mem_toValues member)
      · exact (Value.hygienic_of_symbols v
          (bypassed₁.readable path bytes forms found.symm parsed v member)).evaluable
      -- The lines that are written tell of the errors, which are the same texts.
      · have errors := (errors_alike (values.imp fun _ _ both => both.related)).eq
        exact (bypasses_write bypassed₂ errors.symm).bind
          fun _ _ _ _ bypassed _ _ => bypasses_unit bypassed

/-- A primitive operation does the same. -/
theorem bypasses_applyPrimitive (bypassing : Bypassing extra files ev ev')
    (bypassed : w.Bypassed extra files w') (made : w.scopes.Made scope) (own : ¬ extra scope)
    (p : Primitive) {arguments arguments' : List Value}
    (given : List.Forall₂ (Value.Related Eq (w.scopes.Bypass extra)) arguments arguments')
    (hygienic : ∀ v ∈ arguments, v.Hygienic (Defining extra w.scopes)) :
    Bypasses extra files w w' (applyPrimitive ev scope p arguments)
      (applyPrimitive ev' scope p arguments') (Value.Bypassed extra) := by
  -- What evaluates, binds or prints is looked at by itself; the others depend on the arguments alone.
  have itself : w.scopes.Bypass extra scope scope := ⟨made, .inr ⟨own, rfl⟩⟩
  have bound : ∀ {bindings}, p.bindings arguments = .ok bindings →
      ∀ b ∈ bindings, b.2.Hygienic (Defining extra w.scopes) := fun found b member =>
    hygienic b.2 (Primitive.mem_of_bindings found b member)
  -- What depends on the arguments alone, such as a sum, changes nothing in the world.
  have plain : ∀ {f}, p.scalar?.or p.listing? = some f → Bypasses extra files w w'
      (pure (.ofExcept (f arguments))) (pure (.ofExcept (f arguments'))) (Value.Bypassed extra) :=
    fun found => bypasses_pure bypassed
      ⟨(Primitive.agree_plain .eq found given).related .eq,
        (Primitive.madeOf_plain found arguments).hygienic hygienic⟩
  -- The elements of an argument are as hygienic as the argument.
  have whole : ∀ {items : List Value}, .qexpr items ∈ arguments →
      (Value.sexpr items).Hygienic (Defining extra w.scopes) := fun member =>
    Value.hygienic_list.mpr (Value.hygienic_list.mp (hygienic _ member))
  -- The cases are the operations; the last line is that of all those that change nothing.
  cases p
  case eval =>
    refine bypasses_orFail bypassed (Primitive.agree_only _ given) fun v v' found alike => ?_
    -- What is evaluated is the argument without its quotation, in the same scope.
    exact bypassing.value bypassed made own
      ⟨alike.unquote, (hygienic v (Primitive.mem_of_onOne found)).unquote⟩
  case define =>
    refine bypasses_orFail bypassed (Primitive.agree_bindings _ given) fun bindings bindings' found alike => ?_
    -- Definitions are global on both sides.
    refine (bypasses_root bypassed made own).bind ?_
    rintro _ _ u u' bypassed _ ⟨same, rfl, rfl⟩
    refine (bypasses_bindAll bypassed bypassed.global bypassed.global_own (same ▸ alike)
      (same ▸ bound found)).bind fun _ _ _ _ bypassed _ _ => bypasses_unit bypassed
  case assign =>
    refine bypasses_orFail bypassed (Primitive.agree_bindings _ given) fun bindings bindings' found alike => ?_
    -- An assignment is made where it stands, in a scope that is not bypassed.
    exact (bypasses_bindAll bypassed made own alike (bound found)).bind
      fun _ _ _ _ bypassed _ _ => bypasses_unit bypassed
  case lambda =>
    refine bypasses_orFail bypassed (Primitive.agree_functionParts _ given) fun parts parts' found alike => ?_
    -- A function is made of its arguments and of the scope it is made in.
    obtain ⟨_, _, formals, body⟩ := Primitive.functionParts_ok found
    exact bypasses_pure bypassed
      ⟨.lambda alike.1 alike.2 itself, .inr ⟨hygienic _ formals, hygienic _ body⟩⟩
  case cond =>
    refine bypasses_orFail bypassed (Primitive.agree_branch _ given) fun items items' found alike => ?_
    -- One of the branches is evaluated, and it is part of an argument.
    exact bypassing.value bypassed made own ⟨.listed .sexpr alike, whole (Primitive.branch_ok found)⟩
  case print =>
    -- The texts are those of related values, which look the same.
    have texts : List.Forall₂ (Text.Alike Eq)
        (arguments.map (·.display)) (arguments'.map (·.display)) := by
      rw [List.forall₂_map_left_iff, List.forall₂_map_right_iff]
      exact given.imp fun v v' alike => alike.display
    have same := (Text.Alike.intercalate (Text.encode " ") texts).eq
    refine (bypasses_write bypassed ?_).bind fun _ _ _ _ bypassed _ _ => bypasses_unit bypassed
    rw [same]
  case load =>
    refine bypasses_orFail bypassed (Primitive.agree_path _ given) ?_
    -- A file is loaded into the outermost scope, which is global on both sides.
    rintro path _ _ rfl
    refine (bypasses_root bypassed made own).bind ?_
    rintro _ _ u u' bypassed _ ⟨_, rfl, rfl⟩
    exact bypasses_load bypassing bypassed bypassed.global bypassed.global_own path
  case sequence =>
    refine bypasses_pure bypassed ⟨getLastD_related given (.listed .sexpr .nil), ?_⟩
    -- The last argument is the result; without arguments it is the empty list.
    rcases List.eq_nil_or_concat arguments with rfl | ⟨front, last, rfl⟩
    · exact trivial
    · rw [List.concat_eq_append, List.getLastD_concat]
      exact hygienic last (by simp)
  case block =>
    refine bypasses_orFail bypassed (Primitive.agree_only _ given) fun body body' only alike => ?_
    refine bypasses_orFail bypassed (Primitive.agree_quotedItems _ alike) fun items items' found inside => ?_
    refine (bypasses_enter bypassed itself .nil (by simp)).bind ?_
    rintro id _ u u' bypassed₁ later ⟨rfl, there, apart, _⟩
    -- The block is evaluated in a scope of its own, from which the same is seen.
    have quoted := Primitive.eq_of_quotedItems found ▸ Primitive.mem_of_onOne only
    exact bypassing.value bypassed₁ there apart
      (Value.Bypassed.later ⟨.listed .sexpr inside, whole quoted⟩ bypassed.ordered later)
  case select =>
    refine bypasses_orFail bypassed (Agree.mapM given fun v v' alike => Primitive.agree_clause _ alike)
      fun clauses clauses' found alike => bypasses_select bypassing bypassed made own ?_
    -- A clause is one of the arguments, so what it holds is part of them.
    refine (List.forall₂_iff_get.mpr ⟨alike.length_eq, fun i less less' => ?_⟩)
    have both := (List.forall₂_iff_get.mp alike).2 i less less'
    obtain ⟨v, inside, clause⟩ := (mapM_ok found).2 _ (List.get_mem clauses ⟨i, less⟩)
    obtain ⟨condition, result⟩ := Primitive.clause_ok clause
    exact ⟨⟨both.1, (hygienic v inside).items _ condition⟩, both.2, (hygienic v inside).items _ result⟩
  all_goals exact plain rfl

/-- What is left to do in the scope of a call is the same. -/
theorem bypasses_proceed (bypassing : Bypassing extra files ev ev')
    (bypassed : w.Bypassed extra files w') (made : w.scopes.Made scope) (own : ¬ extra scope)
    {formals formals' body body' : Value}
    (formal : Value.Related Eq (w.scopes.Bypass extra) formals formals')
    (bodied : Value.Related Eq (w.scopes.Bypass extra) body body')
    (hygienic : Defining extra w.scopes formals body (some scope) ∨
      formals.Hygienic (Defining extra w.scopes) ∧ body.Hygienic (Defining extra w.scopes))
    (surplus : Failure) {arguments arguments' : List Value}
    (given : List.Forall₂ (Value.Related Eq (w.scopes.Bypass extra)) arguments arguments')
    (fine : ∀ v ∈ arguments, v.Hygienic (Defining extra w.scopes)) :
    Bypasses extra files w w'
      (proceed ev formals body surplus (matchFormals formals.items arguments) scope)
      (proceed ev' formals' body' surplus (matchFormals formals'.items arguments') scope)
      (Value.Bypassed extra) := by
  have matching := matchFormals_related formal.items given
  -- How the arguments fit is the same on both sides, up to the values.
  generalize matched' : matchFormals formals'.items arguments' = outcome' at matching
  cases found : matchFormals formals.items arguments with
  | full bound rest =>
    rw [found] at matching
    cases matching with
    | @full _ bound' _ rest' _ others =>
      -- All arguments that fit have been bound; only those of a variadic name are left.
      refine (bypasses_bindAll bypassed made own ?_ fun b member => ?_).bind
        fun _ _ u u' bypassed₁ later _ => ?_
      · cases others with
        -- Without a marker there is nothing more to bind.
        | none => exact .nil
        | some alike => exact .cons ⟨alike.1, .listed .qexpr alike.2⟩ .nil
      · -- A variadic name is bound to a quoted list of the arguments that are left.
        obtain ⟨⟨name, values⟩, inside, rfl⟩ := List.mem_map.mp member
        rw [Option.mem_toList.mp inside] at found
        exact Value.hygienic_list.mpr fun v here => fine v (rest_subset found here)
      -- The body is evaluated in the scope of the call, with all names bound.
      · refine bypassing bypassed₁ (Nat.lt_of_lt_of_le made later.within) own
          ((Value.Related.listed .sexpr bodied.items).later later) ?_
        rcases hygienic with defining | ⟨_, hygienic⟩
        · -- The body of `fun` is evaluated where nothing is seen that is bypassed.
          obtain ⟨s, same, there, avoids⟩ := defining.apart
          cases same
          rw [defining.bodied]
          refine Value.evaluable_definer ?_
          rwa [Scopes.Avoids, later.chain bypassed.ordered made]
        · have whole : (Value.sexpr body.items).Hygienic (Defining extra w.scopes) :=
            Value.hygienic_list.mpr hygienic.items
          exact (whole.later bypassed.ordered later).evaluable
  | short bound waiting =>
    rw [found] at matching
    cases matching with
    | short _ others =>
      -- The scope of the call is what the partial function keeps.
      have itself : w.scopes.Bypass extra scope scope := ⟨made, .inr ⟨own, rfl⟩⟩
      refine bypasses_pure bypassed ⟨.lambda (formal.withItems others) bodied itself, ?_⟩
      -- A partial function keeps the body, and the formals that are left are at the end of all
      -- formals.
      have fewer := waiting_suffix found
      rcases hygienic with defining | ⟨formalFine, bodyFine⟩
      · obtain ⟨items, suffix, rfl⟩ := defining.waiting
        exact .inl ⟨⟨waiting, fewer.trans suffix, rfl⟩, defining.bodied, defining.apart⟩
      · exact .inr ⟨formalFine.withItems fewer.subset, bodyFine⟩
  -- Arguments that are too many, or a marker out of place, are a failure on both sides.
  | excess bound =>
    rw [found] at matching
    cases matching
    exact bypasses_failure bypassed _
  | malformed bound =>
    rw [found] at matching
    cases matching
    exact bypasses_failure bypassed _

/-- A function does the same, in a scope that is bypassed and in the global one. -/
theorem bypasses_applyLambda (bypassing : Bypassing extra files ev ev')
    (bypassed : w.Bypassed extra files w') (captured : w.scopes.Bypass extra s s')
    {formals formals' body body' : Value}
    (formal : Value.Related Eq (w.scopes.Bypass extra) formals formals')
    (bodied : Value.Related Eq (w.scopes.Bypass extra) body body')
    (hygienic : (Value.lambda formals body (some s)).Hygienic (Defining extra w.scopes))
    {arguments arguments' : List Value}
    (given : List.Forall₂ (Value.Related Eq (w.scopes.Bypass extra)) arguments arguments')
    (fine : ∀ v ∈ arguments, v.Hygienic (Defining extra w.scopes)) :
    Bypasses extra files w w' (applyLambda ev formals body (some s) arguments)
      (applyLambda ev' formals' body' (some s') arguments') (Value.Bypassed extra) := by
  -- A failure tells the numbers of formals and of arguments, which agree.
  have surplus : Failure.wrongCount "lambda" formals'.items.length arguments'.length =
      .wrongCount "lambda" formals.items.length arguments.length := by
    rw [formal.items.length_eq, given.length_eq]
  rw [applyLambda_eq, applyLambda_eq, surplus]
  -- The call makes a scope of its own, in which the arguments are bound.
  refine (bypasses_enter bypassed captured (matchFormals_related formal.items given).bound
    fun b member => fine b.2 (mem_of_mem_bound member)).bind ?_
  -- How the arguments fit decides what is done there.
  rintro own _ u u' bypassed₁ later ⟨same, there, apart, avoids⟩
  subst same
  refine bypasses_proceed bypassing bypassed₁ there apart (formal.later later) (bodied.later later) ?_ _
    (given.imp fun _ _ alike => alike.later later) fun v member =>
      (fine v member).later bypassed.ordered later
  -- The scope of the call takes the place of the one that was captured.
  refine hygienic.imp (fun defining => ?_) fun parts =>
    ⟨parts.1.later bypassed.ordered later, parts.2.later bypassed.ordered later⟩
  obtain ⟨s, same, _, unseen⟩ := defining.apart
  cases same
  exact ⟨defining.waiting, defining.bodied, _, rfl, there, avoids unseen⟩

/-- Operators do the same. -/
theorem bypasses_call (bypassing : Bypassing extra files ev ev') (bypassed : w.Bypassed extra files w')
    (made : w.scopes.Made scope) (own : ¬ extra scope) {operator operator' : Value}
    (operators : operator.Bypassed extra w.scopes operator') {arguments arguments' : List Value}
    (values : List.Forall₂ (Value.Bypassed extra w.scopes) arguments arguments') :
    Bypasses extra files w w' (call ev scope operator arguments) (call ev' scope operator' arguments')
      (Value.Bypassed extra) := by
  -- Anything but an operation or a function is refused.
  obtain ⟨fine, given⟩ := (List.forall₂_and_left _ _).mp
    (values.imp fun _ _ both => ⟨both.hygienic, both.related⟩)
  obtain ⟨related, hygienic⟩ := operators
  cases related with
  -- An operation of the program is applied; one that it does not have is refused.
  | builtin operation =>
    cases operation with
    | primitive p => exact bypasses_applyPrimitive bypassing bypassed made own p given fine
    | foreign identity name => exact bypasses_failure bypassed _
  -- A function is called in the scope that it has kept.
  | lambda formal bodied captured =>
    exact bypasses_applyLambda bypassing bypassed captured formal bodied hygienic given fine
  | _ => exact bypasses_failure bypassed _

/-- Lists are reduced. -/
theorem bypasses_reduce (bypassing : Bypassing extra files ev ev') (bypassed : w.Bypassed extra files w')
    (made : w.scopes.Made scope) (own : ¬ extra scope) {items items' : List Value}
    (related : List.Forall₂ (Value.Related Eq (w.scopes.Bypass extra)) items items')
    (evaluable : ∀ v ∈ items, v.Evaluable (Defining extra w.scopes) (w.scopes.Avoids extra scope)) :
    Bypasses extra files w w' (reduce ev scope items) (reduce ev' scope items') (Value.Bypassed extra) := by
  -- All elements are evaluated first, and in the worlds they leave the rest is done.
  refine (bypasses_each bypassing bypassed made own related evaluable).bind
    fun values values' u u' bypassed₁ later evaluated => ?_
  have made₁ := Nat.lt_of_lt_of_le made later.within
  -- The first error, if there is one, is found at the same place.
  have first := findError_related (fun _ _ both => both.related.isError) evaluated
  cases found : values.find? (·.isError) with
  | some failed =>
    -- An error is the result, so nothing is called.
    rw [found] at first
    obtain ⟨failed', found', alike⟩ := first.some_left
    rw [found']
    exact bypasses_pure bypassed₁ alike
  | none =>
    rw [found] at first
    rw [first.none_left]
    -- An empty list is the empty list, a single value is itself, and otherwise a call is made.
    rcases evaluated with _ | ⟨head, _ | ⟨second, others⟩⟩
    · exact bypasses_unit bypassed₁
    · exact bypassing.value bypassed₁ made₁ own head
    · exact bypasses_call bypassing bypassed₁ made₁ own head (.cons second others)

/-- Expressions are evaluated when lists are reduced. -/
theorem bypasses_evalWith {reduce reduce' : List Value → Run Value} (bypassed : w.Bypassed extra files w')
    (own : ¬ extra scope) {v v' : Value} (related : Value.Related Eq (w.scopes.Bypass extra) v v')
    (evaluable : v.Evaluable (Defining extra w.scopes) (w.scopes.Avoids extra scope))
    (reduces : ∀ items items', List.Forall₂ (Value.Related Eq (w.scopes.Bypass extra)) items items' →
      (∀ t ∈ items, t.Evaluable (Defining extra w.scopes) (w.scopes.Avoids extra scope)) →
        Bypasses extra files w w' (reduce items) (reduce' items') (Value.Bypassed extra)) :
    Bypasses extra files w w' (evalWith reduce scope v) (evalWith reduce' scope v')
      (Value.Bypassed extra) := by
  -- Only symbols and lists in round brackets do not stand for themselves.
  have whole := related
  have inside := related.items
  cases related with
  | symbol name => exact ⟨bypassed, .refl _ _, bypassed.lookup own evaluable⟩
  | list kind _ =>
    cases kind with
    | sexpr => exact reduces _ _ inside (Value.evaluableAll_iff.mp evaluable)
    | qexpr => exact bypasses_pure bypassed ⟨whole, evaluable⟩
  | _ => exact bypasses_pure bypassed ⟨whole, evaluable⟩

/-- Evaluation does the same, in a world and in one with scopes bypassed. -/
theorem bypassing_eval (room : Nat) : Bypassing extra files (eval room) (eval room) := by
  -- The induction is on the reductions that may still be entered.
  induction room with
  | zero =>
    intro w w' scope v v' bypassed made own related evaluable
    -- No reduction may be entered any more, so both sides fail with their limit.
    refine bypasses_evalWith bypassed own related evaluable fun _ _ _ _ => ⟨bypassed, .refl _ _, ?_⟩
    show Value.Bypassed extra w.scopes (.error (.tooDeep w.limit)) (.error (.tooDeep w'.limit))
    rw [bypassed.limit]
    exact ⟨.error rfl, trivial⟩
  | succ room ih =>
    intro w w' scope v v' bypassed made own related evaluable
    -- A list is reduced with one reduction less, which is the induction's.
    exact bypasses_evalWith bypassed own related evaluable fun _ _ inside each =>
      bypasses_reduce ih bypassed made own inside each

/-- Evaluation with no reduction in progress does the same. -/
theorem bypassing_evaluate : Bypassing extra files evaluate evaluate := by
  intro w w' scope v v' bypassed made own related evaluable
  have inner := bypassing_eval w.limit bypassed made own related evaluable
  -- Both sides have the same limit.
  have there : evaluate scope v' w' = eval w.limit scope v' w' := by
    rw [← bypassed.limit]
    rfl
  refine ⟨?_, inner.later, ?_⟩
  · rw [there]
    exact inner.world
  · rw [there]
    exact inner.good

end QLisp.Run
