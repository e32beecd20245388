import QLisp.Proofs.Program.Bypassing

/-!
Sessions with scopes bypassed.

While no text has the names that `fun` keeps to itself, sources are answered in the same way, and leave
worlds that are still the same but for the scopes that are bypassed. The world that a program starts in
is one from which such a session may start: no function of the library has these names, but for `fun`.
-/

namespace QLisp

open Library Run

variable {extra : ScopeId → Prop} {files : Files} {w w' : World Value} {v : Value}

/-- No expression of a source has a symbol that names a formal of `fun`. -/
def Source.Hygienic (files : Files) (source : Source) : Prop :=
  ∀ expressions, source.read files = .ok expressions →
    ∀ v ∈ expressions, ∀ name ∈ definer.formals, name ∉ v.symbols

/-- No source that is to be evaluated has a symbol that names a formal of `fun`. -/
def Request.Hygienic (files : Files) : Request → Prop
  | .evaluate source => source.Hygienic files
  | _ => True

/-- A value without functions is the same on both sides. -/
theorem Value.bypassed_self {scopes : Scopes Value} (plain : ∀ rule, v.Obeys rule)
    (free : ∀ name ∈ definer.formals, name ∉ v.symbols) : v.Bypassed extra scopes v :=
  ⟨(Value.alike_self v fun _ _ => rfl).related (plain _), Value.hygienic_of_symbols v free⟩

/-- Expressions that have been read are evaluated at the top level. -/
theorem Run.bypasses_top (bypassed : w.Bypassed extra files w') {expressions : List Value}
    (plain : ∀ v ∈ expressions, ∀ rule, v.Obeys rule)
    (free : ∀ v ∈ expressions, ∀ name ∈ definer.formals, name ∉ v.symbols) :
    Bypasses extra files w w' (each evaluate Scopes.global expressions)
      (each evaluate Scopes.global expressions) fun scopes => List.Forall₂ (Value.Bypassed extra scopes) := by
  have same : ∀ v ∈ expressions, v.Bypassed extra w.scopes v := fun v member =>
    Value.bypassed_self (plain v member) (free v member)
  exact bypasses_each bypassing_evaluate bypassed bypassed.global bypassed.global_own
    (List.forall₂_same.mpr fun v member => (same v member).related)
    fun v member => (same v member).hygienic.evaluable

/-- A source is answered in the same way. -/
theorem Run.bypasses_evaluateSource (bypassed : w.Bypassed extra files w') {source : Source}
    (hygienic : source.Hygienic files) :
    Bypasses extra files w w' (evaluateSource source) (evaluateSource source)
      fun scopes => AnswersRelated (Value.Bypassed extra scopes) := by
  -- A source is read first, and then evaluated, which is a matter of two steps.
  rw [evaluateSource_eq, evaluateSourceBy]
  -- The files are the same on both sides, so what a source holds is.
  have reads : Bypasses extra files w w' (readSource source) (readSource source)
      fun _ answer answer' => answer = source.read files ∧ answer' = source.read files := by
    -- Reading leaves the scopes as they are, and asks for the same paths.
    refine ⟨?_, ?_, ?_⟩
    · rw [readSource_run, readSource_run]
      refine { bypassed with clear := fun t inside => ?_, asked := ?_ }
      · exact { bypassed.clear t inside with }
      · exact congrArg (source.paths ++ ·) bypassed.asked
    · rw [readSource_run]
      exact .refl _ _
    · rw [readSource_run, readSource_run, bypassed.held, bypassed.held']
      exact ⟨rfl, rfl⟩
  refine reads.bind ?_
  rintro _ _ u u' bypassed₁ _ ⟨rfl, rfl⟩
  cases found : source.read files with
  -- A source that is not readable is reported, and nothing is evaluated.
  | error e => exact bypasses_pure bypassed₁ rfl
  | ok expressions =>
    exact (bypasses_top bypassed₁ (Source.obeys_of_read found) (hygienic expressions found)).bind
      fun _ _ _ _ bypassed₂ _ values => bypasses_pure bypassed₂ values

namespace World.Bypassed

/-- A request is carried out in the same way. -/
theorem perform (bypassed : w.Bypassed extra files w') {request : Request}
    (hygienic : request.Hygienic files) :
    (after request.perform w).Bypassed extra files (after request.perform w') ∧
      w.scopes.Continues (after request.perform w).scopes := by
  -- A request binds a name, changes the limit or evaluates a source.
  cases request with
  | arguments list =>
    -- The arguments of the program are texts, in which there is no name to hide.
    have strings : (Value.qexpr (list.map .string)).Bypassed extra w.scopes (.qexpr (list.map .string)) := by
      refine Value.bypassed_self (fun rule => Value.obeyAll_iff.mpr ?_) fun name _ => ?_
      · simp [Value.Obeys]
      · simp [Value.qexpr, Value.symbols, Value.mem_symbolsAll]
    exact ⟨bypassed.bind bypassed.global bypassed.global_own "argv" strings,
      Scopes.Spares.bindAll (.refl _ _) (.inl trivial) [("argv", _)]⟩
  | limit setting =>
    -- The limit is a number, which no scope depends on.
    refine ⟨{ bypassed with clear := fun t inside => ?_, limit := rfl }, .refl _ _⟩
    exact { bypassed.clear t inside with }
  | evaluate source =>
    have answers := bypasses_evaluateSource bypassed hygienic
    exact ⟨answers.world, answers.later⟩

/-- Any requests are carried out in the same way. -/
theorem session (requests : List Request) : ∀ {w w' : World Value}, w.Bypassed extra files w' →
    (∀ request ∈ requests, request.Hygienic files) →
    (after (requests.forM Request.perform) w).Bypassed extra files
        (after (requests.forM Request.perform) w') ∧
      w.scopes.Continues (after (requests.forM Request.perform) w).scopes := by
  -- The induction is on the requests.
  induction requests with
  | nil => exact fun bypassed _ => ⟨bypassed, .refl _ _⟩
  | cons request rest ih =>
    intro w w' bypassed hygienic
    obtain ⟨bypassed₁, later₁⟩ := bypassed.perform (hygienic request List.mem_cons_self)
    obtain ⟨bypassed₂, later₂⟩ := ih bypassed₁ fun r member => hygienic r (List.mem_cons_of_mem _ member)
    exact ⟨bypassed₂, later₁.trans later₂⟩

end World.Bypassed

/-! ### Worlds in which no scope is bypassed -/

/-- A world is hygienic: what is bound in it has none of the names that `fun` keeps to itself. -/
abbrev World.Hygienic (files : Files) (w : World Value) : Prop :=
  w.Bypassed (fun _ => False) files w

/-- A rooted world is hygienic when what is bound in it is. -/
theorem World.Rooted.hygienic (rooted : w.Rooted) (held : w.files = files) (readable : files.Hygienic)
    (bound : ∀ s name v, w.scopes.local? s name = some v →
      v.Hygienic (Defining (fun _ => False) w.scopes)) : w.Hygienic files where
  ordered := rooted.ordered
  ordered' := rooted.ordered
  global := rooted.global
  counted := rfl
  outermost := rooted.outermost
  clear _ := False.elim
  -- Nothing is bypassed yet, so every scope corresponds to itself.
  parents s _ := by
    cases link : w.scopes.parent? s with
    | none => exact .none
    | some p =>
      -- A scope with a parent has been made, and its parent before it.
      have made : w.scopes.Made s := by
        by_contra unmade
        rw [Scopes.parent?, Scopes.get?_eq_none_iff.mpr unmade] at link
        cases link
      exact .some ⟨Nat.lt_trans (rooted.ordered s p link) made, .inr ⟨id, rfl⟩⟩
  -- What is bound was made of scopes that had been made.
  bound s name _ := by
    cases found : w.scopes.local? s name with
    -- A name that is bound nowhere corresponds to none.
    | none => exact .none
    | some v =>
      refine .some ⟨?_, bound s name v found⟩
      -- A value is related to itself, because each scope in it is.
      refine (Value.alike_self v fun _ _ => rfl).related ((rooted.captured s name v found).mono ?_)
      rintro _ _ _ ⟨t, rfl, made⟩
      exact ⟨t, rfl, made, .inr ⟨id, rfl⟩⟩
  output := rfl
  asked := rfl
  limit := rfl
  held := held
  held' := held
  readable := readable

/-- The first definitions leave a world hygienic. -/
theorem World.Bypassed.withBasics (hygienic : w.Hygienic files) : w.withBasics.Hygienic files := by
  have itself (v : Value) (plain : ∀ rule, v.Obeys rule) (none : v.symbols = []) (scopes : Scopes Value) :
      v.Bypassed (fun _ => False) scopes v :=
    Value.bypassed_self plain (by simp [none])
  have first := hygienic.bind hygienic.global id "nil" (itself (.qexpr []) (fun _ => trivial) rfl _)
  have second := first.bind first.global id "otherwise" (itself (.bool true) (fun _ => trivial) rfl _)
  -- `fun` may have the names of its formals.
  refine second.bind second.global id definer.name ⟨.lambda ?_ ?_ ⟨second.global, .inr ⟨id, rfl⟩⟩,
    .inl ⟨⟨_, List.suffix_refl _, rfl⟩, rfl, _, rfl, second.global, fun _ _ => id⟩⟩
  · exact (Value.alike_self _ fun _ _ => rfl).related
      (by simp [Value.qexpr, Value.Obeys, Value.ObeyAll, definer])
  · exact (Value.alike_self _ fun _ _ => rfl).related
      (by simp [Value.qexpr, Value.sexpr, Value.primitive, Value.Obeys, Value.ObeyAll, definer])

/-- Expressions without these names leave a world hygienic. -/
theorem World.Bypassed.each (hygienic : w.Hygienic files) {expressions : List Value}
    (plain : ∀ v ∈ expressions, ∀ rule, v.Obeys rule)
    (free : ∀ v ∈ expressions, ∀ name ∈ definer.formals, name ∉ v.symbols) :
    (after (Run.each evaluate Scopes.global expressions) w).Hygienic files :=
  (bypasses_top hygienic plain free).world

/-- The definitions with the help of `fun` have none of these names. -/
theorem Library.free_entries :
    ∀ v ∈ entries.map Entry.expression, ∀ name ∈ definer.formals, name ∉ v.symbols := by
  decide

/-- The world in which the operations are bound is hygienic when all files are. -/
theorem World.hygienic_withPrimitives (readable : files.Hygienic) :
    (World.withPrimitives files).Hygienic files := by
  refine (World.rooted_withPrimitives files).hygienic rfl readable fun s name v found => ?_
  refine Scopes.forall_bindAll (fun id key v found => ?_) Scopes.global (fun b member => ?_) s name v found
  · simp [World.initial] at found
  · obtain ⟨p, _, rfl⟩ := List.mem_map.mp member
    trivial

/-- The world that a program starts in is hygienic when all files are. -/
theorem World.hygienic_standard (readable : files.Hygienic) : (World.standard files).Hygienic files := by
  have basics := (World.hygienic_withPrimitives readable).withBasics
  have plain : ∀ v ∈ entries.map Entry.expression, ∀ rule, v.Obeys rule := fun v member =>
    World.obeys_definition v (List.mem_append_right _ member)
  exact World.standard_eq files ▸ basics.each plain free_entries

end QLisp
