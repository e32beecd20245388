import QLisp.Proofs.Program.Walks

/-!
Room for functions of the library that call a function.

The function that is called may print and define names, as long as it leaves those of the library
alone. With room enough for its calls, and three reductions more for each element, the functions of the
library that go through a list do not reach the limit either.
-/

namespace QLisp

open Library Run

variable {w u x : World Value} {g : Function} {arguments items rest l others given : List Value}
  {own scope s : ScopeId} {n enough more : Nat} {f e r t v z joint item j operator argument : Value}
  {name : String}

/-- Nothing has been written when nothing has happened. -/
theorem World.Advances.refl (ordered : w.scopes.ParentsFirst) : w.Advances w where
  below := (World.Grown.refl w).kept.below
  names _ _ := rfl
  ordered := ordered

namespace Run

/--
A run completes: from some room on it always ends in the same way, and with something good.

It may write in the global scope, but no name of the library, and it asks for no file. It does so in
every world to which that has led from this one.
-/
def Completes {α : Type} (enough : Nat) (run : Nat → Run α) (w : World Value) (good : α → Prop) : Prop :=
  ∀ u, w.Advances u → ∃ a x, good a ∧ u.Advances x ∧ x.asked = u.asked ∧ Ends enough run u a x

namespace Completes

variable {α β : Type} {run run' : Nat → Run α} {a : α} {good fine : α → Prop}

/-- More room is enough too. -/
theorem mono (completes : Completes enough run w good) (roomier : enough ≤ more) :
    Completes more run w good := by
  intro u advances
  obtain ⟨a, x, end_, later, asked, ends⟩ := completes u advances
  exact ⟨a, x, end_, later, asked, ends.mono roomier⟩

/-- Less may be asked of what a run ends with. -/
theorem imp (completes : Completes enough run w good) (weaker : ∀ a, good a → fine a) :
    Completes enough run w fine := by
  intro u advances
  obtain ⟨a, x, end_, rest⟩ := completes u advances
  exact ⟨a, x, weaker a end_, rest⟩

/-- A run completes in later worlds too. -/
theorem later (completes : Completes enough run w good) (advances : w.Advances u) :
    Completes enough run u good :=
  fun x after => completes x (advances.trans after)

/-- A run that changes nothing completes. -/
theorem of_still (still : ∀ u, w.Advances u → Ends enough run u a u) :
    Completes enough run w (· = a) :=
  fun u advances => ⟨a, u, rfl, .refl advances.ordered, rfl, still u advances⟩

/-- A run that only makes scopes completes. -/
theorem of_grown (equipped : w.Equipped)
    (ends : ∀ u, w.Advances u → ∃ x, u.Grown x ∧ Ends enough run u a x) :
    Completes enough run w (· = a) := by
  intro u advances
  obtain ⟨x, grown, end_⟩ := ends u advances
  exact ⟨a, x, rfl, (equipped.kept advances).advances grown, grown.asked, end_⟩

end Completes

/-- What comes to the end of a list with an error among its elements, or to something good. -/
def OrError (good : Value → Prop) (v : Value) : Prop :=
  v.isError ∨ good v

section Expressions

variable {ev : Nat → Evaluator} [Stepwise ev] {good : Value → Prop} {goods : List Value → Prop}

omit [Stepwise ev] in
/-- No expressions complete. -/
theorem completes_nil : Completes enough (fun room => each (ev room) scope []) w (· = []) :=
  .of_still fun _ _ => evaluatesAll_nil

omit [Stepwise ev] in
/-- Expressions complete one after the other. -/
theorem completes_cons (first : Completes enough (fun room => ev room scope t) w good)
    (others : Completes enough (fun room => each (ev room) scope items) w goods) :
    Completes enough (fun room => each (ev room) scope (t :: items)) w
      fun vs => ∃ v rest, vs = v :: rest ∧ good v ∧ goods rest := by
  intro u advances
  obtain ⟨v, u₁, here, later, asked, ends⟩ := first u advances
  obtain ⟨vs, x, there, later', asked', ends'⟩ := others u₁ (advances.trans later)
  exact ⟨v :: vs, x, ⟨v, vs, rfl, here, there⟩, later.trans later', asked'.trans asked,
    EvaluatesAll.cons ends ends'⟩

/-- A list completes when its elements do, and then a call of the first on the others. -/
theorem completes_list (values : Completes enough (fun room => each (ev room) scope items) w goods)
    (several : ∀ vs, goods vs → ∃ operator argument rest, vs = operator :: argument :: rest ∧
      (vs.find? (·.isError) = none →
        Completes enough (fun room => call (ev room) scope operator (argument :: rest)) w good)) :
    Completes (enough + 1) (fun room => ev room scope (.sexpr items)) w (OrError good) := by
  intro u advances
  obtain ⟨vs, u₁, here, later, asked, ends⟩ := values u advances
  obtain ⟨operator, argument, rest, rfl, applies⟩ := several vs here
  -- An error among the values is the result, and without one there is a call.
  cases found : (operator :: argument :: rest).find? (·.isError) with
  | some failure =>
    exact ⟨failure, u₁, .inl (by simpa using List.find?_some found), later, asked,
      Evaluates.failed ends found⟩
  | none =>
    obtain ⟨v, x, there, later', asked', ends'⟩ := applies found u₁ (advances.trans later)
    exact ⟨v, x, .inr there, later.trans later', asked'.trans asked, Evaluates.call ends found ends'⟩

/-- A list completes when the values of its elements are known and a call on them completes. -/
theorem completes_call
    (values : ∀ u, w.Advances u → EvaluatesAll ev enough scope items u (operator :: argument :: rest) u)
    (fine : (operator :: argument :: rest).find? (·.isError) = none)
    (applies : Completes enough (fun room => call (ev room) scope operator (argument :: rest)) w good) :
    Completes (enough + 1) (fun room => ev room scope (.sexpr items)) w good := by
  intro u advances
  obtain ⟨v, x, there, later, asked, ends⟩ := applies u advances
  exact ⟨v, x, there, later, asked, Evaluates.call (values u advances) fine ends⟩

omit [Stepwise ev] in
/-- A function of the library completes when its body does in a scope that serves the call. -/
theorem completes_function (equipped : w.Equipped) (provides : w.Provides g s)
    (member : .function g ∈ entries) (plain : g.Plain) (filled : g.formals.length = arguments.length)
    (completes : ∀ u own, w.Advances u → u.Serves g arguments own →
      Completes enough (fun room => ev room own (.sexpr g.body)) u good) :
    Completes enough (fun room => call (ev room) scope (g.closure s) arguments) w good := by
  intro u advances
  have equipped' := equipped.kept advances
  have provides' := provides.advanced member equipped advances
  have entering : u.Advances (u.entered s (g.formals.zip arguments)) :=
    equipped'.advances (.entered provides'.made _)
  have serves := provides'.serves equipped' plain filled
  obtain ⟨v, x, there, later, asked, ends⟩ :=
    completes _ _ (advances.trans entering) serves _ (.refl entering.ordered)
  exact ⟨v, x, there, entering.trans later, asked, applies_lambda plain.1 filled ends⟩

/-- The conditional on a list being empty completes when the branch for what the list is does. -/
theorem completes_onEmpty (enough : Nat) {empty other : List Value} (serves : w.Serves g arguments own)
    (list : (g.formals.zip arguments).lookup name = some (.qexpr items))
    (visible : name ∉ definer.formals) (free : "nil" ∉ g.formals)
    (branch : Completes (enough + 1)
      (fun room => ev room own (.sexpr (if items.isEmpty then empty else other))) w good) :
    Completes (enough + 2) (fun room => ev room own (.sexpr (onEmpty name empty other))) w good := by
  -- The condition is whether the list is empty, and the branches are left as they are.
  have values (u : World Value) (advances : w.Advances u) : EvaluatesAll ev (enough + 1) own
      [.primitive .cond, .sexpr [.primitive .equal, .symbol name, .symbol "nil"], .qexpr empty,
        .qexpr other] u [.primitive .cond, .bool items.isEmpty, .qexpr empty, .qexpr other] u := by
    -- The names still mean what they meant, in every world that comes later.
    have serves' := serves.kept advances
    have test : Evaluates ev 1 own (.sexpr [.primitive .equal, .symbol name, .symbol "nil"]) u
        (.bool items.isEmpty) u :=
      .call (.cons (evaluates_primitive _) (.cons (evaluates_symbol (serves'.formal list visible))
        (.cons (evaluates_symbol (serves'.nil free)) evaluatesAll_nil))) rfl (applies_isEmpty items)
    exact .cons (evaluates_primitive _) (.cons (test.mono (by omega))
      (.cons (evaluates_qexpr _) (.cons (evaluates_qexpr _) evaluatesAll_nil)))
  refine completes_call values rfl fun u advances => ?_
  -- The branch that is taken completes, since it is evaluated in such a world.
  obtain ⟨v, x, there, later, asked, ends⟩ := branch u advances
  refine ⟨v, x, there, later, asked, applies_cond ?_ ends⟩
  cases items <;> rfl

/-- A call on the first element of a list completes when the function does for it. -/
theorem completes_onFirst (enough : Nat) (given : List Value) (serves : w.Serves g arguments own)
    (lambda : f.kind = .lambda)
    (function : (g.formals.zip arguments).lookup "f" = some f)
    (list : (g.formals.zip arguments).lookup "l" = some (.qexpr (e :: rest))) (free : "fst" ∉ g.formals)
    (gives : ∀ u, w.Advances u → Gives ev u e rest r) (allowed : r.isError = false)
    (known : ∀ u, w.Advances u → EvaluatesAll ev (enough + 4) own others u given u)
    (fine : ∀ t ∈ given, t.isError = false)
    (calls : Completes (enough + 4) (fun room => call (ev room) own f (given ++ [r])) w good) :
    Completes (enough + 5) (fun room => ev room own (Library.onFirst others)) w good := by
  intro u advances
  have serves' := serves.kept advances
  obtain ⟨s, provides⟩ := serves'.equipped.furnished.function fst (by simp [entries])
  -- The element is found by a call of `fst`, which makes one scope.
  have first : Evaluates ev (enough + 4) own (.sexpr [.symbol "fst", .symbol "l"]) u r _ :=
    (evaluates_fst provides serves'.equipped (serves'.function provides free (by decide))
      (serves'.formal list (by decide)) (gives u advances)).mono (by omega)
  have entering : u.Advances (u.entered s (fst.formals.zip [.qexpr (e :: rest)])) :=
    serves'.equipped.advances (.entered provides.made _)
  -- The function is looked up, what it is given first is evaluated, and the element comes last.
  have values := (EvaluatesAll.cons (evaluates_symbol (serves'.formal function (by decide)))
    (known u advances)).append (.cons first evaluatesAll_nil)
  obtain ⟨v, x, there, later, asked, ends⟩ := calls _ (advances.trans entering)
  have good := errorless_onFirst lambda fine allowed
  refine ⟨v, x, there, entering.trans later, asked, ?_⟩
  -- The list has two elements at least, so it is a call in either case.
  cases given with
  | nil => exact Evaluates.call values good ends
  | cons z more => exact Evaluates.call values good ends

/-- A value is a quoted list. -/
def Listed (v : Value) : Prop :=
  ∃ items, v = .qexpr items

/-- What a condition selects completes: the list of the first element, or the empty list. -/
theorem completes_sift (serves : w.Serves g arguments own)
    (list : (g.formals.zip arguments).lookup "l" = some (.qexpr (e :: rest))) (free : "nil" ∉ g.formals)
    (condition : Completes (enough + 2) (fun room => ev room own t) w good) :
    Completes (enough + 3) (fun room => ev room own (.sexpr [.primitive .cond, t,
      .qexpr [.primitive .head, .symbol "l"], .qexpr [.symbol "nil"]])) w (OrError Listed) := by
  -- The operation and the two branches are evaluated to themselves.
  have operator : Completes (enough + 2) (fun room => ev room own (.primitive .cond)) w
      (· = .primitive .cond) := .of_still fun _ _ => evaluates_primitive .cond
  have quoted (items : List Value) : Completes (enough + 2) (fun room => ev room own (.qexpr items)) w
      (· = .qexpr items) := .of_still fun _ _ => evaluates_qexpr items
  refine (completes_list (completes_cons operator (completes_cons condition
    (completes_cons (quoted _) (completes_cons (quoted _) completes_nil)))) ?_).imp
      fun v result => result.elim .inl id
  -- The condition is what decides, and the branches are what they were.
  rintro _ ⟨_, _, rfl, rfl, r, _, rfl, -, _, _, rfl, rfl, _, _, rfl, rfl, rfl⟩
  refine ⟨_, _, _, rfl, fun _ u advances => ?_⟩
  have serves' := serves.kept advances
  have chosen := Primitive.cond.branch_qexpr r [.primitive .head, .symbol "l"] [.symbol "nil"]
  -- What is no condition is a failure, and otherwise a branch is evaluated.
  cases decided : Primitive.cond.condition r with
  | error failure =>
    rw [decided] at chosen
    have fails : Applies ev (enough + 2) own (.primitive .cond) [r, _, _] u (.error failure) u :=
      .of_eq fun room => by
        show orFail (Primitive.cond.branch _) _ u = _
        rw [chosen]
        rfl
    -- A failure is a result, too.
    exact ⟨.error failure, u, .inl rfl, .refl advances.ordered, rfl, fails⟩
  | ok holds =>
    rw [decided] at chosen
    cases holds with
    | true =>
      -- Where it holds, the element is kept, as a list of one.
      have head : Evaluates ev 1 own (.sexpr [.primitive .head, .symbol "l"]) u (.qexpr [e]) u :=
        .call (.cons (evaluates_primitive _) (.cons (evaluates_symbol (serves'.formal list (by decide)))
          evaluatesAll_nil)) rfl (applies_head e rest)
      exact ⟨_, u, .inr ⟨[e], rfl⟩, .refl advances.ordered, rfl,
        applies_cond chosen (head.mono (by omega))⟩
    | false =>
      -- Where it does not, nothing is kept, which is the empty list.
      have nil : Evaluates ev 1 own (.sexpr [.symbol "nil"]) u (.qexpr []) u :=
        .lone (evaluates_symbol (serves'.nil free)) rfl (evaluates_qexpr [])
      exact ⟨_, u, .inr ⟨[], rfl⟩, .refl advances.ordered, rfl,
        applies_cond chosen (nil.mono (by omega))⟩

/--
A function of the library that goes through a list completes.

For each element there is something good or an error, and joining something good to a list gives a list.
-/
theorem completes_walk (enough : Nat) (good : Value → Prop) (lambda : f.kind = .lambda) (equipped : w.Equipped)
    (provides : w.Provides (walk name joint item) s) (member : .function (walk name joint item) ∈ entries)
    (free : name ∉ "f" :: "l" :: definer.formals) (fine : j.isError = false)
    (operator : ∀ u own arguments, w.Advances u → u.Serves (walk name joint item) arguments own →
      Completes (enough + 3) (fun room => ev room own joint) u (· = j))
    (joins : ∀ u own p rs, w.Advances u → good p → p.isError = false →
      Completes (enough + 3) (fun room => call (ev room) own j [p, .qexpr rs]) u Listed)
    (l : List Value)
    (gives : ∀ e ∈ l, ∀ u own rest, w.Advances u →
      u.Serves (walk name joint item) [f, .qexpr (e :: rest)] own →
      Completes (enough + 3) (fun room => ev room own item) u (OrError good)) :
    Completes (enough + 3 * l.length + 3)
      (fun room => call (ev room) scope ((walk name joint item).closure s) [f, .qexpr l]) w
      (OrError Listed) := by
  have shape : (walk name joint item).Plain := by simp [Function.Plain, walk, variadicMarker]
  have outside : name ∉ (walk name joint item).formals ∧ name ∉ definer.formals := by
    simpa [walk, not_or, and_assoc] using free
  have applicable : f.isError = false := by simp [Value.isError, lambda]
  -- The induction is on the list, whatever scope the function is called from.
  induction l generalizing scope with
  | nil =>
    refine (Completes.of_grown equipped fun u advances => ?_).imp fun v same => .inr ⟨[], same⟩
    -- The library has not changed, so the function means what it did.
    have provides' := provides.advanced member equipped advances
    have nil : Returns ev 3 scope ((walk name joint item).closure s) [f, .qexpr []] u (.qexpr []) :=
      Walks.returns_nil (equipped.kept advances) provides'
    obtain ⟨x, grown, ends⟩ := nil u (.refl u)
    exact ⟨x, grown, Ends.mono ends (by omega)⟩
  | cons e rest ih =>
    -- The others are walked over from any scope, which is what the induction is for.
    have others (scope : ScopeId) : Completes (enough + 3 * rest.length + 3) (fun room =>
        call (ev room) scope ((walk name joint item).closure s) [f, .qexpr rest]) w (OrError Listed) :=
      ih fun e inside => gives e (List.mem_cons_of_mem _ inside)
    -- A call of the function makes its scope and evaluates the body there.
    refine completes_function equipped provides member shape rfl fun u own advances serves => ?_
    refine completes_onEmpty (enough + 3 * rest.length + 4) serves rfl (by decide)
      (by simp [walk]) ?_
    -- What the others give is found by a call of the function itself.
    have again : Completes (enough + 3 * rest.length + 4)
        (fun room => ev room own (.sexpr [.symbol name, .symbol "f", tailOf "l"])) u (OrError Listed) := by
      refine completes_call (fun x later => ?_) (by simp [applicable]) ((others own).later advances)
      have serves' := serves.kept later
      have provides' := provides.advanced member equipped (advances.trans later)
      -- The tail is what is left of the list.
      have tail : Evaluates ev 1 own (tailOf "l") x (.qexpr rest) x :=
        evaluates_tailOf (serves'.formal rfl (by decide))
      exact .cons (evaluates_symbol (serves'.function provides' outside.1 outside.2))
        (.cons (evaluates_symbol (serves'.formal rfl (by decide)))
          (.cons (tail.mono (by omega)) evaluatesAll_nil))
    -- What becomes of the element is what has been assumed of it.
    have here := gives e List.mem_cons_self u own rest advances serves
    have joint' := operator u own _ advances serves
    refine (completes_list (completes_cons (joint'.mono (by omega)) (completes_cons (here.mono (by omega))
      (completes_cons again completes_nil))) ?_)
    rintro _ ⟨_, _, rfl, rfl, p, _, rfl, made, q, _, rfl, listed, rfl⟩
    refine ⟨_, _, _, rfl, fun good => ?_⟩
    -- Without an error among them both are what can be joined.
    obtain ⟨-, fineP, fineQ⟩ : _ ∧ p.isError = false ∧ q.isError = false := by simpa using good
    obtain ⟨rs, rfl⟩ := listed.resolve_left (by simp [fineQ])
    exact (joins u own p rs advances (made.resolve_left (by simp [fineP])) fineP).mono (by omega)

/-- `foldl` completes when the function does on what fits as a result so far and each element. -/
theorem completes_foldl (lambda : f.kind = .lambda) (equipped : w.Equipped) (provides : w.Provides foldl s)
    (normal : ∀ z, good z → z.isNormal) (l : List Value) (elements : ∀ e ∈ l, e.isNormal)
    (calls : ∀ z, good z → ∀ e ∈ l, ∀ own,
      Completes (n + 4) (fun room => call (ev room) own f [z, e]) w (OrError good)) (start : good z) :
    Completes (n + 2 * l.length + 5)
      (fun room => call (ev room) scope (foldl.closure s) [f, z, .qexpr l]) w (OrError good) := by
  have member : .function foldl ∈ entries := by simp [entries]
  have applicable : f.isError = false := by simp [Value.isError, lambda]
  -- The induction is on the elements, with the result so far.
  induction l generalizing scope z with
  | nil =>
    refine (Completes.of_grown equipped fun u advances => ?_).imp fun v same => .inr (same ▸ start)
    have provides' := provides.advanced member equipped advances
    have nil : Returns ev 5 scope (foldl.closure s) [f, z, .qexpr []] u z :=
      returns_foldl_nil (equipped.kept advances) provides' (normal z start)
    obtain ⟨x, grown, ends⟩ := nil u (.refl u)
    exact ⟨x, grown, Ends.mono ends (by omega)⟩
  | cons e rest ih =>
    -- With any result that fits the others are folded, which is what the induction is for.
    have others {r : Value} (scope : ScopeId) (fits : good r) : Completes (n + 2 * rest.length + 5)
        (fun room => call (ev room) scope (foldl.closure s) [f, r, .qexpr rest]) w (OrError good) :=
      ih (fun e inside => elements e (List.mem_cons_of_mem _ inside))
        (fun z fits e inside => calls z fits e (List.mem_cons_of_mem _ inside)) fits
    refine completes_function equipped provides member (by decide) rfl fun u own advances serves => ?_
    refine completes_onEmpty (n + 2 * rest.length + 5) serves rfl (by decide) (by decide) ?_
    -- The function is called on the result so far and on the first element.
    have first : Completes (n + 5) (fun room => ev room own (onFirst [.symbol "z"])) u (OrError good) :=
      completes_onFirst n [z] serves lambda rfl rfl (by decide)
        (fun _ _ => gives_normal (elements e List.mem_cons_self))
        (Value.isError_of_isNormal (elements e List.mem_cons_self))
        (fun x later => .cons (evaluates_symbol ((serves.kept later).formal rfl (by decide)))
          evaluatesAll_nil)
        (by simp [Value.isError_of_isNormal (normal z start)])
        ((calls z start e List.mem_cons_self own).later advances)
    -- The operator, the function and the tail of the list are found by their names.
    have operator : Completes (n + 2 * rest.length + 5)
        (fun room => ev room own (.symbol foldl.name)) u (· = foldl.closure s) :=
      .of_still fun x later => evaluates_symbol ((serves.kept later).function
        (provides.advanced member equipped (advances.trans later)) (by decide) (by decide))
    have function : Completes (n + 2 * rest.length + 5) (fun room => ev room own (.symbol "f")) u
        (· = f) :=
      .of_still fun x later => evaluates_symbol ((serves.kept later).formal rfl (by decide))
    have tail : Completes (n + 2 * rest.length + 5) (fun room => ev room own (tailOf "l")) u
        (· = .qexpr rest) :=
      .of_still fun x later =>
        (evaluates_tailOf ((serves.kept later).formal rfl (by decide))).mono (by omega)
    refine (completes_list (completes_cons operator (completes_cons function
      (completes_cons (first.mono (by omega)) (completes_cons tail completes_nil)))) ?_).imp
        fun v result => result.elim .inl id
    rintro _ ⟨_, _, rfl, rfl, _, _, rfl, rfl, r, _, rfl, fits, _, _, rfl, rfl, rfl⟩
    refine ⟨_, _, _, rfl, fun fine => ?_⟩
    -- Without an error the first call has given something that fits.
    have fineR : r.isError = false := by simpa [applicable] using fine
    exact (others own (fits.resolve_left (by simp [fineR]))).later advances

end Expressions

/-! ### Room for whole expressions -/

section Whole

variable {ev : Nat → Evaluator} [Stepwise ev] {good : Value → Prop}

/-- Where a function of the library is known, an expression ends when the call does. -/
theorem ends_of_completes (good : Value → Prop) (knows : w.Knows scope) (g : Function)
    (member : .function g ∈ entries)
    (normal : ∀ t ∈ argument :: rest, t.isNormal)
    (completes : ∀ s, w.Provides g s → Completes (enough + 1)
      (fun room => call (ev room) scope (g.closure s) (argument :: rest)) w good) :
    ∃ v x, x.asked = w.asked ∧
      Evaluates ev (enough + 2) scope (.sexpr (.symbol g.name :: argument :: rest)) w v x := by
  obtain ⟨s, provides, means⟩ := knows.provides g member
  obtain ⟨v, x, _, _, asked, ends⟩ := completes s provides w (.refl knows.equipped.ordered)
  have fine : (g.closure s :: argument :: rest).find? (·.isError) = none :=
    Value.errorless_of_isNormal rfl normal
  have values : EvaluatesAll ev (enough + 1) scope (.symbol g.name :: argument :: rest) w
      (g.closure s :: argument :: rest) w :=
    .cons (evaluates_symbol means) (evaluatesAll_normal normal)
  exact ⟨v, x, asked, Evaluates.call values fine ends⟩

/-- `map` ends when the function completes for what each element gives. -/
theorem ends_map (knows : w.Knows scope) (lambda : f.kind = .lambda) (function : f.isNormal)
    (calls : ∀ e ∈ l, ∀ rest, ∃ r, (∀ u, w.Advances u → Gives ev u e rest r) ∧ r.isError = false ∧
      ∀ own, Completes (n + 4) (fun room => call (ev room) own f [r]) w fun _ => True) :
    ∃ v x, x.asked = w.asked ∧
      Evaluates ev (n + 3 * l.length + 6) scope (.sexpr [.symbol "map", f, .qexpr l]) w v x := by
  have member : .function map ∈ entries := by simp [entries]
  refine ends_of_completes (OrError Listed) knows map member
    (List.forall_mem_cons.mpr ⟨function, List.forall_mem_singleton.mpr rfl⟩) fun s provides => ?_
  refine (completes_walk (n + 2) (fun _ => True) lambda knows.equipped provides member
    (by decide) rfl (fun u own _ _ _ => .of_still fun x _ => evaluates_primitive .cons)
    (fun u own p rs _ _ _ => ?_) l fun e inside u own rest advances serves => ?_).mono (by omega)
  · exact (Completes.of_still fun x _ => .of_eq fun room => rfl).imp fun v same => ⟨p :: rs, same⟩
  · obtain ⟨r, gives, fine, calls⟩ := calls e inside rest
    refine (completes_onFirst n [] serves lambda rfl rfl (by decide)
      (fun x later => gives x (advances.trans later)) fine (fun x _ => evaluatesAll_nil) (by simp)
      ((calls own).later advances)).imp fun v _ => .inr trivial

/-- `filter` ends when the function completes for each element. -/
theorem ends_filter (knows : w.Knows scope) (lambda : f.kind = .lambda) (function : f.isNormal)
    (normal : ∀ e ∈ l, e.isNormal)
    (calls : ∀ e ∈ l, ∀ own,
      Completes (n + 4) (fun room => call (ev room) own f [e]) w fun _ => True) :
    ∃ v x, x.asked = w.asked ∧
      Evaluates ev (n + 3 * l.length + 7) scope (.sexpr [.symbol "filter", f, .qexpr l]) w v x := by
  have member : .function filter ∈ entries := by simp [entries]
  obtain ⟨s', provides', _⟩ := knows.provides append (by simp [entries])
  refine ends_of_completes (OrError Listed) knows filter member
    (List.forall_mem_cons.mpr ⟨function, List.forall_mem_singleton.mpr rfl⟩) fun s provides => ?_
  -- The walk needs to find what joins, to know that this ends, and what becomes of each element.
  refine (completes_walk (n + 3) Listed (j := append.closure s') lambda
    knows.equipped provides member (by decide) rfl (fun u own arguments advances serves => ?_)
    (fun u own p rs advances listed _ => ?_) l fun e inside u own rest advances serves => ?_).mono
      (by omega)
  -- The lists are joined by `append`.
  · exact .of_still fun x later => evaluates_symbol ((serves.kept later).function
      (provides'.advanced (by simp [entries]) knows.equipped (advances.trans later)) (by decide)
      (by decide))
  · obtain ⟨ps, rfl⟩ := listed
    have equipped := knows.equipped.kept advances
    -- Joining ends with a list, since `append` gives one.
    refine (Completes.of_grown equipped fun x later => ?_).imp fun v same => ⟨ps ++ rs, same⟩
    have appended : Returns ev _ own (append.closure s') [.qexpr ps, .qexpr rs] x (.qexpr (ps ++ rs)) :=
      returns_append (equipped.kept later)
        (provides'.advanced (by simp [entries]) knows.equipped (advances.trans later)) ps rs
    obtain ⟨y, grown, ends⟩ := appended x (.refl x)
    exact ⟨y, grown, Ends.mono ends (by omega)⟩
  -- The call decides whether the first element is kept.
  · have first := completes_onFirst n [] serves lambda rfl rfl (by decide)
      (fun _ _ => gives_normal (normal e inside)) (Value.isError_of_isNormal (normal e inside))
      (fun x _ => evaluatesAll_nil) (by simp) ((calls e inside own).later advances)
    exact completes_sift serves rfl (by decide) first

/-- `foldl` ends when the function completes for what fits as a result so far and each element. -/
theorem ends_foldl (knows : w.Knows scope) (lambda : f.kind = .lambda) (function : f.isNormal)
    (normal : ∀ z, good z → z.isNormal) (elements : ∀ e ∈ l, e.isNormal)
    (calls : ∀ z, good z → ∀ e ∈ l, ∀ own,
      Completes (n + 4) (fun room => call (ev room) own f [z, e]) w (OrError good)) (start : good z) :
    ∃ v x, x.asked = w.asked ∧
      Evaluates ev (n + 2 * l.length + 6) scope (.sexpr [.symbol "foldl", f, z, .qexpr l]) w v x := by
  refine ends_of_completes (OrError good) knows foldl (by simp [entries])
    (List.forall_mem_cons.mpr ⟨function, List.forall_mem_cons.mpr
      ⟨normal z start, List.forall_mem_singleton.mpr rfl⟩⟩) fun s provides => ?_
  exact completes_foldl lambda knows.equipped provides normal l elements calls start

end Whole

/-! ### A function that evaluates what it is given -/

/-- A function that evaluates its argument for `x`. -/
def evaluating (names : List String) (s : ScopeId) : Value :=
  .lambda (.qexpr (names.map .symbol)) (.qexpr [.primitive .eval, .symbol "x"]) (some s)

section Evaluating

variable {ev : Nat → Evaluator} [Stepwise ev] {good : Value → Prop}

/-- A call on normal values completes when the function does for them. -/
theorem completes_application (normal : ∀ t ∈ operator :: argument :: rest, t.isNormal)
    (applies : Completes (enough + 1) (fun room => call (ev room) scope operator (argument :: rest)) w
      good) :
    Completes (enough + 2) (fun room => ev room scope (.sexpr (operator :: argument :: rest))) w good := by
  refine completes_call (fun u _ => evaluatesAll_normal normal) ?_ applies
  exact Value.errorless_of_isNormal (Value.isError_of_isNormal (normal _ List.mem_cons_self))
    fun t member => normal t (List.mem_cons_of_mem _ member)

section Calls

variable {names : List String} (unmarked : variadicMarker ∉ names) (once : names.Nodup)
  (filled : names.length = arguments.length)
  (list : (names.zip arguments).lookup "x" = some (.qexpr items))

include unmarked once filled list

/-- The function gives what the elements of the list do, evaluated as an expression in its scope. -/
theorem applies_evaluating (ordered : w.scopes.ParentsFirst) (made : w.scopes.Made s)
    (ends : Evaluates ev (enough + 1) w.scopes.next (.sexpr items) (w.entered s (names.zip arguments)) v x) :
    Applies ev (enough + 2) scope (evaluating names s) arguments w v x := by
  have means : (w.entered s (names.zip arguments)).scopes.lookup w.scopes.next "x" = .qexpr items :=
    World.lookup_of_lookup? (by
      rw [World.lookup?_entered ordered made once filled, list, Option.some_or])
  -- The argument is found in the scope of the call, and is evaluated there.
  have body : Evaluates ev (enough + 2) w.scopes.next (.sexpr [.primitive .eval, .symbol "x"])
      (w.entered s (names.zip arguments)) v x :=
    .call (.cons (evaluates_primitive _) (.cons (evaluates_symbol means) evaluatesAll_nil)) rfl
      (applies_eval ends)
  exact applies_lambda unmarked filled body

/-- It completes when they do. -/
theorem completes_evaluating (equipped : w.Equipped) (made : w.scopes.Made s)
    (completes : ∀ own, Completes (enough + 1) (fun room => ev room own (.sexpr items)) w good) :
    Completes (enough + 2) (fun room => call (ev room) scope (evaluating names s) arguments) w good := by
  intro u advances
  have made' : u.scopes.Made s := Nat.lt_of_lt_of_le made advances.below.within
  have entering : u.Advances (u.entered s (names.zip arguments)) :=
    (equipped.kept advances).advances (.entered made' _)
  obtain ⟨v, x, there, later, asked, ends⟩ := completes u.scopes.next _ (advances.trans entering)
  exact ⟨v, x, there, entering.trans later, asked,
    applies_evaluating unmarked once filled list advances.ordered made' ends⟩

/-- It returns what they compute. -/
theorem returns_evaluating (ordered : w.scopes.ParentsFirst) (made : w.scopes.Made s)
    (computes : ∀ own, Computes ev (enough + 1) own (.sexpr items) w v) :
    Returns ev (enough + 2) scope (evaluating names s) arguments w v := by
  intro u grown
  have entering : u.Grown (u.entered s (names.zip arguments)) := .entered (grown.made made) _
  obtain ⟨x, later, ends⟩ := computes u.scopes.next _ (grown.trans entering)
  exact ⟨x, entering.trans later,
    applies_evaluating unmarked once filled list (grown.ordered ordered) (grown.made made) ends⟩

end Calls

/-- Printing a text completes. -/
theorem completes_print (text : Text.Bytes) (own : ScopeId) :
    Completes (enough + 2) (fun room => ev room own (.sexpr [.primitive .print, .string text])) w
      (· = .unit) := by
  refine completes_application (by simp [Value.primitive, Value.isNormal]) fun u advances => ?_
  have prints : Applies ev (enough + 1) own (.primitive .print) [.string text] u .unit
      { u with output := u.output ++ (Text.encode " ").intercalate [(Value.string text).display] ++
        Text.encode "\n" } := .of_eq fun _ => by
    show (Value.unit, _) = _
    rw [List.append_assoc]
    rfl
  refine ⟨.unit, _, rfl, ?_, ?_, prints⟩
  · exact ⟨(World.Grown.refl u).kept.below, fun _ _ => rfl, advances.ordered⟩
  · rfl

/-- Raising an error completes with it. -/
theorem completes_error (text : Text.Bytes) (own : ScopeId) :
    Completes (enough + 2) (fun room => ev room own (.sexpr [.primitive .error, .string text])) w
      (· = .error (.raised text)) :=
  completes_application (by simp [Value.primitive, Value.isNormal])
    (.of_still fun _ _ => .of_eq fun _ => rfl)

end Evaluating

end Run
end QLisp
