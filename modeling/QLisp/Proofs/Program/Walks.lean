import QLisp.Proofs.Passing
import QLisp.Proofs.Program.Lists
import QLisp.Proofs.Program.Visits

/-!
The functions of the library that call a function on the elements of a list.

`map`, `filter` and `foldl` call a function from the body of another one. They are followed call by
call: whatever the function does, it leaves the scopes below the global one as they were, so that the
body goes on in them.
-/

namespace QLisp

open Library Run

variable {path : Text.Bytes} {w u u' x : World Value} {g : Function} {arguments items rest l : List Value}
  {own scope s : ScopeId} {room less n : Nat} {f e v r z t : Value} {name : String}

/-- The scope of a call leaves a world rooted when the arguments captured scopes that have been made. -/
theorem World.rooted_entered (rooted : u.Rooted) (made : u.scopes.Made s)
    {bindings : List (String × Value)} (closed : ∀ b ∈ bindings, Closed u.scopes b.2) :
    (u.entered s bindings).Rooted := by
  refine (rooted.extend made).bound (Scopes.made_extend_next ..) fun b member => (closed b member).within ?_
  exact (Scopes.Extends.extend ..).within

/-- The names of the library are bound on one side as they were when they are on the other. -/
theorem World.Abreast.keeps {c : Comparison} (abreast : w.Abreast c u u') (rooted : w.Rooted)
    (keeps : w.Keeps u') : w.Keeps u :=
  fun name member => abreast.bound rooted (keeps name member)

namespace Run

/-- What a call is known to return is what it gives, and only scopes have been made. -/
theorem Passes.returns {operator : Value} (passes : Passes path
      (Run.call (evalNoting path room) scope operator arguments) u v x)
    (returns : Returns eval n scope operator arguments u t) : v = t ∧ u.Grown x := by
  obtain ⟨u', grown, applies⟩ := returns u (.refl u)
  have same := passes.call_eq (Nat.le_max_left room n)
  obtain ⟨rfl, rfl⟩ := Prod.mk.inj (same.symm.trans (applies _ (Nat.le_max_right room n)))
  exact ⟨rfl, grown⟩

section Expressions

variable {ev : Nat → Evaluator} [Stepwise ev]

/-- The tail of a list that a name means is evaluated without a scope. -/
theorem evaluates_tailOf (list : u.scopes.lookup own name = .qexpr (e :: rest)) :
    Evaluates ev 1 own (tailOf name) u (.qexpr rest) u :=
  .call (.cons (evaluates_primitive _) (.cons (evaluates_symbol list) evaluatesAll_nil)) rfl
    (applies_tail e rest)

/-- The first element of a list gives a value in the scope in which `fst` evaluates it. -/
def Gives (ev : Nat → Evaluator) (u : World Value) (e : Value) (rest : List Value) (r : Value) : Prop :=
  ∀ s, u.Provides fst s →
    let inside := u.entered s (fst.formals.zip [.qexpr (e :: rest)])
    Evaluates ev 2 u.scopes.next (.sexpr [e]) inside r inside

/-- A normal element gives itself. -/
theorem gives_normal (normal : e.isNormal) : Gives ev u e rest e :=
  fun _ _ => .lone (evaluates_normal normal) (Value.isError_of_isNormal normal) (evaluates_normal normal)

/-- What the first element of a list gives is what `fst` gives in the scope of its call. -/
theorem evaluates_fst (provides : u.Provides fst s) (equipped : u.Equipped)
    (function : u.scopes.lookup own "fst" = fst.closure s)
    (list : u.scopes.lookup own "l" = .qexpr (e :: rest)) (gives : Gives ev u e rest r) :
    Evaluates ev 4 own (.sexpr [.symbol "fst", .symbol "l"]) u r
      (u.entered s (fst.formals.zip [.qexpr (e :: rest)])) := by
  -- The list of the element is evaluated like an expression in brackets.
  have alone := gives s provides
  have plain : fst.Plain := by decide
  -- The arguments are named, so that the scope of the call is written once.
  generalize listed : [Value.qexpr (e :: rest)] = given at alone ⊢
  have filled : fst.formals.length = given.length := by rw [← listed]; rfl
  have serves := provides.serves equipped plain filled
  have formal : (u.entered s (fst.formals.zip given)).scopes.lookup u.scopes.next "l" =
      .qexpr (e :: rest) := serves.formal (by rw [← listed]; rfl) (by decide)
  -- The head of the list is the list of the first element.
  have first : Evaluates ev 1 u.scopes.next (.sexpr [.primitive .head, .symbol "l"])
      (u.entered s (fst.formals.zip given)) (.qexpr [e]) (u.entered s (fst.formals.zip given)) :=
    .call (.cons (evaluates_primitive _) (.cons (evaluates_symbol formal) evaluatesAll_nil)) rfl
      (applies_head e rest)
  -- That list is evaluated, and so its element is.
  have body : Evaluates ev 3 u.scopes.next (.sexpr fst.body) (u.entered s (fst.formals.zip given)) r
      (u.entered s (fst.formals.zip given)) :=
    .call (.cons (evaluates_primitive _) (.cons (first.mono (by decide)) evaluatesAll_nil)) rfl
      (applies_eval alone)
  have applies : Applies ev 3 own (fst.closure s) given u r (u.entered s (fst.formals.zip given)) :=
    applies_lambda plain.1 filled body
  subst listed
  exact .call (.cons (evaluates_symbol function) (.cons (evaluates_symbol list) evaluatesAll_nil)) rfl
    applies

end Expressions

/-- The conditional on a list being empty passes on to the branch for what the list is. -/
theorem Passes.onEmpty {empty other : List Value}
    (passes : Passes path (evalNoting path room own (.sexpr (onEmpty name empty other))) u v x)
    (list : u.scopes.lookup own name = .qexpr items) (nil : u.scopes.lookup own "nil" = .qexpr []) :
    ∃ less, room = less + 1 ∧
      Passes path (evalNoting path less own (.sexpr (if items.isEmpty then empty else other))) u v x := by
  -- The test compares the list with the empty one, and gives whether it is empty.
  have test : Evaluates eval 1 own (.sexpr [.primitive .equal, .symbol name, .symbol "nil"]) u
      (.bool items.isEmpty) u := by
    refine .call (.cons (evaluates_primitive _) (.cons (evaluates_symbol list)
      (.cons (evaluates_symbol nil) evaluatesAll_nil))) rfl (applies_isEmpty items)
  obtain ⟨less, rfl, call⟩ := passes.call (.cons (evaluates_primitive _) (.cons test
    (.cons (evaluates_qexpr _) (.cons (evaluates_qexpr _) evaluatesAll_nil)))) rfl
  refine ⟨less, rfl, call.cond ?_⟩
  cases items <;> rfl

/-- A call of a function leaves a rooted world, in which only the global scope has been written. -/
theorem advances_call (lambda : f.kind = .lambda) (rooted : u.Rooted) (function : Closed u.scopes f)
    (closed : ∀ t ∈ arguments, Closed u.scopes t)
    (called : call (eval room) scope f arguments u = (v, x))
    (keeps : u.Keeps x) : x.Rooted ∧ Closed x.scopes v ∧ u.Advances x := by
  -- A call writes in no scope that was there but the outermost one.
  have frames : Frames (· = Scopes.global) u (call (eval room) scope f arguments) Closed := by
    cases f with
    | lambda formals body captured =>
      exact frames_applyLambda (framing_eval room) rooted function closed
    | bare tag => exact frames_pure rooted trivial
    | _ => simp [Value.kind] at lambda
  -- What a call leaves is rooted, and the names still mean what they did.
  have rooted' := frames.rooted
  have spares := frames.spares
  have good := frames.good
  rw [called] at rooted' spares good
  exact ⟨rooted', good, spares.below, keeps, rooted'.ordered⟩

/-- A function is called without regard to the scope that it is called from. -/
theorem call_scope (lambda : f.kind = .lambda) (ev : Evaluator) (scope scope' : ScopeId)
    (arguments : List Value) : call ev scope f arguments = call ev scope' f arguments := by
  cases f with
  | bare tag => rfl
  | lambda formals body captured => rfl
  | _ => simp [Value.kind] at lambda

/-- A function, what is handed to it and what the first element gives have no error among them. -/
theorem errorless_onFirst (lambda : f.kind = .lambda) (fine : ∀ t ∈ given, t.isError = false)
    (good : r.isError = false) : (f :: given ++ [r]).find? (·.isError) = none := by
  refine List.find?_eq_none.mpr fun t member => ?_
  rcases List.mem_append.mp member with member | member
  · rcases List.mem_cons.mp member with rfl | member
    · simp [Value.isError, lambda]
    · simp [fine t member]
  · obtain rfl := List.mem_singleton.mp member
    simp [good]

/-- A call on the first element of a list calls the function in a world with one scope more. -/
theorem Passes.onFirst {others given : List Value}
    (passes : Passes path (evalNoting path less own (Library.onFirst others)) u v x) (enough : less ≤ room)
    (serves : u.Serves g arguments own) (rooted : u.Rooted) (lambda : f.kind = .lambda)
    (function : u.scopes.lookup own "f" = f) (known : EvaluatesAll eval n own others u given u)
    (fine : ∀ t ∈ given, t.isError = false) (list : u.scopes.lookup own "l" = .qexpr (e :: rest))
    (free : "fst" ∉ g.formals) (gives : Gives eval u e rest r) (good : r.isError = false)
    (closed : ∀ t ∈ e :: rest, Closed u.scopes t) :
    ∃ u₁, u.Grown u₁ ∧ u₁.Rooted ∧ Run.call (eval room) scope f (given ++ [r]) u₁ = (v, x) := by
  obtain ⟨s, provides⟩ := serves.equipped.furnished.function fst (by simp [entries])
  have named : u.scopes.lookup own "fst" = fst.closure s := serves.function provides free (by decide)
  -- Its formal is bound to the list, which is closed.
  have inside : ∀ b ∈ fst.formals.zip [Value.qexpr (e :: rest)], Closed u.scopes b.2 := by
    intro b member
    obtain rfl := List.mem_singleton.mp member
    exact Value.obeyAll_iff.mpr closed
  -- The element is found by a call of `fst`, which makes one scope.
  refine ⟨_, .entered provides.made _, World.rooted_entered rooted provides.made inside, ?_⟩
  have first : Evaluates eval 4 own (.sexpr [.symbol "fst", .symbol "l"]) u r _ :=
    evaluates_fst provides serves.equipped named list gives
  -- The operator and what is known come before the element.
  have values : EvaluatesAll eval (max n 4) own (.symbol "f" :: others ++ [.sexpr [.symbol "fst", .symbol "l"]])
      u (f :: given ++ [r]) _ :=
    (EvaluatesAll.cons (evaluates_symbol function) (known.mono (by omega))).append
      (.cons (first.mono (by omega)) evaluatesAll_nil)
  have errorless := errorless_onFirst lambda fine good
  -- The scope in which the call is made makes no difference to a function.
  rw [call_scope lambda _ scope own]
  -- The list of what is known before it is empty or not, and the call is the same.
  cases given with
  | nil =>
    obtain ⟨less, rfl, call⟩ := passes.call values errorless
    exact call.call_eq (by omega)
  | cons z more =>
    obtain ⟨less, rfl, call⟩ := passes.call values errorless
    exact call.call_eq (by omega)

/-! ### Going through a list -/

/-- What a function that goes through a list gives: the first error, or the parts of all values. -/
def gathered (parts : Value → List Value) (vs : List Value) : Value :=
  (vs.find? (·.isError)).getD (.qexpr (vs.flatMap parts))

/-- A call of a function is about to turn to the first element of a list. -/
structure Turn (room : Nat) (scope : ScopeId) (f : Value) (g : Function) (u : World Value)
    (own : ScopeId) (e : Value) (rest : List Value) : Prop where
  /-- The scope is that of the call. -/
  serves : u.Serves g [f, .qexpr (e :: rest)] own
  /-- Every scope leads to the global one. -/
  rooted : u.Rooted
  /-- The function that is called on the elements captured a scope that there is. -/
  function : Closed u.scopes f
  /-- The element is normal. -/
  normal : e.isNormal
  /-- Functions among the elements captured scopes that there are. -/
  closed : ∀ t ∈ e :: rest, Closed u.scopes t
  /-- The call on the element redefines no name of the library. -/
  keeps (u₁ x : World Value) (r : Value) : u.Grown u₁ → call (eval room) scope f [e] u₁ = (r, x) → u.Keeps x

/-- A function goes through a list: what it makes of a result, and how it joins that to other results. -/
structure Walks (path : Text.Bytes) (w : World Value) (room : Nat) (scope : ScopeId) (f : Value)
    (name : String) (joint item : Value) (given : Value → Value → Value) (parts : Value → List Value)
    (j : Value) : Prop where
  /-- What joins the results is an operator all the time. -/
  operator (u : World Value) (own : ScopeId) (arguments : List Value) : w.Advances u →
    u.Serves (walk name joint item) arguments own → Evaluates eval 0 own joint u j u
  /-- The operator is no error. -/
  fine : j.isError = false
  /-- It puts the parts of something in front of the others. -/
  joins (u : World Value) (caller : ScopeId) (r e : Value) (rs : List Value) : w.Advances u →
    (given r e).isError = false →
    Returns eval 5 caller j [given r e, .qexpr rs] u (.qexpr (parts (given r e) ++ rs))
  /-- The expression for the first element calls the function on it, and makes something of the result. -/
  gives (u x : World Value) (own : ScopeId) (e v : Value) (rest : List Value) (less : Nat) :
    w.Advances u → Turn room scope f (walk name joint item) u own e rest → less ≤ room →
    Passes path (evalNoting path less own item) u v x →
    ∃ u₁ r, u.Grown u₁ ∧ u₁.Rooted ∧ call (eval room) scope f [e] u₁ = (r, x) ∧ v = given r e

/-- What is made of the first element is joined to what the others give. -/
theorem Passes.gathered {parts : Value → List Value} {j p : Value} {ps : List Value}
    (passes : Passes path (finish (evalNoting path room) own [j, p, Run.gathered parts ps]) u v x)
    (fine : j.isError = false)
    (joins : p.isError = false → ∀ rs, Returns eval n own j [p, .qexpr rs] u (.qexpr (parts p ++ rs))) :
    v = Run.gathered parts (p :: ps) ∧ u.Grown x := by
  -- A failure in the first value or among the others is the whole result; otherwise the lists are
  -- joined.
  by_cases bad : p.isError
  -- An error of the first value is the result.
  · obtain ⟨rfl, rfl⟩ := passes.failed (u := p) (by simp [fine, bad])
    exact ⟨by simp [Run.gathered, bad], .refl _⟩
  · cases found : ps.find? (·.isError) with
    | some failure =>
      -- An error among the others is what was gathered of them.
      have whole : Run.gathered parts ps = failure := by rw [Run.gathered, found, Option.getD_some]
      have failed : failure.isError := List.find?_some found
      rw [whole] at passes
      obtain ⟨rfl, rfl⟩ := passes.failed (u := failure) (by simp [fine, bad, failed])
      exact ⟨by simp [Run.gathered, bad, found], .refl _⟩
    | none =>
      -- Without an error the parts of all values are gathered, and joined to the first.
      have whole : Run.gathered parts ps = .qexpr (ps.flatMap parts) := by
        rw [Run.gathered, found, Option.getD_none]
      rw [whole] at passes
      have good : p.isError = false := Bool.eq_false_iff.mpr bad
      obtain ⟨rfl, grown⟩ := (passes.applied (by simp [fine, good])).returns (joins good _)
      exact ⟨by simp [Run.gathered, bad, found], grown⟩

namespace Walks

variable {joint item j : Value} {given : Value → Value → Value} {parts : Value → List Value}

/-- For no elements the empty list is returned. -/
theorem returns_nil {ev : Nat → Evaluator} [Stepwise ev] (equipped : u.Equipped)
    (provides : u.Provides (walk name joint item) s) :
    Returns ev 3 scope ((walk name joint item).closure s) [f, .qexpr []] u (.qexpr []) := by
  have shape : (walk name joint item).Plain := by simp [Function.Plain, walk, variadicMarker]
  refine returns_function equipped provides shape rfl fun u' own grown serves => ?_
  have nil {n : Nat} : Computes ev n own (.symbol "nil") u' (.qexpr []) :=
    serves.computes_nil (by simp [walk])
  refine computes_onEmpty (serves.computes rfl (by decide)) nil ?_
  exact ((nil (n := 0)).lone rfl (computes_qexpr [])).mono (by decide)

/-- For some elements a value is found for the first, then one for the others, and these are joined. -/
theorem passes_cons (equipped : u.Equipped) (provides : u.Provides (walk name joint item) s)
    (operator : ∀ u own arguments, w.Advances u → u.Serves (walk name joint item) arguments own →
      Evaluates eval 0 own joint u j u) (advances : w.Advances u)
    (passes : Passes path (call (evalNoting path room) scope ((walk name joint item).closure s)
      [f, .qexpr (e :: rest)]) u v x) :
    let own := u.scopes.next
    let inside := u.entered s ((walk name joint item).formals.zip [f, .qexpr (e :: rest)])
    inside.Serves (walk name joint item) [f, .qexpr (e :: rest)] own ∧
      ∃ less p q u₂ x₁, less < room ∧ Passes path (evalNoting path less own item) inside p u₂ ∧
        Passes path (evalNoting path less own (.sexpr [.symbol name, .symbol "f", tailOf "l"])) u₂ q x₁ ∧
        Passes path (finish (evalNoting path less) own [j, p, q]) x₁ v x := by
  intro own inside
  -- The call binds the list, and the conditional on it takes the branch for some elements.
  have shape : (walk name joint item).Plain := by simp [Function.Plain, walk, variadicMarker]
  have serves : inside.Serves (walk name joint item) [f, .qexpr (e :: rest)] own :=
    provides.serves equipped shape rfl
  have advances₁ : w.Advances inside := advances.trans (equipped.advances (.entered provides.made _))
  have body := passes.lambda shape.1 rfl
  obtain ⟨less, rfl, branch⟩ :=
    body.onEmpty (serves.formal rfl (by decide)) (serves.nil (by simp [walk]))
  obtain ⟨less, _, x₁, rfl, all₁, last⟩ := branch.list
  -- The branch is a call of its own: first the operator, then the value for the first, then the
  -- others.
  obtain ⟨_, rfl, all₂⟩ := all₁.known (operator _ _ _ advances₁ serves)
  obtain ⟨p, _, u₂, rfl, first, all₃⟩ := all₂.cons
  obtain ⟨q, _, x₂, rfl, second, none⟩ := all₃.cons
  obtain ⟨rfl, rfl⟩ := none.nil
  exact ⟨serves, less, p, q, u₂, _, by omega, first, second, last⟩

/-- The value for the others is that of another call. -/
theorem passes_rest (serves : u.Serves (walk name joint item) [f, .qexpr (e :: rest)] own)
    (provides : u.Provides (walk name joint item) s) (free : name ∉ "f" :: "l" :: definer.formals)
    (lambda : f.kind = .lambda)
    (passes : Passes path (evalNoting path room own (.sexpr [.symbol name, .symbol "f", tailOf "l"]))
      u v x) :
    ∃ less, less < room ∧ Passes path (call (evalNoting path less) own
      ((walk name joint item).closure s) [f, .qexpr rest]) u v x := by
  -- The name of the function means itself from inside its scope, since no formal has that name.
  have outside : name ∉ (walk name joint item).formals ∧ name ∉ definer.formals := by
    simpa [walk, not_or, and_assoc] using free
  have function : u.scopes.lookup own "f" = f := serves.formal rfl (by decide)
  have list : u.scopes.lookup own "l" = .qexpr (e :: rest) := serves.formal rfl (by decide)
  -- The call is made on the tail of the list.
  have values : EvaluatesAll eval 1 own [.symbol name, .symbol "f", tailOf "l"] u
      [(walk name joint item).closure s, f, .qexpr rest] u :=
    .cons (evaluates_symbol (serves.function provides outside.1 outside.2))
      (.cons (evaluates_symbol function) (.cons (evaluates_tailOf list) evaluatesAll_nil))
  have fine : f.isError = false := by simp [Value.isError, lambda]
  obtain ⟨less, rfl, call⟩ := passes.call values (by simp [fine])
  exact ⟨less, Nat.lt_succ_self _, call⟩

/-- A function that goes through a list calls another one on the elements in turn. -/
theorem visits (walks : Walks path w room scope f name joint item given parts j)
    (lambda : f.kind = .lambda) (equipped : w.Equipped) (provides : w.Provides (walk name joint item) s)
    (member : .function (walk name joint item) ∈ entries) (free : name ∉ "f" :: "l" :: definer.formals)
    (l : List Value) : ∀ {u x : World Value} {less : Nat} {caller : ScopeId} {v : Value},
      w.Advances u → u.Rooted → Closed u.scopes f → (∀ e ∈ l, e.isNormal ∧ Closed u.scopes e) →
      (∀ first rest vs x, l = first ++ rest → Visits room scope f first u vs x → u.Keeps x) →
      less ≤ room →
      Passes path (call (evalNoting path less) caller ((walk name joint item).closure s) [f, .qexpr l])
        u v x →
      ∃ rs, Visits room scope f l u rs x ∧ v = gathered parts (List.zipWith given rs l) ∧
        u.Advances x := by
  -- The induction is on the list; what the first call leaves is where the others start.
  induction l with
  | nil =>
    intro u x less caller v advances _ _ _ _ _ passes
    have equipped' := equipped.kept advances
    obtain ⟨rfl, grown⟩ := passes.returns (returns_nil equipped' (provides.advanced member equipped advances))
    exact ⟨[], .none grown, rfl, equipped'.advances grown⟩
  | cons e rest ih =>
    intro u x less caller v advances rooted function elements keeps enough passes
    -- The function is found where it was, however far the run has come.
    have here := provides.advanced member equipped advances
    have equipped' := equipped.kept advances
    obtain ⟨normal, closed⟩ := elements e List.mem_cons_self
    have all : ∀ t ∈ e :: rest, Closed u.scopes t := fun t inside => (elements t inside).2
    -- The body of the call turns to the first element, to the others, and joins both.
    obtain ⟨serves, less, p, q, u₂, x₁, fewer, first, second, last⟩ :=
      passes_cons equipped' here walks.operator advances passes
    -- The turn of the first element starts in the scope of this call.
    let inside := u.entered s ((walk name joint item).formals.zip [f, .qexpr (e :: rest)])
    have grown : u.Grown inside := .entered here.made _
    have turn : Turn room scope f (walk name joint item) inside u.scopes.next e rest := by
      refine ⟨serves, World.rooted_entered rooted here.made ?_, function.within grown.kept.within, normal,
        fun t inside => (all t inside).within grown.kept.within, fun u₁ x r more ran => ?_⟩
      · simpa [walk] using ⟨function, Value.obeyAll_iff.mpr all⟩
      · exact (equipped'.keeps grown).symm.trans
          (keeps [e] rest [r] x rfl (.next (grown.trans more) ran (.none (.refl _))))
    -- What becomes of the element tells which call of the function was made.
    obtain ⟨u₁, r, more, rooted₁, called, rfl⟩ := walks.gives _ _ _ _ _ _ _
      (advances.trans (equipped'.advances grown)) turn (by omega) first
    have later := grown.trans more
    -- The call changes no scope that was made before it, so the library stays in place.
    obtain ⟨rooted₂, closed₂, advances₂⟩ := advances_call lambda rooted₁ (function.within later.kept.within)
      (by simpa using closed.within later.kept.within) called
      ((equipped'.keeps later).symm.trans (keeps [e] rest [r] u₂ rfl (.next later called (.none (.refl _)))))
    have since := (equipped'.advances later).trans advances₂
    -- The scope of the call is as it was, so the other elements are turned to from there.
    obtain ⟨less', fewer', calls⟩ := passes_rest
      (serves.kept ((serves.equipped.advances more).trans advances₂))
      (provides.advanced member equipped (advances.trans since)) free lambda second
    -- The others are visited from the world that the first call leaves.
    obtain ⟨rs, visits, rfl, advances₃⟩ := ih (advances.trans since) rooted₂
      (function.within since.below.within) (fun t inside =>
        ⟨(elements t (List.mem_cons_of_mem _ inside)).1,
          (all t (List.mem_cons_of_mem _ inside)).within since.below.within⟩)
      (fun first others vs x split visits => since.names.symm.trans
        (keeps (e :: first) others (r :: vs) x (by rw [split]; rfl) (.next later called visits)))
      (by omega) calls
    have end₁ := advances.trans (since.trans advances₃)
    obtain ⟨rfl, grown₃⟩ := last.gathered walks.fine fun good rs => walks.joins _ _ _ _ _ end₁ good
    exact ⟨r :: rs, .next later called (visits.grown grown₃), rfl,
      since.trans (advances₃.trans ((equipped.kept end₁).advances grown₃))⟩

end Walks

/-! ### `map` and `filter` -/

/-- The call on the first element, in the body of a function that goes through a list. -/
theorem Turn.calls {joint item : Value} (turn : Turn room scope f (walk name joint item) u own e rest)
    (lambda : f.kind = .lambda) (enough : less ≤ room)
    (passes : Passes path (evalNoting path less own (Library.onFirst [])) u v x) :
    ∃ u₁, u.Grown u₁ ∧ u₁.Rooted ∧ call (eval room) scope f [e] u₁ = (v, x) := by
  have function : u.scopes.lookup own "f" = f := turn.serves.formal rfl (by decide)
  have list : u.scopes.lookup own "l" = .qexpr (e :: rest) := turn.serves.formal rfl (by decide)
  exact passes.onFirst enough turn.serves turn.rooted lambda function (n := 0) evaluatesAll_nil
    (by simp) list (by simp [walk]) (gives_normal turn.normal) (Value.isError_of_isNormal turn.normal)
    turn.closed

/-- `map` keeps every result. -/
theorem walks_map (path : Text.Bytes) (w : World Value) (room : Nat) (scope : ScopeId)
    (lambda : f.kind = .lambda) :
    Walks path w room scope f "map" (.primitive .cons) (Library.onFirst []) (fun r _ => r) (fun v => [v])
      (.primitive .cons) where
  operator _ _ _ _ _ := evaluates_primitive _
  fine := rfl
  joins _ _ _ _ _ _ _ := .of_still fun _ => .of_eq fun _ => rfl
  gives u x own e v rest less advances turn enough passes := by
    obtain ⟨u₁, grown, rooted, ran⟩ := turn.calls lambda enough passes
    exact ⟨u₁, v, grown, rooted, ran, rfl⟩

/-- What is kept of an element for which a function gives a result: the element, nothing or a failure. -/
def sift (r e : Value) : Value :=
  if r.isError then r
  else
    match Primitive.cond.condition r with
    | .ok holds => .qexpr (if holds then [e] else [])
    | .error failure => .error failure

/-- What is kept of an element is a list unless it is an error. -/
theorem sift_items (fine : (sift r e).isError = false) : sift r e = .qexpr (sift r e).items := by
  unfold sift at *
  split
  · simp_all
  · split
    · rfl
    · simp_all [Value.isError, Value.kind]

/-- The conditional on a result tells what is kept of an element. -/
theorem Passes.sift (passes : Passes path (finish (evalNoting path room) own
      [.primitive .cond, r, .qexpr [.primitive .head, .symbol "l"], .qexpr [.symbol "nil"]]) u v x)
    (list : u.scopes.lookup own "l" = .qexpr (e :: rest)) (nil : u.scopes.lookup own "nil" = .qexpr []) :
    v = Run.sift r e ∧ x = u := by
  -- An error is given back; any other result is a condition for the conditional.
  by_cases failed : r.isError
  -- Without a failure the conditional decides.
  · obtain ⟨rfl, rfl⟩ := passes.failed (u := r) (by simp [failed])
    exact ⟨by simp [Run.sift, failed], rfl⟩
  · have calls := passes.applied (by simp [failed])
    have branch := Primitive.cond.branch_qexpr r [.primitive .head, .symbol "l"] [.symbol "nil"]
    rw [Run.sift, if_neg failed]
    -- What is no condition is refused, and the others choose the first element or nothing.
    cases holds : Primitive.cond.condition r with
    | error failure =>
      rw [holds] at branch
      have ends : orFail (Primitive.cond.branch _) _ u = (v, x) := calls.ran
      rw [branch] at ends
      exact (Prod.mk.inj ends).imp Eq.symm Eq.symm
    | ok chosen =>
      rw [holds] at branch
      have inner := calls.cond branch
      cases chosen with
      | true =>
        exact inner.evaluates (.call (.cons (evaluates_primitive _) (.cons (evaluates_symbol list)
          evaluatesAll_nil)) rfl (applies_head e rest) : Evaluates eval 1 own _ u _ u)
      | false =>
        exact inner.evaluates (.lone (evaluates_symbol nil) rfl (evaluates_qexpr []) :
          Evaluates eval 1 own _ u _ u)

/-- `filter` keeps the elements for which the function holds. -/
theorem walks_filter (path : Text.Bytes) (room : Nat) (scope : ScopeId) (lambda : f.kind = .lambda)
    (equipped : w.Equipped) (provides : w.Provides append s) :
    Walks path w room scope f "filter" (.symbol "append") (.sexpr [.primitive .cond,
      Library.onFirst [], .qexpr [.primitive .head, .symbol "l"], .qexpr [.symbol "nil"]])
      Run.sift Value.items (append.closure s) where
  operator u own arguments advances serves := evaluates_symbol (serves.function
    (provides.advanced (by simp [entries]) equipped advances) (by simp [walk, append]) (by decide))
  fine := rfl
  joins u caller r e rs advances fine := by
    rw [sift_items fine]
    exact returns_append (equipped.kept advances)
      (provides.advanced (by simp [entries]) equipped advances) _ rs
  gives u x own e v rest less advances turn enough passes := by
    -- The conditional and its two branches are known, so only the call on the first element is to
    -- be looked at.
    obtain ⟨less, _, x₁, rfl, all₁, last⟩ := passes.list
    obtain ⟨_, rfl, all₂⟩ := all₁.known (n := 0) (evaluates_primitive .cond)
    obtain ⟨r, _, u₂, rfl, first, all₃⟩ := all₂.cons
    obtain ⟨_, rfl, all₄⟩ := all₃.known (n := 0) (evaluates_qexpr _)
    obtain ⟨_, rfl, all₅⟩ := all₄.known (n := 0) (evaluates_qexpr _)
    obtain ⟨rfl, rfl⟩ := all₅.nil
    obtain ⟨u₁, grown, rooted, ran⟩ := turn.calls lambda (by omega) first
    -- The function leaves the scope of the call as it was.
    have advances₂ := (advances_call lambda rooted (turn.function.within grown.kept.within)
      (by simpa using (turn.closed e List.mem_cons_self).within grown.kept.within) ran
      ((turn.serves.equipped.keeps grown).symm.trans (turn.keeps _ _ _ grown ran))).2.2
    have serves := turn.serves.kept ((turn.serves.equipped.advances grown).trans advances₂)
    obtain ⟨rfl, rfl⟩ := last.sift (serves.formal rfl (by decide)) (serves.nil (by simp [walk]))
    exact ⟨u₁, r, grown, rooted, ran, rfl⟩

/-! ### `foldl` -/

/-- For no elements the result so far is returned. -/
theorem returns_foldl_nil {ev : Nat → Evaluator} [Stepwise ev] (equipped : u.Equipped)
    (provides : u.Provides foldl s) (normal : z.isNormal) :
    Returns ev 5 scope (foldl.closure s) [f, z, .qexpr []] u z := by
  refine returns_function equipped provides (by decide) rfl fun u' own grown serves => ?_
  have result {n : Nat} : Computes ev n own (.symbol "z") u' z := serves.computes rfl (by decide)
  have itself : Computes ev 1 own z u' z := .of_still fun _ => evaluates_normal normal
  refine computes_onEmpty (serves.computes rfl (by decide)) (serves.computes_nil (by decide)) ?_
  exact (result.lone (Value.isError_of_isNormal normal) itself).mono (by decide)

/-- For some elements the function is called on the first, and unless that fails the others follow. -/
theorem passes_foldl_cons (equipped : u.Equipped) (provides : u.Provides foldl s)
    (rooted : u.Rooted) (lambda : f.kind = .lambda) (enough : less ≤ room)
    (function : Closed u.scopes f) (fine : z.isError = false) (sofar : Closed u.scopes z)
    (normal : e.isNormal) (closed : ∀ t ∈ e :: rest, Closed u.scopes t)
    (keeps : ∀ u₁ x r, u.Grown u₁ → call (eval room) scope f [z, e] u₁ = (r, x) → u.Keeps x)
    {caller : ScopeId} (passes : Passes path (call (evalNoting path less) caller (foldl.closure s)
      [f, z, .qexpr (e :: rest)]) u v x) :
    ∃ u₁ r u₂, u.Grown u₁ ∧ call (eval room) scope f [z, e] u₁ = (r, u₂) ∧ u₂.Rooted ∧
      Closed u₂.scopes r ∧ u.Advances u₂ ∧ (r.isError ∧ v = r ∧ x = u₂ ∨ r.isError = false ∧
        ∃ more own, more < less ∧ Passes path (call (evalNoting path more) own (foldl.closure s)
          [f, r, .qexpr rest]) u₂ v x) := by
  -- The scope of the call binds the function, the result so far and the list.
  let inside := u.entered s (foldl.formals.zip [f, z, .qexpr (e :: rest)])
  let own := u.scopes.next
  have grown : u.Grown inside := .entered provides.made _
  have serves : inside.Serves foldl [f, z, .qexpr (e :: rest)] own :=
    provides.serves equipped (by decide) rfl
  -- What the scope binds is closed, since the arguments are.
  have rooted' : inside.Rooted := World.rooted_entered rooted provides.made (by
    simpa [foldl] using ⟨function, sofar, Value.obeyAll_iff.mpr closed⟩)
  have first : inside.scopes.lookup own "f" = f := serves.formal rfl (by decide)
  have list : inside.scopes.lookup own "l" = .qexpr (e :: rest) := serves.formal rfl (by decide)
  have itself : inside.scopes.lookup own "foldl" = foldl.closure s :=
    serves.function (g := foldl) (provides.grown equipped grown) (by decide) (by decide)
  -- The body is a conditional, and the list has an element.
  have body := passes.lambda (show foldl.Plain by decide).1 rfl
  obtain ⟨less, rfl, branch⟩ := body.onEmpty list (serves.nil (by decide))
  obtain ⟨less, _, x₁, rfl, all₁, last⟩ := branch.list
  obtain ⟨_, rfl, all₂⟩ := all₁.known (n := 0) (evaluates_symbol itself)
  obtain ⟨_, rfl, all₃⟩ := all₂.known (n := 0) (evaluates_symbol first)
  obtain ⟨r, _, u₂, rfl, item, all₄⟩ := all₃.cons
  have known : EvaluatesAll eval 0 own [.symbol "z"] inside [z] inside :=
    .cons (evaluates_symbol (serves.formal rfl (by decide))) evaluatesAll_nil
  -- The result so far and the first element are what the function is called with.
  obtain ⟨u₁, more, rooted₁, called⟩ : ∃ u₁, inside.Grown u₁ ∧ u₁.Rooted ∧
      call (eval room) scope f [z, e] u₁ = (r, u₂) :=
    item.onFirst (by omega) serves rooted' lambda first known (by simp [fine]) list (by decide)
      (gives_normal normal) (Value.isError_of_isNormal normal) fun t here =>
        (closed t here).within grown.kept.within
  have later := grown.trans more
  have given : ∀ t ∈ [z, e], Closed u₁.scopes t := by
    simpa using ⟨sofar.within later.kept.within, (closed e List.mem_cons_self).within later.kept.within⟩
  -- The call leaves the scopes of the library as they are.
  obtain ⟨rooted₂, result, advances₂⟩ := advances_call lambda rooted₁ (function.within later.kept.within)
    given called ((equipped.keeps later).symm.trans (keeps u₁ u₂ r later called))
  -- The scope of the call is as it was, and has the other elements.
  have serves₂ := serves.kept ((serves.equipped.advances more).trans advances₂)
  obtain ⟨_, rfl, none⟩ := all₄.known (evaluates_tailOf (serves₂.formal rfl (by decide)))
  obtain ⟨rfl, rfl⟩ := none.nil
  refine ⟨u₁, r, _, later, called, rooted₂, result, (equipped.advances later).trans advances₂, ?_⟩
  -- A failure ends the walk, and any other result is handed to the call for the others.
  have operator : f.isError = false := by simp [Value.isError, lambda]
  by_cases failed : r.isError
  · obtain ⟨rfl, rfl⟩ := last.failed (u := r) (by simp [operator, failed])
    exact .inl ⟨failed, rfl, rfl⟩
  · refine .inr ⟨Bool.eq_false_iff.mpr failed, less, own, by omega, last.applied ?_⟩
    simp [operator, failed]

/-- `foldl` calls a function on the result so far and the elements in turn, until that fails. -/
theorem foldl_combines (lambda : f.kind = .lambda) (l : List Value) :
    ∀ {u x : World Value} {less : Nat} {caller : ScopeId} {z v : Value}, u.Equipped →
      u.Provides foldl s → u.Rooted → Closed u.scopes f → z.isError = false → Closed u.scopes z →
      (∀ e ∈ l, e.isNormal ∧ Closed u.scopes e) →
      (∀ first rest t x, l = first ++ rest → Combines room scope f z first u t x →
        u.Keeps x ∧ (t.isNormal ∨ t.isError)) →
      less ≤ room →
      Passes path (call (evalNoting path less) caller (foldl.closure s) [f, z, .qexpr l]) u v x →
      Combines room scope f z l u v x := by
  -- The induction is on the list; what the first call leaves is where the others start.
  induction l with
  | nil =>
    intro u x less caller z v equipped provides _ _ fine _ _ keeps _ passes
    have normal : z.isNormal := ((keeps [] [] z u rfl (.none z (.refl u))).2).resolve_right (by simp [fine])
    obtain ⟨rfl, grown⟩ := passes.returns (returns_foldl_nil equipped provides normal)
    exact .none _ grown
  | cons e rest ih =>
    intro u x less caller z v equipped provides rooted function fine sofar elements keeps enough passes
    -- What the first call writes is what the whole walk may write.
    have kept (u₁ x : World Value) (r : Value) (grown : u.Grown u₁)
        (called : call (eval room) scope f [z, e] u₁ = (r, x)) : u.Keeps x := by
      -- A failure and any other result are both among what may be written.
      by_cases failed : r.isError
      · exact (keeps [e] rest r x rfl (.stop [] grown called failed (.refl _))).1
      · exact (keeps [e] rest r x rfl
          (.next grown called (Bool.eq_false_iff.mpr failed) (.none r (.refl _)))).1
    -- The first call is made, and its outcome decides how the walk ends.
    obtain ⟨u₁, r, u₂, grown, called, rooted₂, closed, advances, ends⟩ := passes_foldl_cons equipped
      provides rooted lambda enough function fine sofar (elements e List.mem_cons_self).1
      (fun t inside => (elements t inside).2) kept passes
    rcases ends with ⟨failed, rfl, rfl⟩ | ⟨good, more, own, fewer, again⟩
    · exact .stop rest grown called failed (.refl _)
    -- Otherwise the rest of the list is folded with the result, which is the induction's.
    · refine .next grown called good (ih (equipped.kept advances)
        (provides.advanced (by simp [entries]) equipped advances) rooted₂
        (function.within advances.below.within) good closed (fun t inside => ?_)
        (fun first others t x split combines => ?_) (by omega) again)
      · have old := elements t (List.mem_cons_of_mem _ inside)
        exact ⟨old.1, old.2.within advances.below.within⟩
      -- The calls of the rest come after the first one, and together they are the calls of the list.
      · have whole := keeps (e :: first) others t x (by rw [split]; rfl) (.next grown called good combines)
        exact ⟨advances.names.symm.trans whole.1, whole.2⟩

/-- Where a function of the library is called, its call passes when the whole does. -/
theorem passes_of_knows {argument : Value} (knows : w.Knows scope) (member : .function g ∈ entries)
    (normal : ∀ t ∈ argument :: rest, t.isNormal)
    (passes : Passes path (evalNoting path room scope (.sexpr (.symbol g.name :: argument :: rest))) w v x) :
    ∃ s less, w.Provides g s ∧ room = less + 1 ∧ Passes path
      (call (evalNoting path less) scope (g.closure s) (argument :: rest)) w v x := by
  -- The function is a closure that its name means, and the arguments evaluate to themselves.
  obtain ⟨s, provides, means⟩ := knows.provides g member
  have values : EvaluatesAll eval 1 scope (.symbol g.name :: argument :: rest) w
      (g.closure s :: argument :: rest) w :=
    .cons (evaluates_symbol means) (evaluatesAll_normal normal)
  obtain ⟨less, rfl, call⟩ := passes.call values (Value.errorless_of_isNormal rfl normal)
  exact ⟨s, less, provides, rfl, call⟩

/-- A call of a function of the library that passes had room for a reduction. -/
theorem Passes.positive (plain : g.Plain) (filled : g.formals.length = arguments.length)
    (passes : Passes path (Run.call (evalNoting path room) scope (g.closure s) arguments) u v x) :
    0 < room := by
  obtain ⟨less, _, _, rfl, _⟩ := (passes.lambda plain.1 filled).list
  exact Nat.succ_pos less

/-! ### What calls give in worlds that started as one -/

/-- The first of related errors are related, and so are the lists of all results without one. -/
theorem gathered_related {rel : FailureRel} {link : ScopeRel} {vs vs' : List Value}
    (results : List.Forall₂ (Value.Related rel link) vs vs') :
    Value.Related rel link (gathered (fun v => [v]) vs) ((vs'.find? (·.isError)).getD (.qexpr vs')) := by
  have errors := findError_related (fun _ _ alike => alike.isError) results
  rw [gathered, List.flatMap_singleton']
  generalize vs.find? (·.isError) = found at errors
  generalize vs'.find? (·.isError) = found' at errors
  cases errors with
  | none => exact .listed .qexpr results
  | some failed => exact failed

/-- Results that are related to truth values and numbers are the same. -/
theorem conditions_eq {rel : FailureRel} {link : ScopeRel} {vs vs' : List Value}
    (results : List.Forall₂ (Value.Related rel link) vs vs')
    (conditions : ∀ r ∈ vs', r.kind = .bool ∨ r.kind = .number) : vs = vs' := by
  induction results with
  | nil => rfl
  | @cons v v' rest rest' head tail ih =>
    rw [ih fun r member => conditions r (List.mem_cons_of_mem _ member)]
    -- A result that is a truth value or a number is related to itself only.
    have condition := conditions v' List.mem_cons_self
    cases head with
    | number x => rfl
    | bool b => rfl
    | bare tag => rfl
    | _ => simp [Value.kind] at condition

/-- A truth value or a number is no error, and decides what a conditional does. -/
theorem condition_fine (condition : r.kind = .bool ∨ r.kind = .number) :
    r.isError = false ∧ Primitive.cond.condition r = .ok r.isTruthy := by
  rcases condition with same | same <;>
    simp [Value.isError, Primitive.condition, expectCondition, same]

/-- When all results are conditions, the elements are kept for which they hold. -/
theorem gathered_sift {rs : List Value} (conditions : ∀ r ∈ rs, r.kind = .bool ∨ r.kind = .number)
    (l : List Value) : gathered Value.items (List.zipWith sift rs l) =
      .qexpr (((l.zip rs).filter (·.2.isTruthy)).map (·.1)) := by
  -- A condition keeps its element in a list of one, or gives the empty list.
  have kept {r e : Value} (condition : r.kind = .bool ∨ r.kind = .number) :
      sift r e = .qexpr (if r.isTruthy then [e] else []) := by
    obtain ⟨fine, holds⟩ := condition_fine condition
    simp [sift, fine, holds]
  -- The induction is on the elements, which have a result each.
  have both : (List.zipWith sift rs l).find? (·.isError) = none ∧
      (List.zipWith sift rs l).flatMap Value.items =
        ((l.zip rs).filter (·.2.isTruthy)).map (·.1) := by
    induction l generalizing rs with
    | nil => simp
    | cons e rest ih =>
      cases rs with
      | nil => simp
      | cons r rs =>
        obtain ⟨none, items⟩ := ih fun r member => conditions r (List.mem_cons_of_mem _ member)
        -- The first result is a condition, so it keeps the element or not.
        rw [List.zipWith_cons_cons, kept (conditions r List.mem_cons_self)]
        refine ⟨by simp [none], ?_⟩
        rw [List.flatMap_cons, items, List.zip_cons_cons, List.filter_cons]
        cases r.isTruthy <;> simp [Value.items, Value.qexpr]
  -- No error is among the lists, so they are put together.
  rw [gathered, both.1, both.2, Option.getD_none]

end Run
end QLisp
