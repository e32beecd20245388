import QLisp.Proofs.Program.Furnished

/-!
Computing in a world with the library in place.

Where evaluation only makes scopes, names mean what they did, and it may be evaluated again in the world
that is left. So what an expression computes is said for every world that has grown out of one.
-/

namespace QLisp

open Library Run

/-- A function that takes each of its arguments by a name of its own. -/
def Library.Function.Plain (f : Function) : Prop :=
  variadicMarker ∉ f.formals ∧ f.formals.Nodup

instance (f : Function) : Decidable f.Plain :=
  inferInstanceAs (Decidable (_ ∧ _))

variable {w u x : World Value} {f : Function} {s own scope : ScopeId} {ev : Nat → Evaluator}
  {enough more : Nat} {name : String} {t v operator argument : Value}
  {ts vs items arguments rest : List Value}

namespace World

/-- A world with the library in place, and scopes that were made in order. -/
structure Equipped (w : World Value) : Prop where
  /-- The library is in place. -/
  furnished : w.Furnished
  /-- Parents are made before their children. -/
  ordered : w.scopes.ParentsFirst
  /-- There is a global scope. -/
  global : w.scopes.Made Scopes.global

/-- A rooted world with the library in place. -/
theorem Furnished.equipped (furnished : w.Furnished) (rooted : w.Rooted) : w.Equipped :=
  ⟨furnished, rooted.ordered, rooted.global⟩

/-- A function is still provided when only scopes have been made. -/
theorem Provides.grown (provides : w.Provides f s) (equipped : w.Equipped) (grown : w.Grown u) :
    u.Provides f s :=
  provides.kept equipped.ordered grown.kept.below (grown.kept.local? _ _ equipped.global)

/-- The names of the library are bound globally as they were. -/
def Keeps (w u : World Value) : Prop :=
  ∀ name ∈ Library.names,
    u.scopes.local? Scopes.global name = w.scopes.local? Scopes.global name

/-- So they were before. -/
theorem Keeps.symm (keeps : w.Keeps u) : u.Keeps w :=
  fun name member => (keeps name member).symm

/-- So they are after two stretches. -/
theorem Keeps.trans (first : w.Keeps u) (second : u.Keeps x) : w.Keeps x :=
  fun name member => (second name member).trans (first name member)

/-- Only the global scope has been written since, and there no name of the library. -/
structure Advances (w u : World Value) : Prop where
  /-- The scopes below the global one are as they were. -/
  below : w.scopes.ExtendsBelow u.scopes
  /-- The names of the library are bound as they were. -/
  names : w.Keeps u
  /-- Parents are still made before their children. -/
  ordered : u.scopes.ParentsFirst

/-- So it is after two stretches. -/
theorem Advances.trans (first : w.Advances u) (second : u.Advances x) : w.Advances x where
  below := first.below.trans second.below
  names := first.names.trans second.names
  ordered := second.ordered

/-- When only scopes have been made, all names are bound as they were. -/
theorem Equipped.keeps (equipped : w.Equipped) (grown : w.Grown u) : w.Keeps u :=
  fun name _ => grown.kept.local? _ name equipped.global

/-- When only scopes have been made, nothing has been written. -/
theorem Equipped.advances (equipped : w.Equipped) (grown : w.Grown u) : w.Advances u where
  below := grown.kept.below
  names := equipped.keeps grown
  ordered := grown.ordered equipped.ordered

/-- The library is still in place. -/
theorem Equipped.kept (equipped : w.Equipped) (advances : w.Advances u) : u.Equipped where
  furnished := equipped.furnished.kept equipped.ordered advances.below advances.names
  ordered := advances.ordered
  global := Nat.lt_of_lt_of_le equipped.global advances.below.within

/-- The library is still in place when only scopes have been made. -/
theorem Equipped.grown (equipped : w.Equipped) (grown : w.Grown u) : u.Equipped :=
  equipped.kept (equipped.advances grown)

/-- A function of the library is still provided. -/
theorem Provides.advanced (provides : w.Provides f s) (member : .function f ∈ entries)
    (equipped : w.Equipped) (advances : w.Advances u) : u.Provides f s :=
  provides.kept equipped.ordered advances.below (advances.names _ (name_mem_names member))

/-- In the global scope a name means what is bound there. -/
theorem Equipped.lookup?_global (equipped : w.Equipped) (name : String) :
    w.scopes.lookup? Scopes.global name = w.scopes.local? Scopes.global name := by
  have none : w.scopes.parent? Scopes.global = none :=
    Option.eq_none_iff_forall_not_mem.mpr fun p link =>
      absurd (equipped.ordered _ p link) (Nat.not_lt_zero _)
  rw [Scopes.lookup?_eq equipped.ordered, none, Option.bind_none, Option.or_none]

/-- A scope is that of a call of a function with arguments. -/
structure Serves (w : World Value) (f : Function) (arguments : List Value) (own : ScopeId) : Prop where
  /-- The library is in place. -/
  equipped : w.Equipped
  /-- The scope has been made. -/
  made : w.scopes.Made own
  /-- It is below a scope that hides no name. -/
  captured : ∃ s, w.scopes.parent? own = some s ∧ w.Clear s
  /-- It binds the formals to the arguments. -/
  bound (name : String) : w.scopes.local? own name = (f.formals.zip arguments).lookup name

/-- The scope that a call makes serves it. -/
theorem Provides.serves (provides : w.Provides f s) (equipped : w.Equipped) (plain : f.Plain)
    (filled : f.formals.length = arguments.length) :
    (w.entered s (f.formals.zip arguments)).Serves f arguments w.scopes.next where
  equipped := equipped.grown (.entered provides.made _)
  made := made_entered w s _
  captured := ⟨s, w.parent?_entered s _, provides.toClear.kept equipped.ordered
    (World.Grown.entered provides.made _).kept.below⟩
  bound := local?_entered w s plain.2 filled

/-- A scope still serves a call when the library is still in place. -/
theorem Serves.kept (serves : w.Serves f arguments own) (advances : w.Advances u) :
    u.Serves f arguments own := by
  obtain ⟨s, parent, clear⟩ := serves.captured
  have ordered := serves.equipped.ordered
  have below := advances.below
  -- The scope of the call is not the global one, so what is bound in it is as it was.
  refine ⟨serves.equipped.kept advances, Nat.lt_of_lt_of_le serves.made below.within, ⟨s, ?_, ?_⟩,
    fun name => ?_⟩
  · exact (below.parent? own serves.made).trans parent
  · exact clear.kept ordered below
  · exact (below.local? own name serves.made (ne_global ordered parent)).trans (serves.bound name)

/-- A formal means its argument, and any other name what it means globally. -/
theorem Serves.means (serves : w.Serves f arguments own) (other : name ∉ definer.formals) :
    w.scopes.lookup? own name =
      ((f.formals.zip arguments).lookup name).or (w.scopes.local? Scopes.global name) := by
  obtain ⟨s, parent, clear⟩ := serves.captured
  have ordered := serves.equipped.ordered
  rw [Scopes.lookup?_eq ordered, serves.bound, parent, Option.bind_some, Scopes.lookup?_eq ordered s,
    clear.plain name other, clear.parent, Option.none_or, Option.bind_some,
    serves.equipped.lookup?_global]

/-- A formal means its argument. -/
theorem Serves.formal (serves : w.Serves f arguments own)
    (given : (f.formals.zip arguments).lookup name = some v) (visible : name ∉ definer.formals) :
    w.scopes.lookup own name = v :=
  lookup_of_lookup? (by rw [serves.means visible, given, Option.some_or])

/-- The name of the empty list means it where it is no formal. -/
theorem Serves.nil (serves : w.Serves f arguments own) (free : "nil" ∉ f.formals) :
    w.scopes.lookup own "nil" = .qexpr [] :=
  lookup_of_lookup? (by
    rw [serves.means (by decide), lookup_zip_of_not_mem free, Option.none_or,
      serves.equipped.furnished.nil])

/-- The name of a function of the library means the function where it is no formal. -/
theorem Serves.function {g : Function} (serves : w.Serves f arguments own) (provides : w.Provides g s)
    (free : g.name ∉ f.formals) (visible : g.name ∉ definer.formals) :
    w.scopes.lookup own g.name = g.closure s :=
  lookup_of_lookup? (by
    rw [serves.means visible, lookup_zip_of_not_mem free, Option.none_or, provides.bound])

end World

namespace Run

/--
An expression computes a value: it evaluates to that with nothing but scopes made.

It does so in every world that has grown out of this one.
-/
def Computes (ev : Nat → Evaluator) (enough : Nat) (scope : ScopeId) (t : Value) (w : World Value)
    (v : Value) : Prop :=
  ∀ u, w.Grown u → ∃ u', u.Grown u' ∧ Evaluates ev enough scope t u v u'

/-- Expressions compute values one after the other. -/
def ComputesAll (ev : Nat → Evaluator) (enough : Nat) (scope : ScopeId) (ts : List Value)
    (w : World Value) (vs : List Value) : Prop :=
  ∀ u, w.Grown u → ∃ u', u.Grown u' ∧ EvaluatesAll ev enough scope ts u vs u'

/-- An operator returns a value for arguments, with nothing but scopes made. -/
def Returns (ev : Nat → Evaluator) (enough : Nat) (scope : ScopeId) (operator : Value)
    (arguments : List Value) (w : World Value) (v : Value) : Prop :=
  ∀ u, w.Grown u → ∃ u', u.Grown u' ∧ Applies ev enough scope operator arguments u v u'

/-- More room is enough too. -/
theorem Computes.mono (computes : Computes ev enough scope t w v) (roomier : enough ≤ more) :
    Computes ev more scope t w v := by
  intro u grown
  obtain ⟨u', later, evaluates⟩ := computes u grown
  exact ⟨u', later, evaluates.mono roomier⟩

/-- More room is enough too. -/
theorem Returns.mono (returns : Returns ev enough scope operator arguments w v) (roomier : enough ≤ more) :
    Returns ev more scope operator arguments w v := by
  intro u grown
  obtain ⟨u', later, applies⟩ := returns u grown
  exact ⟨u', later, applies.mono roomier⟩

/-- What evaluates to a value in every world, and leaves it as it is, computes that. -/
theorem Computes.of_still (still : ∀ u, Evaluates ev enough scope t u v u) :
    Computes ev enough scope t w v :=
  fun u _ => ⟨u, .refl u, still u⟩

/-- No expressions compute no values. -/
theorem computesAll_nil : ComputesAll ev enough scope [] w [] :=
  fun u _ => ⟨u, .refl u, evaluatesAll_nil⟩

/-- Expressions compute values one after the other. -/
theorem ComputesAll.cons (first : Computes ev enough scope t w v)
    (others : ComputesAll ev enough scope ts w vs) :
    ComputesAll ev enough scope (t :: ts) w (v :: vs) := by
  intro u grown
  obtain ⟨u₁, more, evaluates⟩ := first u grown
  obtain ⟨u', later, rest⟩ := others u₁ (grown.trans more)
  exact ⟨u', more.trans later, EvaluatesAll.cons evaluates rest⟩

/-- Expressions compute values after others. -/
theorem ComputesAll.append {ts' vs' : List Value} (first : ComputesAll ev enough scope ts w vs)
    (others : ComputesAll ev enough scope ts' w vs') :
    ComputesAll ev enough scope (ts ++ ts') w (vs ++ vs') := by
  intro u grown
  obtain ⟨u₁, more, evaluates⟩ := first u grown
  obtain ⟨u', later, rest⟩ := others u₁ (grown.trans more)
  exact ⟨u', more.trans later, EvaluatesAll.append evaluates rest⟩

/-- An operation that depends on its arguments alone returns a value. -/
theorem Returns.of_still (still : ∀ u, Applies ev enough scope operator arguments u v u) :
    Returns ev enough scope operator arguments w v :=
  fun u _ => ⟨u, .refl u, still u⟩

/-- What an operator returns it also returns when scopes have been made. -/
theorem Returns.grown (returns : Returns ev enough scope operator arguments w v) (grown : w.Grown u) :
    Returns ev enough scope operator arguments u v :=
  fun x later => returns x (grown.trans later)

/-- An operation that only looks at its arguments returns what it makes of them. -/
theorem returns_plain {p : Primitive} {g : List Value → Except Failure Value}
    (plain : p.scalar?.or p.listing? = some g) (given : g arguments = .ok v) :
    Returns ev enough scope (.primitive p) arguments w v := by
  refine .of_still fun x => ?_
  have applied : Applies ev enough scope (.primitive p) arguments x (.ofExcept (g arguments)) x :=
    applies_plain plain arguments
  rwa [given] at applied

/-- Evaluating a value takes its quotation away. -/
theorem returns_eval (computes : Computes ev enough scope t.unquote w v) :
    Returns ev enough scope (.primitive .eval) [t] w v := by
  intro u grown
  obtain ⟨u', later, evaluates⟩ := computes u grown
  exact ⟨u', later, applies_eval evaluates⟩

/-- A conditional computes the branch that is selected. -/
theorem returns_cond (chosen : Primitive.cond.branch arguments = .ok items)
    (computes : Computes ev enough scope (.sexpr items) w v) :
    Returns ev enough scope (.primitive .cond) arguments w v := by
  intro u grown
  obtain ⟨u', later, evaluates⟩ := computes u grown
  exact ⟨u', later, applies_cond chosen evaluates⟩

/-- A function of the library computes its body in a scope that serves it. -/
theorem returns_function (equipped : w.Equipped) (provides : w.Provides f s) (plain : f.Plain)
    (filled : f.formals.length = arguments.length)
    (computes : ∀ u own, w.Grown u → u.Serves f arguments own →
      Computes ev enough own (.sexpr f.body) u v) :
    Returns ev enough scope (f.closure s) arguments w v := by
  intro u grown
  have entering : u.Grown (u.entered s (f.formals.zip arguments)) :=
    .entered (provides.grown equipped grown).made _
  have serves := (provides.grown equipped grown).serves (equipped.grown grown) plain filled
  obtain ⟨u', later, evaluates⟩ := computes _ _ (grown.trans entering) serves _ (.refl _)
  exact ⟨u', entering.trans later, applies_lambda plain.1 filled evaluates⟩

section Expressions

variable [Stepwise ev]

/-- A symbol computes what its name means. -/
theorem computes_symbol (ordered : w.scopes.ParentsFirst) (made : w.scopes.Made scope)
    (found : w.scopes.lookup scope name = v) : Computes ev enough scope (.symbol name) w v := by
  intro u grown
  refine ⟨u, .refl u, evaluates_symbol ?_⟩
  rw [← found, Scopes.lookup, Scopes.lookup, grown.kept.lookup? ordered made]

/-- A quoted list computes itself. -/
theorem computes_qexpr (items : List Value) : Computes ev enough scope (.qexpr items) w (.qexpr items) :=
  .of_still fun _ => evaluates_qexpr items

/-- An operation computes itself. -/
theorem computes_primitive (p : Primitive) : Computes ev enough scope (.primitive p) w (.primitive p) :=
  .of_still fun _ => evaluates_primitive p

/-- Normal values compute themselves one after the other. -/
theorem computesAll_normal (normal : ∀ t ∈ ts, t.isNormal) :
    ComputesAll ev (enough + 1) scope ts w ts := by
  induction ts with
  | nil => exact computesAll_nil
  | cons t rest ih =>
    have others := ih fun t' member => normal t' (List.mem_cons_of_mem _ member)
    exact .cons (.of_still fun _ => evaluates_normal (normal t List.mem_cons_self)) others

/-- A list computes what its first element returns for the others. -/
theorem Computes.call (values : ComputesAll ev enough scope items w (operator :: argument :: rest))
    (fine : (operator :: argument :: rest).find? (·.isError) = none)
    (returns : Returns ev enough scope operator (argument :: rest) w v) :
    Computes ev (enough + 1) scope (.sexpr items) w v := by
  intro u grown
  obtain ⟨u₁, more, evaluates⟩ := values u grown
  obtain ⟨u', later, applies⟩ := returns u₁ (grown.trans more)
  exact ⟨u', more.trans later, .call evaluates fine applies⟩

/-- A lone expression in brackets computes what its value does. -/
theorem Computes.lone {v' : Value} (first : Computes ev enough scope t w v) (fine : v.isError = false)
    (second : Computes ev enough scope v w v') : Computes ev (enough + 1) scope (.sexpr [t]) w v' := by
  intro u grown
  obtain ⟨u₁, more, evaluates⟩ := first u grown
  obtain ⟨u', later, again⟩ := second u₁ (grown.trans more)
  exact ⟨u', more.trans later, .lone evaluates fine again⟩

/-- The tail of a list that a name means is computed. -/
theorem computes_tailOf (list : Computes ev enough scope (.symbol name) w (.qexpr (v :: items))) :
    Computes ev (enough + 1) scope (tailOf name) w (.qexpr items) :=
  .call (.cons (computes_primitive _) (.cons list computesAll_nil)) rfl
    (.of_still fun _ => applies_tail v items)

/-- The head of a list that a name means is computed. -/
theorem computes_headOf (list : Computes ev enough scope (.symbol name) w (.qexpr (v :: items))) :
    Computes ev (enough + 1) scope (.sexpr [.primitive .head, .symbol name]) w (.qexpr [v]) :=
  .call (.cons (computes_primitive _) (.cons list computesAll_nil)) rfl
    (.of_still fun _ => applies_head v items)

/-- The test whether a list is empty computes the answer. -/
theorem computes_isEmpty (list : Computes ev (enough + 1) scope (.symbol name) w (.qexpr items))
    (nil : Computes ev (enough + 1) scope (.symbol "nil") w (.qexpr [])) :
    Computes ev (enough + 2) scope (.sexpr [.primitive .equal, .symbol name, .symbol "nil"]) w
      (.bool items.isEmpty) := by
  refine .call (.cons (computes_primitive _) (.cons list (.cons nil computesAll_nil))) rfl
    (.of_still fun _ => applies_isEmpty items)

/-- The conditional on a list being empty computes the branch for what the list is. -/
theorem computes_onEmpty {empty other : List Value}
    (list : Computes ev (enough + 1) scope (.symbol name) w (.qexpr items))
    (nil : Computes ev (enough + 1) scope (.symbol "nil") w (.qexpr []))
    (branch : Computes ev (enough + 2) scope (.sexpr (if items.isEmpty then empty else other)) w v) :
    Computes ev (enough + 3) scope (.sexpr (onEmpty name empty other)) w v := by
  refine .call (.cons (computes_primitive _) (.cons (computes_isEmpty list nil)
    (.cons (computes_qexpr _) (.cons (computes_qexpr _) computesAll_nil)))) rfl (returns_cond ?_ branch)
  cases items <;> rfl

end Expressions
end Run

namespace World.Serves

variable [Stepwise ev] {g : Function}

/-- A formal computes its argument. -/
theorem computes (serves : w.Serves f arguments own)
    (given : (f.formals.zip arguments).lookup name = some v) (visible : name ∉ definer.formals) :
    Computes ev enough own (.symbol name) w v :=
  computes_symbol serves.equipped.ordered serves.made (serves.formal given visible)

/-- The name of the empty list computes it. -/
theorem computes_nil (serves : w.Serves f arguments own) (free : "nil" ∉ f.formals) :
    Computes ev enough own (.symbol "nil") w (.qexpr []) :=
  computes_symbol serves.equipped.ordered serves.made (serves.nil free)

/-- The name of a function of the library computes the function. -/
theorem computes_function (serves : w.Serves f arguments own) (provides : w.Provides g s)
    (free : g.name ∉ f.formals) (visible : g.name ∉ definer.formals) :
    Computes ev enough own (.symbol g.name) w (g.closure s) :=
  computes_symbol serves.equipped.ordered serves.made (serves.function provides free visible)

end World.Serves

/-- A scope from which the names of the library mean what they mean globally. -/
structure World.Knows (w : World Value) (scope : ScopeId) : Prop where
  /-- The library is in place. -/
  equipped : w.Equipped
  /-- The scope has been made. -/
  made : w.scopes.Made scope
  /-- The names of the library mean what the global scope binds them to. -/
  sees (name : String) : name ∈ Library.names →
    w.scopes.lookup? scope name = w.scopes.local? Scopes.global name

/-- In the global scope the names of the library mean what they mean globally. -/
theorem World.Equipped.knows (equipped : w.Equipped) : w.Knows Scopes.global :=
  ⟨equipped, equipped.global, fun name _ => equipped.lookup?_global name⟩

/-- The name of a function means the function where it is known. -/
theorem World.Knows.provides (knows : w.Knows scope) (f : Function) (member : .function f ∈ entries) :
    ∃ s, w.Provides f s ∧ w.scopes.lookup scope f.name = f.closure s := by
  obtain ⟨s, provides⟩ := knows.equipped.furnished.function f member
  exact ⟨s, provides,
    World.lookup_of_lookup? ((knows.sees _ (name_mem_names member)).trans provides.bound)⟩

/-- The name of a function computes the function where it is known. -/
theorem World.Knows.computes (knows : w.Knows scope) (f : Function) (member : .function f ∈ entries) :
    ∃ s, w.Provides f s ∧ ∀ (ev : Nat → Evaluator) [Stepwise ev] (n : Nat),
      Computes ev n scope (.symbol f.name) w (f.closure s) := by
  obtain ⟨s, provides, means⟩ := knows.provides f member
  exact ⟨s, provides, fun ev _ n => computes_symbol knows.equipped.ordered knows.made means⟩

/-- Where a function is known, a call on normal values computes what the function returns for them. -/
theorem World.Knows.call [Stepwise ev] (knows : w.Knows scope) (f : Function)
    (member : .function f ∈ entries) (normal : ∀ t ∈ argument :: rest, t.isNormal)
    (returns : ∀ s, w.Provides f s →
      Returns ev (enough + 1) scope (f.closure s) (argument :: rest) w v) :
    Computes ev (enough + 2) scope (.sexpr (.symbol f.name :: argument :: rest)) w v := by
  obtain ⟨s, provides, named⟩ := knows.computes f member
  have fine : (f.closure s :: argument :: rest).find? (·.isError) = none :=
    Value.errorless_of_isNormal rfl normal
  exact .call (.cons (named ev _) (computesAll_normal normal)) fine (returns s provides)

end QLisp
