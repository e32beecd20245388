import QLisp.Proofs.Rooted

/-!
Giving a function its arguments in two goes.

A function that is given fewer arguments than it waits for binds these in a scope of its own, and the
others later, in a further scope below it. Given all at once, they are bound in a single scope. Nothing
is ever bound anew in the scope of the first ones, so the two scopes show what the single one does.
-/

namespace QLisp

/-- A list that gets other elements twice has those that it got last. -/
theorem Value.withItems_withItems (v : Value) (items more : List Value) :
    (v.withItems items).withItems more = v.withItems more := by
  cases v <;> rfl

/-- A list that has elements may get others. -/
theorem Value.items_withItems {v : Value} (listed : v.items ≠ []) (items : List Value) :
    (v.withItems items).items = items := by
  cases v with
  | list kind others => rfl
  | _ => exact absurd rfl listed

/-- The names of a quoted list of symbols are those of the symbols. -/
theorem Primitive.symbolNames_symbols (p : Primitive) (names : List String) :
    p.symbolNames (.qexpr (names.map .symbol)) = .ok names := by
  rw [Value.qexpr, symbolNames]
  induction names with
  | nil => rfl
  | cons name rest ih =>
    rw [List.map_cons, List.mapM_cons, ih]
    rfl

/-- The world in which a new scope has been made, with names bound in it. -/
def World.entered (w : World Value) (s : ScopeId) (bindings : List (String × Value)) : World Value :=
  { w with scopes := (w.scopes.extend (some s)).bindAll w.scopes.next bindings }

variable {w : World Value} {s : ScopeId} {bindings : List (String × Value)}

namespace World

/-- The scopes that there were are as they were. -/
theorem extends_entered (w : World Value) (s : ScopeId) (bindings : List (String × Value)) :
    w.scopes.Extends (w.entered s bindings).scopes :=
  (Scopes.Extends.extend w.scopes (some s)).bindAll (Scopes.not_made_next _) bindings

/-- There is one scope more. -/
theorem size_entered (w : World Value) (s : ScopeId) (bindings : List (String × Value)) :
    (w.entered s bindings).scopes.made.size = w.scopes.made.size + 1 :=
  (Scopes.size_bindAll ..).trans (Scopes.size_extend ..)

/-- The new scope is below the one that it was made for. -/
theorem parent?_entered (w : World Value) (s : ScopeId) (bindings : List (String × Value)) :
    (w.entered s bindings).scopes.parent? w.scopes.next = some s :=
  (Scopes.parent?_bindAll ..).trans ((Scopes.parent?_extend ..).trans (if_pos rfl))

/-- Parents are still made before their children. -/
theorem ordered_entered (ordered : w.scopes.ParentsFirst) (made : w.scopes.Made s)
    (bindings : List (String × Value)) : (w.entered s bindings).scopes.ParentsFirst := by
  intro id parent link
  rw [entered, Scopes.parent?_bindAll] at link
  exact ordered.extend made id parent link

/-- Functions bound in the new scope captured scopes that there were, like those that were bound. -/
theorem Rooted.entered (rooted : w.Rooted)
    (old : ∀ b ∈ bindings, b.2.Obeys (.closes w.scopes.Made)) (t : ScopeId) (name : String)
    (v : Value) (found : (w.entered s bindings).scopes.local? t name = some v) :
    v.Obeys (.closes w.scopes.Made) := by
  refine Scopes.forall_bindAll (fun id key v found => ?_) w.scopes.next old t name v found
  rw [Scopes.local?_extend] at found
  exact rooted.captured id key v found

end World

/--
A world in which a function has been given some of its arguments, compared with the one before.

The scope of these arguments corresponds to nothing there.
-/
def Comparison.curried (w : World Value) (s : ScopeId) (bindings : List (String × Value))
    (global : w.scopes.Made Scopes.global) : Comparison :=
  .since w (w.entered s bindings) w global (w.extends_entered s bindings).within (Nat.le_refl _)

namespace World.Rooted

/-- Scopes that there were correspond to themselves. -/
theorem itself (rooted : w.Rooted) {t : ScopeId} (made : w.scopes.Made t) :
    (Comparison.curried w s bindings rooted.global).scopes t t :=
  .inl ⟨rfl, made⟩

/-- The scope of the first arguments corresponds to nothing. -/
theorem hidden (rooted : w.Rooted) (t : ScopeId) :
    ¬ (Comparison.curried w s bindings rooted.global).scopes w.scopes.next t := by
  rintro (⟨_, made⟩ | ⟨count, same, _⟩)
  · exact Scopes.not_made_next w.scopes made
  · rw [size_entered, Scopes.next, ScopeId.mk.injEq] at same
    omega

/-- A further scope shows, with that of the first arguments, what the latter does on its own. -/
theorem stacked_entered (rooted : w.Rooted) (made : w.scopes.Made s)
    (old : ∀ b ∈ bindings, b.2.Obeys (.closes w.scopes.Made)) {u : World Value}
    (entered : u = w.entered s bindings) :
    (Comparison.curried w s bindings rooted.global).Stacked (u.entered w.scopes.next []).scopes
      u.scopes u.scopes.next w.scopes.next [w.scopes.next] (some s) := by
  -- The scope of the first arguments is below the captured one, and the further scope is below it.
  have there : u.scopes.Made w.scopes.next := by
    simp [entered, Scopes.Made, size_entered, Scopes.next]
  have kept := u.extends_entered w.scopes.next []
  have parent : u.scopes.parent? w.scopes.next = some s := entered ▸ w.parent?_entered s bindings
  refine ⟨⟨u.parent?_entered _ _, (kept.parent? _ there).trans parent⟩, ?_, by simp, ?_, fun name => ?_⟩
  -- The captured scope is above both, and corresponds to itself.
  · rw [parent]
    exact .some (rooted.itself made)
  · intro b member t
    rw [List.mem_singleton.mp member]
    exact rooted.hidden t
  · -- The further scope binds nothing yet, so the names are those of the first arguments.
    have empty : (u.entered w.scopes.next []).scopes.local? u.scopes.next name = none :=
      (Scopes.local?_extend ..).trans (Scopes.local?_of_not_made (Scopes.not_made_next _) name)
    rw [List.findSome?_cons, empty, List.findSome?_cons, List.findSome?_nil, kept.local? _ name there]
    -- What is above was there before the call, so none of it is hidden.
    -- A value that is bound there was handed over, so it holds only functions that are older.
    cases found : u.scopes.local? w.scopes.next name with
    | none => exact .none
    | some v =>
      have captured := rooted.entered old _ name v (entered ▸ found)
      have within : w.scopes.Within u.scopes := entered ▸ (w.extends_entered s bindings).within
      exact .some (values (fun _ => rooted.itself) (within.trans kept.within) captured fun _ _ => rfl)

/--
In a further scope below that of the first arguments a call sees what it sees in the latter.

On one side the arguments have been bound before, and on the other they are bound now.
-/
theorem curried (rooted : w.Rooted) (made : w.scopes.Made s)
    (old : ∀ b ∈ bindings, b.2.Obeys (.closes w.scopes.Made)) :
    World.Related (.curried w s bindings rooted.global)
      ((w.entered s bindings).entered w.scopes.next []) (w.entered s bindings) := by
  -- The scope of the first arguments has been made on both sides, but on one there is a further
  -- scope.
  have kept := w.extends_entered s bindings
  have ordered : (w.entered s bindings).scopes.ParentsFirst :=
    ordered_entered rooted.ordered made bindings
  have there : (w.entered s bindings).scopes.Made w.scopes.next := by
    simp [Scopes.Made, size_entered, Scopes.next]
  have start : World.Related (.curried w s bindings rooted.global) (w.entered s bindings) w :=
    rooted.since ordered rooted.ordered kept (.refl _) rfl rfl
  exact start.grow (extends_entered _ w.scopes.next []) kept (ordered_entered ordered there [])
    ordered (size_entered ..) (size_entered ..) ⟨_, _, rooted.stacked_entered made old rfl⟩

end World.Rooted

namespace Run

variable {ev : Evaluator} {formals body : Value} {first second waiting : List Value}

/-- A function that is given fewer arguments than it waits for remembers them in a scope. -/
theorem applyLambda_short (found : matchFormals formals.items first = .short bindings waiting) :
    applyLambda ev formals body (some s) first w =
      (.lambda (formals.withItems waiting) body (some w.scopes.next), w.entered s bindings) := by
  rw [applyLambda_eq, found]
  rfl

/-- What is left to do in the scope of a call does not depend on which arguments are bound there. -/
theorem proceed_prepend (surplus : Failure) (matched : Matched Value) (own : ScopeId) :
    proceed ev formals body surplus (matched.prepend bindings) own =
      proceed ev formals body surplus matched own := by
  induction bindings with
  | nil => rfl
  | cons b rest ih =>
    rw [← ih]
    show proceed ev formals body surplus ((matched.prepend rest).cons b) own = _
    cases matched.prepend rest <;> rfl

/-- Nor does it depend on which formals were waiting at first. -/
theorem proceed_withItems (surplus : Failure) (matched : Matched Value) (own : ScopeId) :
    proceed ev (formals.withItems waiting) body surplus matched own =
      proceed ev formals body surplus matched own := by
  cases matched with
  | short bound others => rw [proceed, proceed, Value.withItems_withItems]
  | _ => rfl

/-- Entering a scope makes it the next one, with names bound in it. -/
theorem enter_run (w : World Value) (s : ScopeId) (bindings : List (String × Value)) :
    enter (some s) bindings w = (w.scopes.next, w.entered s bindings) := rfl

/-- Names may be bound in a new scope after others. -/
theorem enter_append (w : World Value) (s : ScopeId) (bindings others : List (String × Value)) :
    enter (some s) (bindings ++ others) w = (w.scopes.next, { w.entered s bindings with
      scopes := (w.entered s bindings).scopes.bindAll w.scopes.next others }) := by
  rw [enter_run, World.entered, Scopes.bindAll_append]
  rfl

/-- The scope of the last arguments, below that of the first, corresponds to one scope for all. -/
theorem resembles_enter_further (rooted : w.Rooted) (made : w.scopes.Made s)
    (old : ∀ b ∈ bindings, b.2.Obeys (.closes w.scopes.Made)) {others : List (String × Value)}
    (old' : ∀ b ∈ others, b.2.Obeys (.closes w.scopes.Made)) :
    Resembles (.curried w s bindings rooted.global) (w.entered s bindings) w
      (enter (some w.scopes.next) others) (enter (some s) (bindings ++ others))
      (Comparison.curried w s bindings rooted.global).link := by
  let u := (w.entered s bindings).entered w.scopes.next []
  have kept := w.extends_entered s bindings
  have further := (w.entered s bindings).extends_entered w.scopes.next []
  have linked : (Comparison.curried w s bindings rooted.global).link u.scopes
      (w.entered s bindings).scopes.next w.scopes.next := by
    refine ⟨.inr ⟨0, rfl, rfl⟩, ?_⟩
    simp [u, Scopes.Made, World.size_entered, Scopes.next]
  -- The other arguments are older than either scope.
  have values : List.Forall₂ ((Comparison.curried w s bindings rooted.global).bindings u.scopes)
      others others := List.forall₂_same.mpr fun b member => ⟨rfl, World.Rooted.values
    (fun _ => rooted.itself) (kept.within.trans further.within) (old' b member) fun _ _ => rfl⟩
  have related := (rooted.curried made old).bindAll linked values
  constructor
  -- Binding the names of both goes at once what is the same as binding them in turn.
  · rw [enter_append]
    exact related
  · exact ((w.entered s bindings).extends_entered w.scopes.next others).within
  · refine ⟨linked.1, ?_⟩
    simp [enter_run, Scopes.Made, World.size_entered, Scopes.next]

/--
A function that is given its arguments in two goes does what it does with all of them.

Only a failure with too many arguments tells how many there were in the second go.
-/
theorem resembles_curried (rooted : w.Rooted) (made : w.scopes.Made s)
    (function : Value.Obeys (.closes w.scopes.Made) (.lambda formals body (some s)))
    (old : ∀ v ∈ first ++ second, v.Obeys (.closes w.scopes.Made))
    (found : matchFormals formals.items first = .short bindings waiting)
    (blind : Blind (.curried w s bindings rooted.global) ev ev) :
    Resembles (.curried w s bindings rooted.global) (w.entered s bindings) w
      (applyLambda ev (formals.withItems waiting) body (some w.scopes.next) second)
      (applyLambda ev formals body (some s) (first ++ second))
      (ReturnsRelated (.curried w s bindings rooted.global)
        (.wrongCount "lambda" waiting.length second.length)
        (.wrongCount "lambda" formals.items.length (first ++ second).length)) := by
  obtain ⟨_, formal, bodied⟩ := function
  -- All arguments are from before the first call, whether they are bound yet or not.
  have bound : ∀ b ∈ bindings, b.2.Obeys (.closes w.scopes.Made) := by
    intro b member
    have inside : b ∈ (matchFormals formals.items first).bound := by rwa [found]
    exact old b.2 (List.mem_append_left _ (mem_of_mem_bound inside))
  have others : ∀ b ∈ (matchFormals waiting second).bound, b.2.Obeys (.closes w.scopes.Made) :=
    fun b member => old b.2 (List.mem_append_right _ (mem_of_mem_bound member))
  -- The formals are a list, for otherwise none would be left to wait.
  have listed : formals.items ≠ [] := by
    intro none
    rw [none] at found
    cases first <;> cases found
  rw [applyLambda_eq, applyLambda_eq, matchFormals_append found, Value.items_withItems listed,
    Matched.bound_prepend]
  refine (resembles_enter_further rooted made bound others).bind
    fun own own' u u' related within linked => ?_
  rw [proceed_prepend, proceed_withItems]
  -- What there was is related to itself.
  have since : w.scopes.Within u.scopes := (w.extends_entered s bindings).within.trans within
  have itself : ∀ v : Value, v.Obeys (.closes w.scopes.Made) →
      (Comparison.curried w s bindings rooted.global).values u.scopes v v := fun v captured =>
    World.Rooted.values (fun _ => rooted.itself) since captured fun _ _ => rfl
  have given := List.forall₂_same.mpr fun v member => itself v (old v (List.mem_append_right _ member))
  refine resembles_proceed blind related linked (itself formals formal) (itself body bodied) _ _ ?_
  -- The formals that wait are among those of the function, so they are related to themselves.
  have remaining := formal.withItems (waiting_suffix found).subset
  have named := (itself _ remaining).items
  rw [Value.items_withItems listed] at named
  exact matchFormals_related named given

end Run
end QLisp
