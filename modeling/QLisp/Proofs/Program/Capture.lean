import QLisp.Proofs.Program.Lists
import QLisp.Proofs.Program.Walks

/-!
Names in lists that the library evaluates.

Some functions of the library evaluate an element of a list, and do so where their own formals are bound.
So a name in the list that is also the name of a formal means the argument for that, whatever the caller
has bound it to. Only the function that evaluates the element matters: that is `fst` for `nth`, `last` and
`map`.
-/

namespace QLisp

open Library Run

/-- What a name that means a value means in the body of a function that has been given arguments. -/
def Library.Function.sees (f : Function) (arguments : List Value) (name : String) (v : Value) : Value :=
  ((f.formals.zip arguments).lookup name).getD v

variable {ev : Nat → Evaluator} [Stepwise ev] {w : World Value} {scope own s : ScopeId} {f : Function}
  {v r : Value} {arguments rest : List Value} {name : String} {n : Nat}

/-- A global name that the library may see: a normal value is bound to it, and `fun` has no such formal. -/
structure World.Offers (w : World Value) (name : String) (v : Value) : Prop where
  /-- The global scope binds it. -/
  bound : w.scopes.local? Scopes.global name = some v
  /-- The value stands for itself. -/
  normal : v.isNormal
  /-- No formal of `fun` hides it. -/
  visible : name ∉ definer.formals

namespace World.Offers

/-- It is still there when only scopes have been made. -/
theorem grown {u : World Value} (offers : w.Offers name v) (equipped : w.Equipped) (grown : w.Grown u) :
    u.Offers name v :=
  { offers with bound := (grown.kept.local? _ _ equipped.global).trans offers.bound }

/-- In the body of a function of the library it is found as what the function sees. -/
theorem found (offers : w.Offers name v) (serves : w.Serves f arguments own) :
    w.scopes.lookup own name = f.sees arguments name v := by
  refine lookup_of_lookup? ?_
  rw [serves.means offers.visible, offers.bound, Function.sees]
  cases (f.formals.zip arguments).lookup name <;> rfl

/-- So that is what it computes there. -/
theorem computes (offers : w.Offers name v) (serves : w.Serves f arguments own) :
    Computes ev n own (.symbol name) w (f.sees arguments name v) :=
  computes_symbol serves.equipped.ordered serves.made (offers.found serves)

/-- What a function sees is normal when its arguments are. -/
theorem sees_normal (offers : w.Offers name v) (normal : ∀ t ∈ arguments, t.isNormal) :
    (f.sees arguments name v).isNormal := by
  rw [Function.sees]
  cases found : (f.formals.zip arguments).lookup name with
  | none => exact offers.normal
  | some t =>
    obtain ⟨before, after, pairs, _⟩ := List.lookup_eq_some_iff.mp found
    have pair : (name, t) ∈ f.formals.zip arguments := by simp [pairs]
    exact normal t (List.of_mem_zip pair).2

/-- A list with nothing but the name, when it is evaluated, gives what the function sees. -/
theorem lone (offers : w.Offers name v) (serves : w.Serves f arguments own)
    (normal : ∀ t ∈ arguments, t.isNormal) :
    Computes ev 2 own (.sexpr [.symbol name]) w (f.sees arguments name v) := by
  have good : (f.sees arguments name v).isNormal := offers.sees_normal normal
  exact (offers.computes (n := 1) serves).lone (Value.isError_of_isNormal good)
    (.of_still fun _ => evaluates_normal good)

/-- As the first element of a list, the name gives what `fst` sees. -/
theorem gives (offers : w.Offers name v) (equipped : w.Equipped) (rest : List Value) :
    Gives ev w (.symbol name) rest (fst.sees [.qexpr (.symbol name :: rest)] name v) := by
  intro s provides inside
  have grown : w.Grown inside := .entered provides.made _
  have serves : inside.Serves fst [.qexpr (.symbol name :: rest)] w.scopes.next :=
    provides.serves equipped (by decide) rfl
  have good : (fst.sees [.qexpr (.symbol name :: rest)] name v).isNormal :=
    offers.sees_normal (List.forall_mem_singleton.mpr rfl)
  exact .lone (evaluates_symbol ((offers.grown equipped grown).found serves))
    (Value.isError_of_isNormal good) (evaluates_normal good)

end World.Offers

/-! ### Functions that evaluate an element -/

/-- A function that evaluates a part of its list, which is the name alone, gives what it sees. -/
theorem returns_part {part : Value} {items : List Value} (equipped : w.Equipped)
    (provides : w.Provides f s) (offers : w.Offers name v) (single : f.formals = ["l"])
    (body : f.body = [.primitive .eval, part])
    (picks : ∀ u own, u.Serves f [.qexpr items] own →
      Computes ev 3 own part u (.qexpr [.symbol name])) :
    Returns ev 4 scope (f.closure s) [.qexpr items] w (f.sees [.qexpr items] name v) := by
  have plain : f.Plain := by rw [Function.Plain, single]; decide
  refine returns_function equipped provides plain (by rw [single]; rfl) fun u own grown serves => ?_
  have inside : Computes ev 2 own (.sexpr [.symbol name]) u (f.sees [.qexpr items] name v) :=
    (offers.grown equipped grown).lone serves (List.forall_mem_singleton.mpr rfl)
  rw [body]
  exact .call (.cons (computes_primitive _) (.cons (picks u own serves) computesAll_nil)) rfl
    (returns_eval (inside.mono (by decide)))

/-- `fst` gives what it sees for the first element. -/
theorem returns_fst (equipped : w.Equipped) (provides : w.Provides fst s) (offers : w.Offers name v)
    (rest : List Value) :
    let items := .symbol name :: rest
    Returns ev 4 scope (fst.closure s) [.qexpr items] w (fst.sees [.qexpr items] name v) :=
  returns_part equipped provides offers rfl rfl fun _ _ serves =>
    computes_headOf (serves.computes rfl (by decide))

/-- `snd` gives what it sees for the second element. -/
theorem returns_snd (equipped : w.Equipped) (provides : w.Provides snd s) (offers : w.Offers name v)
    (first : Value) (rest : List Value) :
    let items := first :: .symbol name :: rest
    Returns ev 4 scope (snd.closure s) [.qexpr items] w (snd.sees [.qexpr items] name v) :=
  returns_part equipped provides offers rfl rfl fun _ _ serves =>
    .call (.cons (computes_primitive _) (.cons (computes_tailOf (serves.computes rfl (by decide)))
      computesAll_nil)) rfl (.of_still fun _ => applies_head _ _)

/-- `trd` gives what it sees for the third element. -/
theorem returns_trd (equipped : w.Equipped) (provides : w.Provides trd s) (offers : w.Offers name v)
    (first second : Value) (rest : List Value) :
    let items := first :: second :: .symbol name :: rest
    Returns ev 4 scope (trd.closure s) [.qexpr items] w (trd.sees [.qexpr items] name v) :=
  returns_part equipped provides offers rfl rfl fun _ own serves => by
    have others : Computes ev 2 own (.sexpr [.primitive .tail, tailOf "l"]) _
        (.qexpr (.symbol name :: rest)) :=
      .call (.cons (computes_primitive _) (.cons (computes_tailOf (serves.computes rfl (by decide)))
        computesAll_nil)) rfl (.of_still fun _ => applies_tail _ _)
    exact .call (.cons (computes_primitive _) (.cons others computesAll_nil)) rfl
      (.of_still fun _ => applies_head _ _)

/-- `nth` gives what `fst` sees when it counts no elements. -/
theorem returns_nth {caller : ScopeId} (equipped : w.Equipped) (provides : w.Provides nth s)
    (firsts : w.Provides fst caller) (offers : w.Offers name v) (rest : List Value) :
    let items := .symbol name :: rest
    Returns ev 6 scope (nth.closure s) [.number (.ofInt 0), .qexpr items] w
      (fst.sees [.qexpr items] name v) := by
  intro items
  refine returns_function equipped provides (by decide) rfl fun u own grown serves => ?_
  -- The library is there in the scope of the call as well.
  have there := firsts.grown equipped grown
  -- The count is zero, so the first element is asked for.
  have test : Computes ev 5 own (.sexpr [.primitive .equal, .symbol "n", .number (.ofInt 0)]) u
      (.bool true) := by
    refine .call (.cons (computes_primitive _) (.cons (serves.computes rfl (by decide))
      (.cons (.of_still fun _ => evaluates_number _) computesAll_nil))) rfl (.of_still fun _ => ?_)
    have same : (Value.number (.ofInt 0)).same (.number (.ofInt 0)) = true := by decide +kernel
    rw [← same]
    exact applies_equal _ _
  -- That is done by `fst`, in which the name may mean a formal.
  have first : Computes ev 5 own (.sexpr [.symbol "fst", .symbol "l"]) u
      (fst.sees [.qexpr items] name v) :=
    .call (.cons (serves.computes_function there (by decide) (by decide))
      (.cons (serves.computes rfl (by decide)) computesAll_nil)) rfl
      (returns_fst serves.equipped there (offers.grown equipped grown) rest)
  -- So the branch of `nth` is the one that calls `fst`.
  exact .call (.cons (computes_primitive _) (.cons test (.cons (computes_qexpr _)
    (.cons (computes_qexpr _) computesAll_nil)))) rfl (returns_cond rfl first)

/-- `last` gives what `fst` sees for a lone element. -/
theorem returns_last {caller getter counter : ScopeId} (equipped : w.Equipped)
    (provides : w.Provides last s) (firsts : w.Provides fst caller) (gets : w.Provides nth getter)
    (counts : w.Provides len counter) (offers : w.Offers name v) :
    Returns ev 9 scope (last.closure s) [.qexpr [.symbol name]] w
      (fst.sees [.qexpr [.symbol name]] name v) := by
  refine returns_function equipped provides (by decide) rfl fun u own grown serves => ?_
  have list {n : Nat} : Computes ev n own (.symbol "l") u (.qexpr [.symbol name]) :=
    serves.computes rfl (by decide)
  -- One element is counted, so none comes before the last one.
  have counted : Computes ev 7 own (.sexpr [.symbol "len", .symbol "l"]) u (.number (.ofInt 1)) :=
    .call (.cons (serves.computes_function (counts.grown equipped grown) (by decide) (by decide))
      (.cons list computesAll_nil)) rfl
      (returns_len [.symbol name] serves.equipped (counts.grown equipped grown) (by simp))
  have less : Computes ev 8 own (lessOne (.sexpr [.symbol "len", .symbol "l"])) u
      (.number (.ofInt 0)) := by
    refine .call (.cons (computes_primitive _) (.cons counted
      (.cons (.of_still fun _ => evaluates_number _) computesAll_nil))) rfl (.of_still fun _ => ?_)
    rw [← show (Number.ofInt 1).sub (.ofInt 1) = .ofInt 0 from @Number.sub_one 0 (by decide)]
    exact .of_eq fun _ => rfl
  -- The element that is asked for is the first one, and `nth` finds it.
  exact .call (.cons (serves.computes_function (gets.grown equipped grown) (by decide) (by decide))
    (.cons less (.cons list computesAll_nil))) rfl
    ((returns_nth serves.equipped (gets.grown equipped grown) (firsts.grown equipped grown)
      (offers.grown equipped grown) []).mono (by decide))

/-- `unpack` gives `list` what it sees for the only element. -/
theorem returns_unpack (equipped : w.Equipped) (provides : w.Provides unpack s)
    (offers : w.Offers name v) :
    let given := [.primitive .list, .qexpr [.symbol name]]
    Returns ev 5 scope (unpack.closure s) given w (.qexpr [unpack.sees given name v]) := by
  intro given
  refine returns_function equipped provides (by decide) rfl fun u own grown serves => ?_
  have offered := offers.grown equipped grown
  -- The value is no error, whether the name means a formal or what was given.
  have good : (unpack.sees given name v).isNormal :=
    offered.sees_normal (by simp [given, Value.primitive, Value.isNormal, Value.qexpr])
  -- The function is put in front of the list, which is then evaluated where the formals are bound.
  have call : Computes ev 4 own (.sexpr [.primitive .cons, .symbol "f", .symbol "l"]) u
      (.qexpr [.primitive .list, .symbol name]) :=
    .call (.cons (computes_primitive _) (.cons (serves.computes rfl (by decide))
      (.cons (serves.computes rfl (by decide)) computesAll_nil))) rfl
      (.of_still fun _ => .of_eq fun _ => rfl)
  -- The symbol is evaluated again, and this is where it is captured.
  have listed : Computes ev 4 own (.sexpr [.primitive .list, .symbol name]) u
      (.qexpr [unpack.sees given name v]) :=
    .call (.cons (computes_primitive _) (.cons (offered.computes serves) computesAll_nil))
      (by simp [Value.isError_of_isNormal good]) (.of_still fun _ => .of_eq fun _ => rfl)
  -- The call that has been made is evaluated, which gives the list of the value.
  exact .call (.cons (computes_primitive _) (.cons call computesAll_nil)) rfl (returns_eval listed)

/-- `map` gives what an operator returns for what `fst` sees for the only element. -/
theorem returns_map {caller : ScopeId} {operator : Value} (equipped : w.Equipped)
    (provides : w.Provides map s) (firsts : w.Provides fst caller) (offers : w.Offers name v)
    (applicable : operator.isError = false)
    (returns : ∀ own, Returns ev 5 own operator [fst.sees [.qexpr [.symbol name]] name v] w r)
    (fine : r.isError = false) :
    Returns ev 8 scope (map.closure s) [operator, .qexpr [.symbol name]] w (.qexpr [r]) := by
  refine returns_function equipped provides (by decide) rfl fun u own grown serves => ?_
  -- The library is in place in the scope of the call, too.
  have there := firsts.grown equipped grown
  have again := provides.grown equipped grown
  have offered := offers.grown equipped grown
  -- The list and the function are formals, which mean the arguments.
  have list {n : Nat} : Computes ev n own (.symbol "l") u (.qexpr [.symbol name]) :=
    serves.computes rfl (by decide)
  have operation {n : Nat} : Computes ev n own (.symbol "f") u operator :=
    serves.computes rfl (by decide)
  -- What `fst` gives is no error, so it may be an argument.
  have seen : (fst.sees [.qexpr [.symbol name]] name v).isNormal :=
    offered.sees_normal (List.forall_mem_singleton.mpr rfl)
  have first : Computes ev 5 own (.sexpr [.symbol "fst", .symbol "l"]) u
      (fst.sees [.qexpr [.symbol name]] name v) :=
    .call (.cons (serves.computes_function there (by decide) (by decide))
      (.cons list computesAll_nil)) rfl (returns_fst serves.equipped there offered [])
  -- The operator is applied to what `fst` gives, and to nothing else.
  have result : Computes ev 6 own (onFirst []) u r :=
    .call (.cons operation (.cons first computesAll_nil))
      (by simp [applicable, Value.isError_of_isNormal seen]) ((returns own).grown grown)
  -- No element is left after the first one.
  have others : Computes ev 6 own (.sexpr [.symbol "map", .symbol "f", tailOf "l"]) u (.qexpr []) :=
    .call (.cons (serves.computes_function again (by decide) (by decide))
      (.cons operation (.cons (computes_tailOf list) computesAll_nil))) (by simp [applicable])
      ((Walks.returns_nil serves.equipped again).mono (by decide))
  -- The list has an element, so the other branch is taken.
  refine computes_onEmpty list (serves.computes_nil (by decide)) ?_
  exact .call (.cons (computes_primitive _) (.cons result (.cons others computesAll_nil)))
    (by simp [fine]) (.of_still fun _ => .of_eq fun _ => rfl)

/-- `map` calls a function on what `fst` sees for the only element, and on nothing else. -/
theorem visits_map {path : Text.Bytes} {operator t : Value} {x : World Value} {room less : Nat}
    {caller : ScopeId} (lambda : operator.kind = .lambda) (equipped : w.Equipped)
    (provides : w.Provides map s) (offers : w.Offers name v) (rooted : w.Rooted)
    (function : Closed w.scopes operator)
    (closed : Closed w.scopes (fst.sees [.qexpr [.symbol name]] name v)) (enough : less ≤ room)
    (keeps : ∀ r u, Visits room scope operator [fst.sees [.qexpr [.symbol name]] name v] w [r] u → w.Keeps u)
    (passes : Passes path (call (evalNoting path less) caller (map.closure s)
      [operator, .qexpr [.symbol name]]) w t x) :
    ∃ r, Visits room scope operator [fst.sees [.qexpr [.symbol name]] name v] w [r] x ∧
      t = gathered (fun v => [v]) [r] := by
  -- The walk is that over one element: a result, and the walk over what is left.
  obtain ⟨serves, less, r, q, u₂, x₁, fewer, first, second, last⟩ := Walks.passes_cons equipped provides
    (fun _ _ _ _ _ => evaluates_primitive .cons) (equipped.advances (.refl w)) passes
  let inside := w.entered s (map.formals.zip [operator, .qexpr [.symbol name]])
  have grown : w.Grown inside := .entered provides.made _
  have rooted' : inside.Rooted := World.rooted_entered rooted provides.made (by
    simpa [map, walk] using ⟨function, Value.obeyAll_iff.mpr (by simp [Value.Obeys])⟩)
  -- `fst` finds in its own scope what the name gives, and the function is called on that.
  have good : (fst.sees [.qexpr [.symbol name]] name v).isError = false :=
    Value.isError_of_isNormal (offers.sees_normal (List.forall_mem_singleton.mpr rfl))
  -- The element is handed to the function, which is the call that is looked for.
  obtain ⟨u₁, more, rooted₁, called⟩ : ∃ u₁, inside.Grown u₁ ∧ u₁.Rooted ∧ call (eval room) scope
      operator [fst.sees [.qexpr [.symbol name]] name v] u₁ = (r, u₂) :=
    first.onFirst (by omega) serves rooted' lambda (serves.formal rfl (by decide)) (n := 0)
      evaluatesAll_nil (by simp) (serves.formal rfl (by decide)) (by decide)
      ((offers.grown equipped grown).gives serves.equipped []) good (by simp [Closed, Value.Obeys])
  have later := grown.trans more
  -- After the call the functions of the library are still what they were.
  have kept := keeps r u₂ (.next later called (.none (.refl _)))
  have advances := (advances_call lambda rooted₁ (function.within later.kept.within)
    (by simpa using closed.within later.kept.within) called ((equipped.keeps later).symm.trans kept)).2.2
  have since := (equipped.advances later).trans advances
  -- No element is left for the call of `map` itself, so the result is all that is gathered.
  obtain ⟨_, _, rest⟩ := Walks.passes_rest (serves.kept ((serves.equipped.advances more).trans advances))
    (provides.advanced (by simp [entries]) equipped since) (by decide) lambda second
  -- The walk over nothing changes only what has been made.
  have equipped₂ := equipped.kept since
  obtain ⟨rfl, grown₂⟩ := rest.returns (Walks.returns_nil equipped₂
    (provides.advanced (by simp [entries]) equipped since))
  have joins (rs : List Value) : Returns eval 0 w.scopes.next (.primitive .cons) [r, .qexpr rs] x₁
      (.qexpr ([r] ++ rs)) := .of_still fun _ => .of_eq fun _ => rfl
  -- The result and nothing after it are put together.
  obtain ⟨rfl, grown₃⟩ : t = gathered (fun v => [v]) [r] ∧ x₁.Grown x :=
    Passes.gathered last rfl fun _ => joins
  exact ⟨r, .next later called (.none (grown₂.trans grown₃)), rfl⟩

/-! ### Calls -/

section Calls

variable (knows : w.Knows scope) (offers : w.Offers name v)

include knows offers

/-- A call of `fst` computes what `fst` sees. -/
theorem World.Knows.fst : Computes ev 5 scope (.sexpr [.symbol "fst", .qexpr [.symbol name]]) w
    (fst.sees [.qexpr [.symbol name]] name v) :=
  knows.call Library.fst (by simp [entries]) (List.forall_mem_singleton.mpr rfl) fun _ provides =>
    returns_fst knows.equipped provides offers []

/-- A call of `snd` computes what `snd` sees. -/
theorem World.Knows.snd (first : Value) :
    Computes ev 5 scope (.sexpr [.symbol "snd", .qexpr [first, .symbol name]]) w
      (snd.sees [.qexpr [first, .symbol name]] name v) :=
  knows.call Library.snd (by simp [entries]) (List.forall_mem_singleton.mpr rfl) fun _ provides =>
    returns_snd knows.equipped provides offers first []

/-- A call of `trd` computes what `trd` sees. -/
theorem World.Knows.trd (first second : Value) :
    Computes ev 5 scope (.sexpr [.symbol "trd", .qexpr [first, second, .symbol name]]) w
      (trd.sees [.qexpr [first, second, .symbol name]] name v) :=
  knows.call Library.trd (by simp [entries]) (List.forall_mem_singleton.mpr rfl) fun _ provides =>
    returns_trd knows.equipped provides offers first second []

/-- A call of `nth` computes what `fst` sees. -/
theorem World.Knows.nth :
    Computes ev 7 scope (.sexpr [.symbol "nth", .number (.ofInt 0), .qexpr [.symbol name]]) w
      (Library.fst.sees [.qexpr [.symbol name]] name v) := by
  obtain ⟨caller, firsts, _⟩ := knows.provides Library.fst (by simp [entries])
  exact knows.call Library.nth (by simp [entries]) (by simp [Value.isNormal, Value.qexpr])
    fun _ provides => returns_nth knows.equipped provides firsts offers []

/-- A call of `last` computes what `fst` sees. -/
theorem World.Knows.last : Computes ev 10 scope (.sexpr [.symbol "last", .qexpr [.symbol name]]) w
    (Library.fst.sees [.qexpr [.symbol name]] name v) := by
  obtain ⟨caller, firsts, _⟩ := knows.provides Library.fst (by simp [entries])
  obtain ⟨getter, gets, _⟩ := knows.provides Library.nth (by simp [entries])
  obtain ⟨counter, counts, _⟩ := knows.provides Library.len (by simp [entries])
  exact knows.call Library.last (by simp [entries]) (List.forall_mem_singleton.mpr rfl)
    fun _ provides => returns_last knows.equipped provides firsts gets counts offers

/-- A call of `unpack` on `list` computes a list of what `unpack` sees. -/
theorem World.Knows.unpack :
    Computes ev 6 scope (.sexpr [.symbol "unpack", .primitive .list, .qexpr [.symbol name]]) w
      (.qexpr [Library.unpack.sees [.primitive .list, .qexpr [.symbol name]] name v]) :=
  knows.call Library.unpack (by simp [entries])
    (by simp [Value.isNormal, Value.qexpr, Value.primitive]) fun _ provides =>
      returns_unpack knows.equipped provides offers

/-- A call of `map` on an operator computes a list of what that returns for what `fst` sees. -/
theorem World.Knows.map {operator : Value} (normal : operator.isNormal)
    (returns : ∀ own, Returns ev 5 own operator [Library.fst.sees [.qexpr [.symbol name]] name v] w r)
    (fine : r.isError = false) :
    Computes ev 9 scope (.sexpr [.symbol "map", operator, .qexpr [.symbol name]]) w (.qexpr [r]) := by
  obtain ⟨caller, firsts, _⟩ := knows.provides Library.fst (by simp [entries])
  exact knows.call Library.map (by simp [entries, Library.map])
    (List.forall_mem_cons.mpr ⟨normal, List.forall_mem_singleton.mpr rfl⟩) fun _ provides =>
      returns_map knows.equipped provides firsts offers (Value.isError_of_isNormal normal) returns fine

end Calls

end QLisp
