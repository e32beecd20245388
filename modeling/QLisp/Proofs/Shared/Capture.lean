import QLisp.Proofs.Brackets
import QLisp.Proofs.Program.Capture
import QLisp.Proofs.Shared.Library
import QLisp.Proofs.Shared.Line
import QLisp.Proofs.Shared.Walks

/-!
Names in lists that the library evaluates, in place.

A global name in a list is evaluated where a function of the library has bound its formals. It means its
value there unless it is the name of a formal, and then it means the list itself.
-/

namespace QLisp.Shared

open Library Run

variable {m m' : Machine} {w : World Value} {store : CellId → Prop} {files : Files} {name text : String}
  {v : Value} {items : List Value}

/-- A function of one list sees that list for the name of its formal. -/
theorem sees_list (f : Function) (single : f.formals = ["l"]) (items : List Value) (name : String)
    (v : Value) : f.sees [.qexpr items] name v = if name = "l" then .qexpr items else v := by
  rw [Function.sees, single]
  by_cases same : name = "l"
  · subst same
    rfl
  · rw [if_neg same]
    have other : (name == "l") = false := by simpa using same
    simp [List.lookup_cons, other]

/-- `unpack` sees a function and a list. -/
theorem sees_both (operator : Value) (items : List Value) (name : String) (v : Value) :
    unpack.sees [operator, .qexpr items] name v =
      if name = "f" then operator else if name = "l" then .qexpr items else v := by
  rw [Function.sees]
  -- The two formals are told apart first; any other name is neither of them.
  by_cases first : name = "f"
  · subst first
    rfl
  by_cases second : name = "l"
  · subst second
    rfl
  · rw [if_neg first, if_neg second]
    have other : (name == "f") = false := by simpa using first
    have other' : (name == "l") = false := by simpa using second
    simp [unpack, List.lookup_cons, other, other']

/-- What `map` gives for a name in a list is what a call on the value that `fst` sees gives. -/
theorem Mirrors.maps_offered {scope : ScopeId} {f seen : Value}
    (mirrors : Mirrors True (fun _ => True) store m w) (rooted : w.Rooted) (knows : w.Knows scope)
    (binds : m.BindsLibrary files) (offers : w.Offers name v)
    (sees : fst.sees [.qexpr [.symbol name]] name v = seen) (hands : m.Hands f [seen])
    (kept : ∀ r m', Act.evaluateFresh scope (.sexpr [f, seen]) m = .ok r m' → m'.BindsLibrary files)
    (allowed : m.HasRoom scope (.sexpr [.symbol "map", f, .qexpr [.symbol name]])) :
    ∃ u m₁ r m₂ link,
      Act.evaluateFresh scope (.sexpr [.symbol "map", f, .qexpr [.symbol name]]) m = .ok u m₁ ∧
      Act.evaluateFresh scope (.sexpr [f, seen]) m = .ok r m₂ ∧ m.SameEffects m link m₁ m₂ ∧
      let result := m₂.heap.view r
      Value.Related Eq link (m₁.heap.view u) (if result.isError then result else .qexpr [result]) := by
  subst sees
  have made : m.world.scopes.Made scope := mirrors.made.mp knows.made
  have member : .function map ∈ entries := by simp [entries]
  have function := hands.lives f List.mem_cons_self
  have closed := mirrors.closes (hands.lives _ (List.mem_cons_of_mem _ List.mem_cons_self))
  have whole : (Value.sexpr [.symbol "map", f, .qexpr [.symbol name]]).Obeys m.lives :=
    ⟨trivial, function, ⟨trivial, trivial⟩, trivial⟩
  -- The call is made on the machine, without a reduction being refused.
  obtain ⟨path, u, m₁, store₁, ran, quiet, mirrors₁, _, ids, holds, live⟩ :=
    mirrors.quiet made whole allowed
  -- In the world it is a call of `map`, which is told of every call that it makes.
  have passes : Passes path (evalNoting path (m.world.limit - m.depth) scope
      (.sexpr (.symbol map.name :: f :: [.qexpr [.symbol name]]))) w _ _ := ⟨rfl, quiet⟩
  obtain ⟨s, less, provides, left, call⟩ := passes_of_knows knows member
    (List.forall_mem_cons.mpr ⟨hands.function, List.forall_mem_singleton.mpr rfl⟩) passes
  have positive := call.positive (by decide) rfl
  -- The one call redefines no name of the library, so the visit in the body of `map` does not either.
  have alone (vs : List Value) (m' : Machine)
      (runs : Act.Runs scope (calls f [fst.sees [.qexpr [.symbol name]] name v]) m vs m') :
      m'.BindsLibrary files := by
    obtain ⟨r, _, ran⟩ := runs.single
    exact kept r m' ran
  obtain ⟨r, visits, value⟩ := visits_map hands.lambda knows.equipped provides offers rooted
    (mirrors.closes function) closed (Nat.le_refl less) (fun r x visits =>
      mirrors.visits_keep rooted made binds hands alone positive left visits) call
  -- What was visited in the world is done by the machine as well.
  obtain ⟨vs, m₂, link, runs, same, results⟩ := mirrors.visited rooted made hands positive left visits mirrors₁
  obtain ⟨r, rfl, ran₂⟩ := runs.single
  refine ⟨u, m₁, r, m₂, link, ran, ran₂, same, ?_⟩
  -- What `map` gathers from one result is that, if it is an error, or the list of it.
  have related := gathered_related results
  rw [(live.stands holds).view.trans value]
  by_cases failed : (m₂.heap.view r).isError <;> simp_all

/--
Library functions that evaluate an element of a list capture the names of their formals, and no others.

After any requests to a session, let the names of the library be bound globally as they were at first,
and let the global scope bind a name, no formal of `fun`, to a value that stands for itself. Then, unless
a reduction is refused, `fst`, `snd`, `trd`, `nth`, `last`, `unpack` and `map` find that value for the
name in a list, except for the name `l`: for that they find the list in which it is. Besides, `unpack`
finds the function that it is given for the name `f`. What `map` does with a function, which may do
anything but redefine the library, is what a call on that value does, and it gives the list of its result
or its error.
-/
theorem names_captured (files : Files) (requests : List Request) :
    ∃ m, requests.forM Act.perform (Machine.standard files) = .ok () m ∧
      ∀ (depth : Nat) (s : String) (v : Value), m.KeepsLibrary files Scopes.global →
        m.binding? Scopes.global s = some v → v.isNormal → s ∉ ["__sig", "__body"] →
        let here := { m with depth := depth }
        let Finds := fun t v => t.Obeys here.lives → here.HasRoom Scopes.global t →
          here.Finds Scopes.global t v
        let zero : Value := .number (.ofInt 0)
        let seen := fun items => if s = "l" then .qexpr items else v
        Finds (.sexpr [.symbol "fst", .qexpr [.symbol s]]) (seen [.symbol s]) ∧
        Finds (.sexpr [.symbol "snd", .qexpr [zero, .symbol s]]) (seen [zero, .symbol s]) ∧
        Finds (.sexpr [.symbol "trd", .qexpr [zero, zero, .symbol s]]) (seen [zero, zero, .symbol s]) ∧
        Finds (.sexpr [.symbol "nth", zero, .qexpr [.symbol s]]) (seen [.symbol s]) ∧
        Finds (.sexpr [.symbol "last", .qexpr [.symbol s]]) (seen [.symbol s]) ∧
        Finds (.sexpr [.symbol "unpack", .primitive .list, .qexpr [.symbol s]])
          (.qexpr [if s = "f" then .primitive .list else seen [.symbol s]]) ∧
        (∀ (p : Primitive) (g : List Value → Except Failure Value) (r : Value),
          p.scalar?.or p.listing? = some g → g [seen [.symbol s]] = .ok r → r.isError = false →
          Finds (.sexpr [.symbol "map", .primitive p, .qexpr [.symbol s]]) (.qexpr [r])) ∧
        ∀ f, here.Hands f [seen [.symbol s]] →
          let mapped := .sexpr [.symbol "map", f, .qexpr [.symbol s]]
          let call := .sexpr [f, seen [.symbol s]]
          (∀ r m', Act.evaluateFresh Scopes.global call here = .ok r m' → m'.BindsLibrary files) →
          here.HasRoom Scopes.global mapped → ∃ u m₁ r m₂ link,
            Act.evaluateFresh Scopes.global mapped here = .ok u m₁ ∧
              Act.evaluateFresh Scopes.global call here = .ok r m₂ ∧ here.SameEffects here link m₁ m₂ ∧
              let result := m₂.heap.view r
              Value.Related Eq link (m₁.heap.view u)
                (if result.isError then result else .qexpr [result]) := by
  -- The names are found in the world that the machine mirrors, and from there on the machine.
  obtain ⟨m, store, w, ran, mirrors, rooted, _, known⟩ := session_knows files requests
  refine ⟨m, ran, fun depth s v keeps bound normal visible => ?_⟩
  intro here Finds zero seen
  have knows := known _ mirrors.global keeps
  have mirrored : Mirrors True (fun _ => True) store here w := mirrors.atDepth _
  have offers : w.Offers s v := ⟨(mirrors.binding? _ s).symm.trans bound, normal, visible⟩
  have finds {t result : Value} {n : Nat} (computes : Computes eval n Scopes.global t w result) :
      Finds t result :=
    fun lives allowed => mirrored.finds mirrors.global lives allowed computes
  -- Five functions are called on a list, one on two arguments, and `map` on an operator or a function.
  refine ⟨?_, ?_, ?_, ?_, ?_, ?_, fun p g r plain given fine => ?_, fun f hands => ?_⟩
  · exact finds (sees_list fst rfl _ s v ▸ knows.fst offers)
  · exact finds (sees_list snd rfl _ s v ▸ knows.snd offers zero)
  · exact finds (sees_list trd rfl _ s v ▸ knows.trd offers zero zero)
  · exact finds (sees_list fst rfl _ s v ▸ knows.nth offers)
  · exact finds (sees_list fst rfl _ s v ▸ knows.last offers)
  · have unpacked : Computes eval 6 Scopes.global _ w _ := knows.unpack offers
    rw [sees_both] at unpacked
    exact finds unpacked
  · exact finds (knows.map offers rfl (fun _ => returns_plain plain (sees_list fst rfl _ s v ▸ given)) fine)
  · intro mapped call kept allowed
    exact mirrored.maps_offered rooted knows (fun name member => (keeps name member).1) offers
      (sees_list fst rfl _ s v) hands kept allowed

/-- When a list has been defined by a text, it is bound and the library is in place. -/
theorem Mirrors.define_keeps {form : Form} (mirrors : Mirrors True (fun _ => True) store m w)
    (idle : m.depth = 0) (positive : 0 < w.limit) (rooted : w.Rooted) (furnished : w.Furnished)
    (outside : name ∉ Library.names) (read : Form.parse (Text.encode text) = .ok [form])
    (means : form.toValue Primitive.all = define name (.qexpr items)) :
    ∃ m' store' w', [Request.evaluate (.text (Text.encode text))].forM Act.perform m = .ok () m' ∧
      Mirrors True (fun _ => True) store' m' w' ∧ w'.Knows Scopes.global ∧
      (∀ other ∈ Library.names, m'.binding? Scopes.global other = m.binding? Scopes.global other ∧
        m'.meaning? Scopes.global other = m.binding? Scopes.global other) ∧
      m'.binding? Scopes.global name = some (.qexpr items) ∧ m'.depth = 0 ∧
      m'.world.limit = m.world.limit := by
  -- Both sides are followed through the request that makes the definition.
  obtain ⟨m', store', ran, mirrors', idle'⟩ := mirrors.session [.evaluate (.text (Text.encode text))] idle
  have later := rooted.session [.evaluate (.text (Text.encode text))]
  have spares := rooted.spares_session [.evaluate (.text (Text.encode text))]
  rw [Run.after_define positive read means] at mirrors' later spares
  -- The definition binds one name, which is none of the library.
  have kept (other : String) (member : other ∈ Library.names) :
      (w.scopes.bind Scopes.global name (.qexpr items)).local? Scopes.global other =
        w.scopes.local? Scopes.global other := by
    have apart : other ≠ name := fun same => outside (same ▸ member)
    rw [Scopes.local?_bind, if_neg fun same => apart same.2.1]
  have equipped := (furnished.kept rooted.ordered spares.below kept).equipped later
  refine ⟨m', store', _, ran, mirrors', equipped.knows, fun other member => ⟨?_, ?_⟩, ?_, idle', ?_⟩
  -- The library is bound as before, directly and as seen from the global scope.
  · rw [mirrors'.binding?, mirrors.binding?, kept other member]
  · rw [mirrors'.meaning?, mirrors.binding?, later.lookup?_global, kept other member]
  · rw [mirrors'.binding?, Scopes.local?_bind, if_pos ⟨rfl, rfl, rooted.global⟩]
  · exact mirrors'.limit.trans mirrors.limit.symm

/-- The same after a text has defined a list in the standard machine, with room for some reductions. -/
theorem standard_defines {form : Form} (outside : name ∉ Library.names)
    (read : Form.parse (Text.encode text) = .ok [form])
    (means : form.toValue Primitive.all = define name (.qexpr items)) :
    ∃ m store w, [Request.evaluate (.text (Text.encode text))].forM Act.perform
        (Machine.standard files) = .ok () m ∧
      Mirrors True (fun _ => True) store m w ∧ w.Knows Scopes.global ∧
      m.KeepsLibrary files Scopes.global ∧ m.binding? Scopes.global name = some (.qexpr items) ∧
      50 ≤ m.world.limit - m.depth := by
  -- The standard machine is idle, so all of its limit is left.
  obtain ⟨_, _, mirrors, idle⟩ := mirrors_standard files
  have limit := Machine.limit_standard files
  have positive : 0 < (World.standard files).limit := by
    rw [← mirrors.limit, limit]
    decide
  obtain ⟨m, store, w, ran, mirrors', knows, keeps, bound, idle', same⟩ := mirrors.define_keeps idle positive
    (World.rooted_standard files) (World.furnished_standard files) outside read means
  refine ⟨m, store, w, ran, mirrors', knows, keeps, bound, ?_⟩
  rw [idle', same, limit]
  decide

/-- A function that evaluates its argument makes a list of a text out of the expression for that. -/
theorem returns_listing {ev : Nat → QLisp.Evaluator} [Stepwise ev] {scope : ScopeId} (text : Text.Bytes)
    (equipped : w.Equipped) :
    Returns ev 3 scope (evaluating ["x"] Scopes.global) [.qexpr [.primitive .list, .string text]] w
      (.qexpr [.string text]) := by
  have inside (own : ScopeId) :
      Computes ev 2 own (.sexpr [.primitive .list, .string text]) w (.qexpr [.string text]) :=
    .call (.cons (computes_primitive _) (.cons (.of_still fun _ => evaluates_normal rfl)
      computesAll_nil)) rfl (.of_still fun _ => .of_eq fun _ => rfl)
  exact returns_evaluating (by decide) (by decide) rfl rfl equipped.ordered equipped.global inside

/-- The function may be called on that expression. -/
theorem Machine.hands_listing {names : List String} {s : ScopeId} (made : m.world.scopes.Made s)
    (text : Text.Bytes) :
    m.Hands (evaluating names s) [.qexpr [.primitive .list, .string text]] := by
  refine Machine.hands_evaluating made (List.forall_mem_singleton.mpr ?_)
  simp [Value.isNormal, Value.Regular, Value.RegularAll, Value.Obeys, Value.ObeyAll, Value.qexpr,
    Value.primitive]

/-- When it has been called on the machine, the names of the library are bound as before. -/
theorem Mirrors.listed {text : Text.Bytes} {result : Handle}
    (mirrors : Mirrors True (fun _ => True) store m w) (knows : w.Knows Scopes.global)
    (binds : m.BindsLibrary files) (roomy : 5 ≤ m.world.limit - m.depth)
    (called : Act.evaluateFresh Scopes.global (.sexpr [evaluating ["x"] Scopes.global,
      .qexpr [.primitive .list, .string text]]) m = .ok result m') :
    m'.BindsLibrary files ∧ m'.heap.view result = .qexpr [.string text] := by
  have hands : m.Hands (evaluating ["x"] Scopes.global) [.qexpr [.primitive .list, .string text]] :=
    Machine.hands_listing mirrors.global text
  have lives : (Value.sexpr [evaluating ["x"] Scopes.global,
    .qexpr [.primitive .list, .string text]]).Obeys m.lives := Value.obeyAll_iff.mpr hands.lives
  -- In the world the call completes, and it writes nothing.
  have completes : Completes 4 (fun room => Run.call (Run.eval room) Scopes.global
      (evaluating ["x"] Scopes.global) [.qexpr [.primitive .list, .string text]]) w
      (· = .qexpr [.string text]) :=
    .of_grown knows.equipped fun u advances =>
      ((returns_listing _ (knows.equipped.kept advances)).mono (by decide)) u (.refl u)
  obtain ⟨_, _, _, _, _, bound, result⟩ := mirrors.completed mirrors.global lives
    knows.equipped.ordered binds roomy
    (completes_application (by simp [hands.function, hands.normal]) completes) called
  exact ⟨bound, result⟩

/--
A name that is no formal of theirs is found by all of them.

The value is an expression for a list, and the function that `map` calls on it evaluates it under the
same name.
-/
theorem names_captured_free :
    let v : Value := .qexpr [.primitive .list, .string (Text.encode "a")]
    let zero : Value := .number (.ofInt 0)
    let f : Value := evaluating ["x"] Scopes.global
    let r : Value := .qexpr [.string (Text.encode "a")]
    ∃ m, [Request.evaluate (.text (Text.encode "(def {x} \x7blist \"a\"\x7d)"))].forM Act.perform
        (Machine.standard fun _ => .error .missing) = .ok () m ∧
      let Finds := m.Finds Scopes.global
      m.binding? Scopes.global "x" = some v ∧
      Finds (.sexpr [.symbol "fst", .qexpr [.symbol "x"]]) v ∧
      Finds (.sexpr [.symbol "snd", .qexpr [zero, .symbol "x"]]) v ∧
      Finds (.sexpr [.symbol "trd", .qexpr [zero, zero, .symbol "x"]]) v ∧
      Finds (.sexpr [.symbol "nth", zero, .qexpr [.symbol "x"]]) v ∧
      Finds (.sexpr [.symbol "last", .qexpr [.symbol "x"]]) v ∧
      Finds (.sexpr [.symbol "unpack", .primitive .list, .qexpr [.symbol "x"]]) (.qexpr [v]) ∧
      Finds (.sexpr [.symbol "map", .primitive .list, .qexpr [.symbol "x"]]) (.qexpr [.qexpr [v]]) ∧
      ∃ u m₁ result m₂ link,
        Act.evaluateFresh Scopes.global (.sexpr [.symbol "map", f, .qexpr [.symbol "x"]]) m = .ok u m₁ ∧
          Act.evaluateFresh Scopes.global (.sexpr [f, v]) m = .ok result m₂ ∧
          m.SameEffects m link m₁ m₂ ∧ m₂.heap.view result = r ∧ m₁.heap.view u = .qexpr [r] := by
  intro v zero f r
  let files : Files := fun _ => .error .missing
  -- The text reads as the definition of the name, with a list in its braces.
  have read : Form.parse (Text.encode "(def {x} \x7blist \"a\"\x7d)") = .ok [.list ⟨0, 1, 1⟩ .sexpr
      [.atom ⟨1, 1, 2⟩ (.reserved "def"), .list ⟨5, 1, 6⟩ .qexpr [.atom ⟨6, 1, 7⟩ (.symbol "x")],
        .list ⟨9, 1, 10⟩ .qexpr [.atom ⟨10, 1, 11⟩ (.reserved "list"),
          .atom ⟨15, 1, 16⟩ (.string "a")]]] := by
    rw [Form.parse_encode]
    rfl
  obtain ⟨m, store, w, ran, mirrors, knows, keeps, bound, roomy⟩ :=
    @standard_defines files "x" _ [.primitive .list, .string (Text.encode "a")] _ (by decide) read rfl
  obtain ⟨m', ran', right⟩ :=
    names_captured files [.evaluate (.text (Text.encode "(def {x} \x7blist \"a\"\x7d)"))]
  obtain rfl : m = m' := by
    injection ran.symm.trans ran'
  obtain ⟨first, second, third, indexed, final, unpacked, operations, functions⟩ :=
    right m.depth "x" v keeps bound rfl (by decide)
  -- The name is bound to a value that is no error, so it is seen by the library.
  have offers : w.Offers "x" v := ⟨(mirrors.binding? _ _).symm.trans bound, rfl, by decide⟩
  -- There is room for more reductions than the calls need.
  have finds {t result : Value} {n : Nat}
      (right : t.Obeys m.lives → m.HasRoom Scopes.global t → m.Finds Scopes.global t result)
      (lives : t.Obeys m.lives) (few : n ≤ 50)
      (computes : ∀ (ev : Nat → QLisp.Evaluator) [Stepwise ev], Computes ev n Scopes.global t w result) :
      m.Finds Scopes.global t result :=
    right lives (mirrors.hasRoom mirrors.global lives (few.trans roomy) computes)
  -- No function is in the expressions.
  have list : (Value.qexpr [.symbol "x"]).Obeys m.lives := ⟨trivial, trivial⟩
  have handed (name : String) {given : List Value} (lives : Value.ObeyAll m.lives given) :
      (Value.sexpr (.symbol name :: given)).Obeys m.lives := ⟨trivial, lives⟩
  -- The function makes a list of a text when it is called on the value of the name.
  have hands : m.Hands f [v] := Machine.hands_listing mirrors.global _
  have done {result : Handle} {m' : Machine} :
      Act.evaluateFresh Scopes.global (.sexpr [f, v]) m = .ok result m' →
        m'.BindsLibrary files ∧ m'.heap.view result = r :=
    mirrors.listed knows (fun name member => (keeps name member).1) (Nat.le_trans (by decide) roomy)
  -- In the world `map` gives the list of what the function gives.
  have mapping (ev : Nat → QLisp.Evaluator) [Stepwise ev] :
      Computes ev 9 Scopes.global (.sexpr [.symbol "map", f, .qexpr [.symbol "x"]]) w (.qexpr [r]) :=
    knows.map offers hands.function (fun own => (returns_listing _ knows.equipped).mono (by decide)) rfl
  have handing : (Value.sexpr [.symbol "map", f, .qexpr [.symbol "x"]]).Obeys m.lives :=
    handed _ ⟨hands.lives f List.mem_cons_self, list, trivial⟩
  have room : m.HasRoom Scopes.global (.sexpr [.symbol "map", f, .qexpr [.symbol "x"]]) :=
    mirrors.hasRoom mirrors.global handing (Nat.le_trans (by decide) roomy) mapping
  obtain ⟨u, m₁, result, m₂, link, mapped, called, same, _⟩ :=
    functions f hands (fun r m' called => (done called).1) room
  refine ⟨m, ran, bound, ?_, ?_, ?_, ?_, ?_, ?_, ?_, u, m₁, result, m₂, link, mapped, called,
    same, (done called).2, ?_⟩
  -- Each function finds what the formals of the library make of the name.
  · exact finds first (handed _ ⟨list, trivial⟩) (by decide) fun ev _ => knows.fst offers
  · exact finds second (handed _ ⟨⟨trivial, list⟩, trivial⟩) (by decide) fun ev _ =>
      knows.snd offers zero
  · exact finds third (handed _ ⟨⟨trivial, trivial, list⟩, trivial⟩) (by decide) fun ev _ =>
      knows.trd offers zero zero
  · exact finds indexed (handed _ ⟨trivial, list, trivial⟩) (by decide) fun ev _ => knows.nth offers
  · exact finds final (handed _ ⟨list, trivial⟩) (by decide) fun ev _ => knows.last offers
  · exact finds unpacked (handed _ ⟨trivial, list, trivial⟩) (by decide) fun ev _ =>
      knows.unpack offers
  · exact finds (operations .list _ _ rfl rfl rfl) (handed _ ⟨trivial, list, trivial⟩) (by decide) fun ev _ =>
      knows.map offers rfl (fun _ => returns_plain rfl rfl) rfl
  -- The call was found to end in the same handle, so that is what is seen of it.
  · obtain ⟨_, _, mapped', view, _⟩ := mirrors.finds mirrors.global handing room (mapping Run.eval)
    cases mapped.symm.trans mapped'
    exact view

/-- The name of a formal is not found: `fst` gives the list that the name is in. -/
theorem formal_captured :
    ∃ m, [Request.evaluate (.text (Text.encode "(def {l} {v})"))].forM Act.perform
        (Machine.standard fun _ => .error .missing) = .ok () m ∧
      m.binding? Scopes.global "l" = some (.qexpr [.symbol "v"]) ∧
      m.Finds Scopes.global (.sexpr [.symbol "fst", .qexpr [.symbol "l"]]) (.qexpr [.symbol "l"]) ∧
      ¬ m.Finds Scopes.global (.sexpr [.symbol "fst", .qexpr [.symbol "l"]]) (.qexpr [.symbol "v"]) := by
  -- The text is one form, which reads as the definition.
  have read : Form.parse (Text.encode "(def {l} {v})") = .ok [.list ⟨0, 1, 1⟩ .sexpr
      [.atom ⟨1, 1, 2⟩ (.reserved "def"), .list ⟨5, 1, 6⟩ .qexpr [.atom ⟨6, 1, 7⟩ (.symbol "l")],
        .list ⟨9, 1, 10⟩ .qexpr [.atom ⟨10, 1, 11⟩ (.symbol "v")]]] := by
    rw [Form.parse_encode]
    rfl
  -- After it the name is bound on the machine and in the world.
  obtain ⟨m, store, w, ran, mirrors, knows, _, bound, roomy⟩ :=
    @standard_defines (fun _ => .error .missing) "l" _ [.symbol "v"] _ (by decide) read rfl
  have offers : w.Offers "l" (.qexpr [.symbol "v"]) :=
    ⟨(mirrors.binding? _ _).symm.trans bound, rfl, by decide⟩
  have lives : (Value.sexpr [.symbol "fst", .qexpr [.symbol "l"]]).Obeys m.lives := by
    simp [Value.Obeys, Value.ObeyAll, Value.sexpr, Value.qexpr]
  -- `fst` evaluates the name in its own scope, in which its formal is bound to the list.
  have computes (ev : Nat → QLisp.Evaluator) [Stepwise ev] : Computes ev 5 Scopes.global
      (.sexpr [.symbol "fst", .qexpr [.symbol "l"]]) w (.qexpr [.symbol "l"]) := by
    have found : Computes ev 5 Scopes.global _ w _ := knows.fst offers
    rwa [sees_list fst rfl] at found
  have finds := mirrors.finds mirrors.global lives (mirrors.hasRoom mirrors.global lives
    (Nat.le_trans (by decide) roomy) computes) (computes eval)
  refine ⟨m, ran, bound, finds, ?_⟩
  -- The run gives one value, and it cannot be seen as two.
  rintro ⟨v, m', evaluated, view, _⟩
  obtain ⟨v', m'', evaluated', view', _⟩ := finds
  cases evaluated.symm.trans evaluated'
  have same : Value.qexpr [.symbol "v"] = .qexpr [.symbol "l"] := view.symm.trans view'
  simp [Value.qexpr] at same

end QLisp.Shared
