import QLisp.Proofs.BigStep
import QLisp.Proofs.Framing
import QLisp.Proofs.Program.Library

/-!
Worlds with the library in place.

The functions of the library capture the scopes of the calls of `fun` that define them. These bind
nothing but the formals of `fun`, and no program ever binds anything else there.
-/

namespace QLisp

open Library Run

/-- The expression that makes and defines a function without `fun`. -/
def Library.Function.longhand (f : Function) : Value :=
  define f.name (.sexpr [.primitive .lambda, .qexpr (f.formals.map .symbol), .qexpr f.body])

/-- What `fun` is given to define a function. -/
def Library.Function.parts (f : Function) : List Value :=
  [.qexpr ((f.name :: f.formals).map .symbol), .qexpr f.body]

namespace Scopes

/-- The scopes that there were still are there, as they were but for what the global one binds. -/
structure ExtendsBelow (scopes others : Scopes Value) : Prop where
  /-- No scope is lost. -/
  within : scopes.Within others
  /-- The scopes have the same parents. -/
  parent? (s : ScopeId) : scopes.Made s → others.parent? s = scopes.parent? s
  /-- Below the global scope they bind the same names to the same values. -/
  local? (s : ScopeId) (name : String) : scopes.Made s → s ≠ Scopes.global →
    others.local? s name = scopes.local? s name

variable {scopes others further : Scopes Value}

/-- Scopes that are all as they were are so below the global one. -/
theorem Extends.below (extends₁ : scopes.Extends others) : scopes.ExtendsBelow others :=
  ⟨extends₁.within, extends₁.parent?, fun s name made _ => extends₁.local? s name made⟩

/-- Where only the global scope has been written, the others are as they were. -/
theorem Spares.below (spares : scopes.Spares (· = Scopes.global) others) : scopes.ExtendsBelow others :=
  ⟨spares.within, fun _ made => spares.parent? made, fun _ name made other => spares.local? made other name⟩

/-- So they are after two stretches. -/
theorem ExtendsBelow.trans (first : scopes.ExtendsBelow others) (second : others.ExtendsBelow further) :
    scopes.ExtendsBelow further where
  within := first.within.trans second.within
  parent? s made := (second.parent? s (Nat.lt_of_lt_of_le made first.within)).trans (first.parent? s made)
  local? s name made other := (second.local? s name (Nat.lt_of_lt_of_le made first.within) other).trans
    (first.local? s name made other)

end Scopes

namespace World

/-- A scope is right below the global one, and hides no name but those that `fun` binds. -/
structure Clear (w : World Value) (s : ScopeId) : Prop where
  /-- The scope has been made. -/
  made : w.scopes.Made s
  /-- The global scope is its parent. -/
  parent : w.scopes.parent? s = some Scopes.global
  /-- It binds no name but those that `fun` binds. -/
  plain (name : String) : name ∉ definer.formals → w.scopes.local? s name = none

/-- A function of the library is bound globally, and captured a scope that hides no name. -/
structure Provides (w : World Value) (f : Function) (s : ScopeId) : Prop extends Clear w s where
  /-- The global scope binds the name to the function. -/
  bound : w.scopes.local? Scopes.global f.name = some (f.closure s)

/-- The world after a function has been defined by `fun`. -/
def defined (w : World Value) (f : Function) : World Value :=
  let u := w.entered Scopes.global (definer.formals.zip f.parts)
  { u with scopes := u.scopes.bind Scopes.global f.name (f.closure w.scopes.next) }

/-- The world after a function has been made and defined without `fun`. -/
def assigned (w : World Value) (f : Function) : World Value :=
  { w with scopes := w.scopes.bind Scopes.global f.name (f.closure Scopes.global) }

variable {w w' : World Value} {f : Function} {s : ScopeId} {name : String}

/-- The global scope has no parent. -/
theorem Rooted.parent?_global (rooted : w.Rooted) : w.scopes.parent? Scopes.global = none := by
  cases link : w.scopes.parent? Scopes.global with
  | none => rfl
  | some p => exact absurd (rooted.ordered _ p link) (Nat.not_lt_zero _)

/-- In the global scope a name means what is bound there. -/
theorem Rooted.lookup?_global (rooted : w.Rooted) (name : String) :
    w.scopes.lookup? Scopes.global name = w.scopes.local? Scopes.global name := by
  rw [Scopes.lookup?_eq rooted.ordered, rooted.parent?_global, Option.bind_none, Option.or_none]

/-- What is found is the meaning of a name. -/
theorem lookup_of_lookup? {v : Value} (found : w.scopes.lookup? s name = some v) :
    w.scopes.lookup s name = v := by
  rw [Scopes.lookup, found, Option.getD_some]

/-- A scope below another one is not the global one. -/
theorem ne_global (ordered : w.scopes.ParentsFirst) {p : ScopeId} (parent : w.scopes.parent? s = some p) :
    s ≠ Scopes.global := by
  rintro rfl
  exact absurd (ordered _ p parent) (Nat.not_lt_zero _)

/-- A scope stays clear when names are bound in the global scope. -/
theorem Clear.kept (clear : w.Clear s) (ordered : w.scopes.ParentsFirst)
    (below : w.scopes.ExtendsBelow w'.scopes) : w'.Clear s where
  made := Nat.lt_of_lt_of_le clear.made below.within
  parent := (below.parent? s clear.made).trans clear.parent
  plain name other := (below.local? s name clear.made (ne_global ordered clear.parent)).trans
    (clear.plain name other)

/-- A function is still provided when only other names have been bound in the global scope. -/
theorem Provides.kept (provides : w.Provides f s) (ordered : w.scopes.ParentsFirst)
    (below : w.scopes.ExtendsBelow w'.scopes)
    (same : w'.scopes.local? Scopes.global f.name = w.scopes.local? Scopes.global f.name) :
    w'.Provides f s :=
  ⟨provides.toClear.kept ordered below, same.trans provides.bound⟩

/-- The scope of a call of `fun` hides no name but those that `fun` binds. -/
theorem clear_entered (w : World Value) (f : Function) :
    (w.entered Scopes.global (definer.formals.zip f.parts)).Clear w.scopes.next where
  made := made_entered w Scopes.global _
  parent := w.parent?_entered _ _
  plain name other := by
    rw [local?_entered w Scopes.global (by decide) rfl, lookup_zip_of_not_mem other]

/-- A function that has been defined is provided. -/
theorem provides_defined (rooted : w.Rooted) (f : Function) :
    (w.defined f).Provides f w.scopes.next := by
  have kept := w.extends_entered Scopes.global (definer.formals.zip f.parts)
  -- The function captured the scope of the call that made it, which is not the global one.
  have apart : w.scopes.next ≠ Scopes.global := rooted.global.ne_next.symm
  have clear := w.clear_entered f
  refine ⟨⟨Scopes.made_bind.mpr clear.made, (Scopes.parent?_bind ..).trans clear.parent,
    fun name other => ?_⟩, ?_⟩
  · rw [defined, Scopes.local?_bind, if_neg fun same => apart same.1]
    exact clear.plain name other
  · have there := Nat.lt_of_lt_of_le rooted.global kept.within
    exact (Scopes.local?_bind ..).trans (if_pos ⟨rfl, rfl, there⟩)

/-- Another name means in the global scope what it did when a function has been defined. -/
theorem local?_defined (rooted : w.Rooted) (f : Function) (other : name ≠ f.name) :
    (w.defined f).scopes.local? Scopes.global name = w.scopes.local? Scopes.global name := by
  rw [defined, Scopes.local?_bind, if_neg fun same => other same.2.1]
  exact (w.extends_entered Scopes.global _).local? _ name rooted.global

/-- A function is defined by `fun` when there is room for four reductions. -/
theorem evaluates_definition {ev : Nat → Evaluator} [Stepwise ev] (rooted : w.Rooted)
    (bound : w.scopes.local? Scopes.global definer.name = some (definer.closure Scopes.global))
    (f : Function) : Evaluates ev 4 Scopes.global f.definition w .unit (w.defined f) := by
  let u := w.entered Scopes.global (definer.formals.zip f.parts)
  let own := w.scopes.next
  -- In the body of `fun` its formals mean the parts of the definition.
  have looked : w.scopes.lookup Scopes.global definer.name = definer.closure Scopes.global :=
    lookup_of_lookup? (by rw [rooted.lookup?_global, bound])
  have given (name : String) (v : Value) (there : (definer.formals.zip f.parts).lookup name = some v) :
      u.scopes.lookup own name = v :=
    lookup_of_lookup? (by
      rw [lookup?_entered rooted.ordered rooted.global (by decide) rfl, there, Option.some_or])
  have signature := given "__sig" (.qexpr ((f.name :: f.formals).map .symbol)) rfl
  have body := given "__body" (.qexpr f.body) rfl
  -- The call of `fun` is made below the global scope.
  have outermost : u.scopes.root own = Scopes.global := by
    rw [Scopes.root_eq (ordered_entered rooted.ordered rooted.global _), parent?_entered,
      Option.elim_some, Scopes.root_global]
  -- The name is the head of the signature, and the formals are its tail.
  have name : Evaluates ev 1 own (.sexpr [.primitive .head, .symbol "__sig"]) u
      (.qexpr [.symbol f.name]) u :=
    .call (.cons (evaluates_primitive _) (.cons (evaluates_symbol signature) evaluatesAll_nil)) rfl
      (applies_head _ _)
  have formals : Evaluates ev 1 own (.sexpr [.primitive .tail, .symbol "__sig"]) u
      (.qexpr (f.formals.map .symbol)) u :=
    .call (.cons (evaluates_primitive _) (.cons (evaluates_symbol signature) evaluatesAll_nil)) rfl
      (applies_tail _ _)
  -- The function captures the scope of the call.
  have function : Evaluates ev 2 own
      (.sexpr [.primitive .lambda, .sexpr [.primitive .tail, .symbol "__sig"], .symbol "__body"]) u
      (f.closure own) u := by
    refine .call (.cons (evaluates_primitive _) (.cons formals
      (.cons (evaluates_symbol body) evaluatesAll_nil))) rfl (applies_make ?_)
    rw [Primitive.functionParts, Primitive.symbolNames_symbols]
    rfl
  -- The name is bound globally, since the outermost scope is the global one.
  have binds : Evaluates ev 3 own (.sexpr definer.body) u .unit (w.defined f) := by
    refine .call (.cons (evaluates_primitive _) (.cons (name.mono (by decide))
      (.cons function evaluatesAll_nil))) rfl ?_
    have applied := @applies_define ev 2 u own [.qexpr [.symbol f.name], f.closure own]
      [(f.name, f.closure own)] rfl
    rw [outermost] at applied
    exact applied
  -- The parts are quoted, so they are handed over as they are.
  refine .call (.cons (evaluates_symbol looked) (.cons (evaluates_qexpr _)
    (.cons (evaluates_qexpr _) evaluatesAll_nil))) rfl ?_
  exact applies_lambda (by decide) rfl binds

/-- A name is defined by what its value evaluates to, unless that is an error. -/
theorem evaluates_define {ev : Nat → Evaluator} [Stepwise ev] {enough : Nat} {t v : Value}
    (value : Evaluates ev enough Scopes.global t w v w) (fine : v.isError = false) (name : String) :
    Evaluates ev (enough + 1) Scopes.global (define name t) w .unit
      { w with scopes := w.scopes.bind Scopes.global name v } := by
  refine .call (.cons (evaluates_primitive _) (.cons (evaluates_qexpr _)
    (.cons value evaluatesAll_nil))) (by simp [fine]) ?_
  have applied := @applies_define ev enough w Scopes.global [.qexpr [.symbol name], v] [(name, v)] rfl
  rw [Scopes.root_global] at applied
  exact applied

/-- A function is made and defined without `fun` when there is room for two reductions. -/
theorem evaluates_longhand {ev : Nat → Evaluator} [Stepwise ev] (w : World Value) (f : Function) :
    Evaluates ev 2 Scopes.global f.longhand w .unit (w.assigned f) := by
  refine evaluates_define (.call (.cons (evaluates_primitive _) (.cons (evaluates_qexpr _)
    (.cons (evaluates_qexpr _) evaluatesAll_nil))) rfl (applies_make ?_)) rfl f.name
  rw [Primitive.functionParts, Primitive.symbolNames_symbols]
  rfl

/-! ### The standard world -/

/-- Expressions are evaluated one after the other. -/
theorem after_each_cons (ev : Evaluator) (scope : ScopeId) (t : Value) (rest : List Value) :
    after (each ev scope (t :: rest)) w = after (each ev scope rest) (after (ev scope t) w) := by
  show (each ev scope (t :: rest) w).2 = _
  rw [each_cons]
  rfl

/-- Expressions are evaluated after others. -/
theorem after_each_append (ev : Evaluator) (scope : ScopeId) (first second : List Value) :
    ∀ w, after (each ev scope (first ++ second)) w =
      after (each ev scope second) (after (each ev scope first) w) := by
  induction first with
  | nil => exact fun _ => rfl
  | cons t rest ih =>
    intro w
    rw [List.cons_append, after_each_cons, after_each_cons, ih]

/-- An entry has been evaluated: it binds its name, and no other in a scope that there was. -/
structure Adopts (w : World Value) (e : Entry) (w' : World Value) : Prop where
  /-- The world is rooted. -/
  rooted : w'.Rooted
  /-- The limit is the same. -/
  limit : w'.limit = w.limit
  /-- Only the global scope is written. -/
  spares : w.scopes.Spares (· = Scopes.global) w'.scopes
  /-- Other names are bound there as they were. -/
  others (name : String) : name ≠ e.name →
    w'.scopes.local? Scopes.global name = w.scopes.local? Scopes.global name
  /-- A function that is defined is provided. -/
  provides (f : Function) : e = .function f → ∃ s, w'.Provides f s

/-- Evaluating an entry binds its name. -/
theorem adopts_evaluate (rooted : w.Rooted) (room : 4 ≤ w.limit)
    (bound : w.scopes.local? Scopes.global definer.name = some (definer.closure Scopes.global))
    (e : Entry) (closed : Closed w.scopes e.expression) :
    w.Adopts e (evaluate Scopes.global e.expression w).2 := by
  -- Only the global scope has been written in, for there is no other one to write in.
  have framed := framing_evaluate rooted rooted.global closed
  have spares : w.scopes.Spares (· = Scopes.global)
      (evaluate Scopes.global e.expression w).2.scopes := framed.spares.mono fun _ _ => Or.rec id id
  -- Three things are left to be shown of an entry.
  suffices ends : (evaluate Scopes.global e.expression w).2.limit = w.limit ∧
      (∀ name, name ≠ e.name → (evaluate Scopes.global e.expression w).2.scopes.local?
        Scopes.global name = w.scopes.local? Scopes.global name) ∧
      ∀ f, e = .function f → ∃ s, (evaluate Scopes.global e.expression w).2.Provides f s from
    ⟨framed.rooted, ends.1, spares, ends.2.1, ends.2.2⟩
  cases e with
  | function f =>
    -- A function is defined within four reductions, and there is room for that many.
    have ran : evaluate Scopes.global f.definition w = (.unit, w.defined f) :=
      evaluates_definition rooted bound f w.limit room
    show (evaluate Scopes.global f.definition w).2.limit = _ ∧ _
    rw [Entry.expression, ran]
    refine ⟨rfl, fun name other => local?_defined rooted f other, fun g same => ?_⟩
    cases same
    exact ⟨_, provides_defined rooted f⟩
  | synonym name other =>
    -- A synonym of something that means nothing binds nothing.
    by_cases failed : (w.scopes.lookup Scopes.global other).isError
    · have ran : evaluate Scopes.global (define name (.symbol other)) w =
          (w.scopes.lookup Scopes.global other, w) := by
        have fails : Evaluates eval 1 Scopes.global (define name (.symbol other)) w
            (w.scopes.lookup Scopes.global other) w :=
          .failed (.cons (evaluates_primitive _) (.cons (evaluates_qexpr _)
            (.cons (evaluates_symbol rfl) evaluatesAll_nil))) (by simp [failed])
        exact fails w.limit (by omega)
      rw [Entry.expression, ran]
      exact ⟨rfl, fun _ _ => rfl, nofun⟩
    -- Otherwise the synonym means what the other name means.
    · have means : Evaluates eval 0 Scopes.global (.symbol other) w _ w := evaluates_symbol rfl
      have ran : evaluate Scopes.global (define name (.symbol other)) w = _ :=
        evaluates_define means (Bool.eq_false_iff.mpr failed) name w.limit (by omega)
      rw [Entry.expression, ran]
      refine ⟨rfl, fun key apart => ?_, nofun⟩
      exact (Scopes.local?_bind ..).trans (if_neg fun same => apart same.2.1)

/-- Entries with different names are evaluated in order, and all functions among them are provided. -/
theorem adopts_each (list : List Entry) : ∀ {w : World Value}, w.Rooted → 4 ≤ w.limit →
    w.scopes.local? Scopes.global definer.name = some (definer.closure Scopes.global) →
    (list.map Entry.name).Nodup → definer.name ∉ list.map Entry.name →
    (∀ e ∈ list, ∀ rule, e.expression.Obeys rule) →
    let w' := after (each evaluate Scopes.global (list.map Entry.expression)) w
    w.scopes.Spares (· = Scopes.global) w'.scopes ∧
    (∀ name ∉ list.map Entry.name,
      w'.scopes.local? Scopes.global name = w.scopes.local? Scopes.global name) ∧
    ∀ f, .function f ∈ list → ∃ s, w'.Provides f s := by
  -- The induction is on the entries; later ones leave what the first has bound.
  induction list with
  | nil => exact fun _ _ _ _ _ _ => ⟨.refl _ _, fun _ _ => rfl, nofun⟩
  | cons e rest ih =>
    intro w rooted room bound once apart plain
    rw [List.map_cons, List.nodup_cons] at once
    rw [List.map_cons, List.mem_cons, not_or] at apart
    -- The first entry is evaluated by itself.
    have first := adopts_evaluate rooted room bound e (plain e List.mem_cons_self _)
    obtain ⟨written, kept, provided⟩ := ih first.rooted (first.limit ▸ room)
      ((first.others _ apart.1).trans bound) once.2 apart.2
      fun e member => plain e (List.mem_cons_of_mem _ member)
    rw [List.map_cons, after_each_cons]
    refine ⟨first.spares.trans (written.mono fun _ _ => .inl), fun name other => ?_, fun f member => ?_⟩
    -- A name of no entry means what it meant.
    · rw [List.map_cons, List.mem_cons, not_or] at other
      exact (kept name other.2).trans (first.others name other.1)
    -- The first function is left alone by the others, since no two have one name.
    · rcases List.mem_cons.mp member with same | later
      · obtain ⟨s, provides⟩ := first.provides f same.symm
        refine ⟨s, provides.kept first.rooted.ordered written.below (kept f.name ?_)⟩
        exact fun member => once.1 (same ▸ member)
      · exact provided f later

/-- A world in which the library is in place. -/
structure Furnished (w : World Value) : Prop where
  /-- There is a name for the empty list. -/
  nil : w.scopes.local? Scopes.global "nil" = some (.qexpr [])
  /-- Functions are defined by `fun`. -/
  definer : w.scopes.local? Scopes.global definer.name = some (definer.closure Scopes.global)
  /-- Every function of the library is provided. -/
  function (f : Function) : .function f ∈ entries → ∃ s, w.Provides f s

/-- A world in which the first definitions have bound their names. -/
def withBasics (w : World Value) : World Value :=
  let named := (w.scopes.bind Scopes.global "nil" (.qexpr [])).bind Scopes.global "otherwise" (.bool true)
  assigned { w with scopes := named } Library.definer

/-- The first definitions bind their names. -/
theorem after_basics (room : 4 ≤ w.limit) :
    after (each evaluate Scopes.global basics) w = w.withBasics := by
  -- Each of the three needs less room than there is.
  have nil : Evaluates eval 1 Scopes.global (define "nil" (.qexpr [])) w .unit _ :=
    evaluates_define (evaluates_qexpr []) rfl "nil"
  let w₁ : World Value := { w with scopes := w.scopes.bind Scopes.global "nil" (.qexpr []) }
  have otherwise : Evaluates eval 1 Scopes.global (define "otherwise" (.bool true)) w₁ .unit _ :=
    evaluates_define (evaluates_bool true) rfl "otherwise"
  let w₂ : World Value := { w₁ with scopes := w₁.scopes.bind Scopes.global "otherwise" (.bool true) }
  -- `fun` itself is written out, since there is nothing yet to define it with.
  have definer : Evaluates eval 2 Scopes.global Library.definer.longhand w₂ .unit _ :=
    evaluates_longhand w₂ Library.definer
  rw [basics, after_each_cons, after_each_cons, after_each_cons]
  -- After each of them the world is the one that was named.
  have first : after (evaluate Scopes.global (define "nil" (.qexpr []))) w = w₁ :=
    congrArg Prod.snd (nil w.limit (by omega))
  have second : after (evaluate Scopes.global (define "otherwise" (.bool true))) w₁ = w₂ :=
    congrArg Prod.snd (otherwise w.limit (by omega))
  rw [first, second]
  exact congrArg Prod.snd (definer w.limit (by omega))

/-- The world that a program starts in is one in which the entries have been evaluated. -/
theorem standard_eq (files : Files) : standard files =
    after (each evaluate Scopes.global (entries.map Entry.expression)) (withPrimitives files).withBasics := by
  have room : 4 ≤ (withPrimitives files).limit := show 4 ≤ defaultLimit by decide
  rw [standard, expressions_eq, after_each_append, after_basics room]

/-- The definitions of the library hold no functions. -/
theorem obeys_definition : ∀ v ∈ basics ++ entries.map Entry.expression, ∀ rule, v.Obeys rule := by
  rw [← expressions_eq]
  exact fun v member _ => Library.obeys_expression v member

/-- The library is in place in the world that a program starts in. -/
theorem furnished_standard (files : Files) : (standard files).Furnished := by
  -- The first definitions are evaluated by themselves, and then the entries.
  let start := withPrimitives files
  have primitives : start.Rooted := rooted_withPrimitives files
  have room : 4 ≤ start.limit := show 4 ≤ defaultLimit by decide
  have rooted := primitives.each fun v member => obeys_definition v (List.mem_append_left _ member)
  rw [after_basics room] at rooted
  have bound (name : String) := Scopes.local?_bind ((start.scopes.bind Scopes.global "nil"
    (.qexpr [])).bind Scopes.global "otherwise" (.bool true)) Scopes.global Scopes.global
    Library.definer.name name (Library.definer.closure Scopes.global)
  have definer := (bound Library.definer.name).trans (if_pos ⟨rfl, rfl, by simpa using primitives.global⟩)
  obtain ⟨_, kept, provided⟩ := adopts_each entries rooted room definer (by decide) (by decide)
    fun e member => obeys_definition _ (List.mem_append_right _ (List.mem_map_of_mem member))
  rw [standard_eq]
  refine ⟨?_, (kept _ (by decide)).trans definer, provided⟩
  -- The other two names are bound before the entries, none of which binds them.
  rw [kept _ (by decide)]
  refine (bound "nil").trans ?_
  simp [Library.definer, Scopes.local?_bind, primitives.global]

/-- The library is in place while its names are bound globally as they were at first. -/
theorem Furnished.kept (furnished : w.Furnished) (ordered : w.scopes.ParentsFirst)
    (below : w.scopes.ExtendsBelow w'.scopes)
    (same : ∀ name ∈ Library.names,
      w'.scopes.local? Scopes.global name = w.scopes.local? Scopes.global name) : w'.Furnished := by
  refine ⟨(same _ (by decide)).trans furnished.nil, (same _ (by decide)).trans furnished.definer,
    fun f member => ?_⟩
  obtain ⟨s, provides⟩ := furnished.function f member
  exact ⟨s, provides.kept ordered below (same f.name (name_mem_names member))⟩

end World
end QLisp
