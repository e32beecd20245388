import QLisp.Proofs.Program.Completing
import QLisp.Proofs.Shared.Currying
import QLisp.Proofs.Shared.Library

/-!
The functions of the library that call a function, in place.

What `map`, `filter` and `foldl` do to the machine is what calling the function on the elements in turn
does. The scopes that they make for themselves are seen by nobody else.
-/

namespace QLisp.Shared

open Library Run

variable {mine store : CellId → Prop} {m m' : Machine} {w w' : World Value} {scope s : ScopeId}
  {t v f z : Value} {l vs : List Value} {files : Files} {n : Nat}

/-- The names of the library are bound globally as they were at first. -/
def Machine.BindsLibrary (files : Files) (m : Machine) : Prop :=
  ∀ name ∈ Library.names,
    m.binding? Scopes.global name = (Machine.standard files).binding? Scopes.global name

namespace Act

/-- Expressions are evaluated one after the other, each in fresh containers, and lead to their values. -/
inductive Runs (scope : ScopeId) : List Value → Machine → List Value → Machine → Prop where
  /-- No expression is left. -/
  | none (m : Machine) : Runs scope [] m [] m
  /-- The first expression is evaluated, and then the others. -/
  | next {t : Value} {rest vs : List Value} {m m' m'' : Machine} {v : Handle}
      (ran : evaluateFresh scope t m = .ok v m') (others : Runs scope rest m' vs m'') :
      Runs scope (t :: rest) m (m'.heap.view v :: vs) m''

/--
A function is called on the result so far and elements in turn, each time in fresh containers.

The first call that gives an error ends this.
-/
inductive Folds (scope : ScopeId) (f : Value) :
    Value → List Value → Machine → Value → Machine → Prop where
  /-- No element is left. -/
  | none (z : Value) (m : Machine) : Folds scope f z [] m z m
  /-- The first call gives an error. -/
  | stop {z e : Value} {m m' : Machine} {v : Handle} (rest : List Value)
      (ran : evaluateFresh scope (.sexpr [f, z, e]) m = .ok v m') (failed : (m'.heap.view v).isError) :
      Folds scope f z (e :: rest) m (m'.heap.view v) m'
  /-- The first call gives a value, with which the others go on. -/
  | next {z e t : Value} {rest : List Value} {m m' m'' : Machine} {v : Handle}
      (ran : evaluateFresh scope (.sexpr [f, z, e]) m = .ok v m')
      (fine : ¬ (m'.heap.view v).isError)
      (others : Folds scope f (m'.heap.view v) rest m' t m'') : Folds scope f z (e :: rest) m t m''

end Act

/-- A run of one expression is its evaluation. -/
theorem Act.Runs.single (runs : Act.Runs scope [t] m vs m') :
    ∃ v, vs = [m'.heap.view v] ∧ Act.evaluateFresh scope t m = .ok v m' := by
  cases runs with
  | next ran others =>
    cases others
    exact ⟨_, rfl, ran⟩

/-- What is settled in a world lives on a machine that mirrors it. -/
theorem Mirrors.lives (mirrors : Mirrors True mine store m w) (regular : t.Regular)
    (closed : Closed w.scopes t) : t.Obeys m.lives := by
  refine (regular.obeys closed).mono ?_
  rintro _ _ _ ⟨quoted, s, rfl, made⟩
  exact ⟨quoted, s, rfl, mirrors.made.mp made⟩

/-- Expressions in place lead to what evaluating them in turn gives. -/
theorem Mirrors.runs (ts : List Value) : ∀ {m w store}, Mirrors True (fun _ => True) store m w →
    m.world.scopes.Made scope → (∀ t ∈ ts, t.Obeys m.lives) →
    let outcome := each (eval (m.world.limit - m.depth)) scope ts w
    ∃ m' store', Act.Runs scope ts m outcome.1 m' ∧
      Mirrors True (fun _ => True) store' m' outcome.2 := by
  -- The induction is on the expressions; each starts on the machine that the last one left.
  induction ts with
  | nil => exact fun mirrors _ _ => ⟨_, _, .none _, mirrors⟩
  | cons t rest ih =>
    intro m w store mirrors made lives
    obtain ⟨v, m₁, store₁, ran, mirrors₁, moves, ids, holds, free⟩ :=
      (Act.follows_evaluateFresh mirrors made (lives t List.mem_cons_self)).ok
    obtain ⟨m₂, store₂, others, mirrors₂⟩ := ih mirrors₁ (moves.scopes scope made) fun t member =>
      Machine.lives_later (lives t (List.mem_cons_of_mem _ member)) moves.scopes
    have first := Act.Runs.next ran others
    -- The first call changes neither the limit nor the depth.
    rw [moves.limit, moves.depth] at first mirrors₂
    rw [(free.stands holds).view] at first
    rw [each_cons]
    exact ⟨m₂, store₂, first, mirrors₂⟩

/-- Calls on the result so far and elements in place lead to what combining these gives. -/
theorem Mirrors.folds (l : List Value) : ∀ {m w store z}, Mirrors True (fun _ => True) store m w →
    m.world.scopes.Made scope → w.Rooted → w.Tidy → (∀ t ∈ f :: z :: l, t.Obeys m.lives ∧ t.Regular) →
    let outcome := combine (eval (m.world.limit - m.depth)) scope f z l w
    ∃ m' store', Act.Folds scope f z l m outcome.1 m' ∧
      Mirrors True (fun _ => True) store' m' outcome.2 := by
  -- The induction is on the elements; what a call gives can be handed to the next one.
  induction l with
  | nil => exact fun mirrors _ _ _ _ => ⟨_, _, .none _ _, mirrors⟩
  | cons e rest ih =>
    intro m w store z mirrors made rooted tidy given
    have inside : [f, z, e] ⊆ f :: z :: e :: rest := by simp
    have regular : (Value.sexpr [f, z, e]).Regular :=
      Value.regular_list.mpr fun t member => (given t (inside member)).2
    have lives : (Value.sexpr [f, z, e]).Obeys m.lives :=
      Value.obeyAll_iff.mpr fun t member => (given t (inside member)).1
    obtain ⟨v, m₁, store₁, ran, mirrors₁, moves, ids, holds, free⟩ :=
      (Act.follows_evaluateFresh mirrors made lives).ok
    -- What the call gives is what the world gives, so it is settled and closed.
    have view := (free.stands holds).view
    have settles : Keeps w (eval (m.world.limit - m.depth) scope (.sexpr [f, z, e]))
        (evalVia Run.call (m.world.limit - m.depth) scope (.sexpr [f, z, e])) Value.Settled :=
      settles_eval agrees_call _ tidy regular
    have frames := framing_eval (m.world.limit - m.depth) rooted (mirrors.made.mpr made)
      (mirrors.closes lives)
    have rooted₁ := frames.rooted
    have closed := frames.good
    have tidy₁ := settles.tidy
    have settled := settles.good
    rw [combine_cons]
    generalize eval (m.world.limit - m.depth) scope (.sexpr [f, z, e]) w = first at *
    obtain ⟨r, w₁⟩ := first
    obtain rfl : m₁.heap.view v = r := view
    -- A failure ends the calls, and any other result goes into the next one.
    by_cases failed : (m₁.heap.view v).isError
    · simp only [if_pos failed]
      exact ⟨m₁, store₁, .stop rest ran failed, mirrors₁⟩
    · simp only [if_neg failed]
      -- The result lives on the machine that the call has left, and so does what there was.
      have given₁ : ∀ t ∈ f :: m₁.heap.view v :: rest, t.Obeys m₁.lives ∧ t.Regular := by
        intro t member
        rcases List.mem_cons.mp member with rfl | member
        · exact (given _ List.mem_cons_self).imp_left (Machine.lives_later · moves.scopes)
        rcases List.mem_cons.mp member with rfl | member
        · exact ⟨mirrors₁.lives settled.regular closed, settled.regular⟩
        · exact (given t (by simp [member])).imp_left (Machine.lives_later · moves.scopes)
      obtain ⟨m₂, store₂, others, mirrors₂⟩ := ih mirrors₁ (moves.scopes scope made) rooted₁ tidy₁ given₁
      rw [moves.limit, moves.depth] at others mirrors₂
      exact ⟨m₂, store₂, .next ran failed others, mirrors₂⟩

/-- Machines that come from one machine had the same effects when their worlds come from its world. -/
theorem Mirrors.sameEffects {c : Comparison} {m₁ m₂ : Machine} {store₁ store₂ : CellId → Prop}
    {u u' : World Value} (mirrors : Mirrors True mine store m w) (abreast : w.Abreast c u u')
    (mirrors₁ : Mirrors True mine store₁ m₁ u) (mirrors₂ : Mirrors True mine store₂ m₂ u') :
    m.SameEffects m (c.link u.scopes) m₁ m₂ :=
  Machine.sameEffects_of_related abreast.related mirrors₁ mirrors₂ abreast.exact
    (fun s there => abreast.itself s (mirrors.made.mpr there))
    ⟨mirrors.output.trans abreast.output.1, mirrors.output.trans abreast.output.2⟩
    ⟨mirrors.asked.trans abreast.asked.1, mirrors.asked.trans abreast.asked.2⟩

/-- Worlds of machines that bind the names of the library as they were at first bind them alike. -/
theorem Mirrors.keeps (mirrors : Mirrors True mine store m w) (binds : m.BindsLibrary files)
    {store' : CellId → Prop} (mirrors' : Mirrors True mine store' m' w') (binds' : m'.BindsLibrary files) :
    w.Keeps w' := by
  intro name member
  rw [← mirrors.binding?, ← mirrors'.binding?, binds name member, binds' name member]

/-- What a function and elements to call it on have to be like. -/
structure Machine.Hands (m : Machine) (f : Value) (l : List Value) : Prop where
  /-- There is a function. -/
  lambda : f.kind = .lambda
  /-- It lives on the machine, like the elements. -/
  lives : ∀ t ∈ f :: l, t.Obeys m.lives
  /-- It is well formed, like the elements. -/
  regular : ∀ t ∈ f :: l, t.Regular
  /-- The elements stand for themselves. -/
  normal : ∀ e ∈ l, e.isNormal

/-- The calls of a function on the elements of a list. -/
def calls (f : Value) (l : List Value) : List Value :=
  l.map fun e => .sexpr [f, e]

/-- The function stands for itself, too. -/
theorem Machine.Hands.function (hands : m.Hands f l) : f.isNormal := by
  have regular := hands.regular f List.mem_cons_self
  have lambda := hands.lambda
  cases f with
  | lambda formals body captured => exact regular.lambda.final.resolve_right (by simp)
  | bare tag => exact regular.elim
  | _ => simp [Value.kind] at lambda

/-- Some of the elements will do, too. -/
theorem Machine.Hands.part {first : List Value} (hands : m.Hands f l) (fewer : first ⊆ l) :
    m.Hands f first where
  lambda := hands.lambda
  lives t member := hands.lives t (List.cons_subset_cons f fewer member)
  regular t member := hands.regular t (List.cons_subset_cons f fewer member)
  normal e member := hands.normal e (fewer member)

/-- In the world of the machine the function and the elements are normal and closed. -/
theorem Machine.Hands.closed (hands : m.Hands f l) (mirrors : Mirrors True (fun _ => True) store m w) :
    (f.isNormal ∧ Closed w.scopes f) ∧ ∀ e ∈ l, e.isNormal ∧ Closed w.scopes e :=
  ⟨⟨hands.function, mirrors.closes (hands.lives f List.mem_cons_self)⟩, fun e inside =>
    ⟨hands.normal e inside, mirrors.closes (hands.lives e (List.mem_cons_of_mem _ inside))⟩⟩

section Visits

variable {m₁ : Machine} {store₁ : CellId → Prop} {x : World Value} {less : Nat} {rs : List Value}

/-- Visits to elements in a world correspond to the calls on them, made beside the visits. -/
theorem Mirrors.calls_visit (mirrors : Mirrors True (fun _ => True) store m w) (rooted : w.Rooted)
    (made : m.world.scopes.Made scope) (hands : m.Hands f l) (positive : 0 < less)
    (left : m.world.limit - m.depth = less + 1) (visits : Visits less scope f l w rs x) :
    ∃ c vs m₂ store₂ u, Act.Runs scope (calls f l) m vs m₂ ∧ Mirrors True (fun _ => True) store₂ m₂ u ∧
      w.Abreast c x u ∧ List.Forall₂ (Value.Related Eq (c.link x.scopes)) rs vs := by
  obtain ⟨function, elements⟩ := hands.closed mirrors
  have alive : ∀ t ∈ calls f l, t.Obeys m.lives := by
    intro t inside
    obtain ⟨e, member, rfl⟩ := List.mem_map.mp inside
    exact ⟨hands.lives f List.mem_cons_self, hands.lives e (List.mem_cons_of_mem _ member), trivial⟩
  -- Each visit in the body is a call of the function, which is made on the machine as well.
  obtain ⟨c, abreast, _, results⟩ := visits.abreast positive function (mirrors.made.mpr made) elements
    (.start rooted)
  obtain ⟨m₂, store₂, runs, mirrors₂⟩ := mirrors.runs (calls f l) made alive
  rw [left] at runs mirrors₂
  rw [Comparison.values, abreast.exact] at results
  exact ⟨c, _, m₂, store₂, _, runs, mirrors₂, abreast, results⟩

/-- When the calls redefine no name of the library, the visits do not either. -/
theorem Mirrors.visits_keep (mirrors : Mirrors True (fun _ => True) store m w) (rooted : w.Rooted)
    (made : m.world.scopes.Made scope) (binds : m.BindsLibrary files) (hands : m.Hands f l)
    (kept : ∀ vs m', Act.Runs scope (calls f l) m vs m' → m'.BindsLibrary files) (positive : 0 < less)
    (left : m.world.limit - m.depth = less + 1) (visits : Visits less scope f l w rs x) : w.Keeps x := by
  obtain ⟨c, vs, m₂, store₂, u, runs, mirrors₂, abreast, _⟩ :=
    mirrors.calls_visit rooted made hands positive left visits
  exact abreast.keeps rooted (mirrors.keeps binds mirrors₂ (kept vs m₂ runs))

/-- A machine that has come to the end of the visits had the effects of the calls. -/
theorem Mirrors.visited (mirrors : Mirrors True (fun _ => True) store m w) (rooted : w.Rooted)
    (made : m.world.scopes.Made scope) (hands : m.Hands f l) (positive : 0 < less)
    (left : m.world.limit - m.depth = less + 1) (visits : Visits less scope f l w rs x)
    (mirrors₁ : Mirrors True (fun _ => True) store₁ m₁ x) :
    ∃ vs m₂ link, Act.Runs scope (calls f l) m vs m₂ ∧ m.SameEffects m link m₁ m₂ ∧
      List.Forall₂ (Value.Related Eq link) rs vs := by
  obtain ⟨c, vs, m₂, store₂, u, runs, mirrors₂, abreast, results⟩ :=
    mirrors.calls_visit rooted made hands positive left visits
  exact ⟨vs, m₂, _, runs, mirrors.sameEffects abreast mirrors₁ mirrors₂, results⟩

end Visits

/-- What a function of the library does that goes through a list is what the calls on its elements do. -/
theorem Mirrors.walks {name : String} {joint item j : Value} {given : Value → Value → Value}
    {parts : Value → List Value} (mirrors : Mirrors True (fun _ => True) store m w) (rooted : w.Rooted)
    (knows : w.Knows scope) (binds : m.BindsLibrary files) (hands : m.Hands f l)
    (kept : ∀ first rest vs m', l = first ++ rest → Act.Runs scope (calls f first) m vs m' →
      m'.BindsLibrary files)
    (walks : ∀ path room, Walks path w room scope f name joint item given parts j)
    (member : .function (walk name joint item) ∈ entries) (free : name ∉ "f" :: "l" :: definer.formals)
    (allowed : m.HasRoom scope (.sexpr [.symbol name, f, .qexpr l])) :
    ∃ v m₁ vs m₂ rs link, Act.evaluateFresh scope (.sexpr [.symbol name, f, .qexpr l]) m = .ok v m₁ ∧
      Act.Runs scope (calls f l) m vs m₂ ∧ m.SameEffects m link m₁ m₂ ∧
      rs.length = l.length ∧ List.Forall₂ (Value.Related Eq link) rs vs ∧
      m₁.heap.view v = gathered parts (List.zipWith given rs l) := by
  have made : m.world.scopes.Made scope := mirrors.made.mp knows.made
  have whole : (Value.sexpr [.symbol name, f, .qexpr l]).Obeys m.lives :=
    ⟨trivial, hands.lives f List.mem_cons_self, Value.obeyAll_iff.mpr fun t inside =>
      hands.lives t (List.mem_cons_of_mem _ inside), trivial⟩
  obtain ⟨function, elements⟩ := hands.closed mirrors
  -- The call is allowed, and tells of no refusal.
  obtain ⟨path, v, m₁, store₁, ran, quiet, mirrors₁, _, ids, holds, live⟩ :=
    mirrors.quiet made whole allowed
  have passes : Passes path (evalNoting path (m.world.limit - m.depth) scope
      (.sexpr (.symbol (walk name joint item).name :: f :: [.qexpr l]))) w _ _ := ⟨rfl, quiet⟩
  obtain ⟨s, less, provides, left, call⟩ := passes_of_knows knows member
    (List.forall_mem_cons.mpr ⟨function.1, List.forall_mem_singleton.mpr rfl⟩) passes
  have positive := call.positive (by simp [Function.Plain, walk, variadicMarker]) rfl
  -- The calls redefine no name of the library, so they do not either in the body of the function.
  have keeps (first rest vs : List Value) (x : World Value) (split : l = first ++ rest)
      (visits : Visits less scope f first w vs x) : w.Keeps x :=
    mirrors.visits_keep rooted made binds (hands.part (split ▸ List.subset_append_left first rest))
      (fun vs m' runs => kept first rest vs m' split runs) positive left visits
  -- The walk visits the elements, and the calls made beside it correspond to the visits.
  obtain ⟨rs, visits, value, _⟩ := (walks path less).visits hands.lambda knows.equipped provides member
    free l (knows.equipped.advances (.refl w)) rooted function.2 elements keeps (Nat.le_refl _) call
  obtain ⟨vs, m₂, link, runs, same, results⟩ :=
    mirrors.visited rooted made hands positive left visits mirrors₁
  exact ⟨v, m₁, vs, m₂, rs, link, ran, runs, same, visits.length, results,
    (live.stands holds).view.trans value⟩

/-- What `foldl` does is what the calls on the result so far and the elements do. -/
theorem Mirrors.combines (mirrors : Mirrors True (fun _ => True) store m w) (rooted : w.Rooted)
    (tidy : w.Tidy) (knows : w.Knows scope) (binds : m.BindsLibrary files) (hands : m.Hands f (z :: l))
    (kept : ∀ first rest t m', l = first ++ rest → Act.Folds scope f z first m t m' →
      m'.BindsLibrary files)
    (allowed : m.HasRoom scope (.sexpr [.symbol "foldl", f, z, .qexpr l])) :
    ∃ v m₁ t m₂ link, Act.evaluateFresh scope (.sexpr [.symbol "foldl", f, z, .qexpr l]) m = .ok v m₁ ∧
      Act.Folds scope f z l m t m₂ ∧ m.SameEffects m link m₁ m₂ ∧
      Value.Related Eq link (m₁.heap.view v) t := by
  -- The function, the first result and the elements may all be handed to a call.
  have made : m.world.scopes.Made scope := mirrors.made.mp knows.made
  have start : z.Regular ∧ z.isNormal ∧ Closed w.scopes z := by
    have inside : z ∈ f :: z :: l := by simp
    exact ⟨hands.regular z inside, hands.normal z List.mem_cons_self, mirrors.closes (hands.lives z inside)⟩
  have function : f.Regular ∧ f.isNormal ∧ Closed w.scopes f := ⟨hands.regular f List.mem_cons_self,
    hands.function, mirrors.closes (hands.lives f List.mem_cons_self)⟩
  have elements : ∀ e ∈ l, e.Regular ∧ e.isNormal ∧ Closed w.scopes e := fun e member => by
    have inside : e ∈ f :: z :: l := by simp [member]
    exact ⟨hands.regular e inside, hands.normal e (List.mem_cons_of_mem _ member),
      mirrors.closes (hands.lives e inside)⟩
  have alive {first : List Value} (fewer : first ⊆ l) :
      ∀ t ∈ f :: z :: first, t.Obeys m.lives ∧ t.Regular := by
    intro t member
    have inside : t ∈ f :: z :: l :=
      List.cons_subset_cons f (List.cons_subset_cons z fewer) member
    exact ⟨hands.lives t inside, hands.regular t inside⟩
  have whole : (Value.sexpr [.symbol "foldl", f, z, .qexpr l]).Obeys m.lives :=
    ⟨trivial, hands.lives f (by simp), hands.lives z (by simp), Value.obeyAll_iff.mpr fun t inside =>
      hands.lives t (by simp [inside]), trivial⟩
  -- The call is allowed, and tells of no refusal.
  obtain ⟨path, v, m₁, store₁, ran, quiet, mirrors₁, _, ids, holds, live⟩ :=
    mirrors.quiet made whole allowed
  have passes : Passes path (evalNoting path (m.world.limit - m.depth) scope
      (.sexpr (.symbol foldl.name :: f :: [z, .qexpr l]))) w _ _ := ⟨rfl, quiet⟩
  obtain ⟨s, less, provides, left, call⟩ := passes_of_knows knows (by simp [entries])
    (List.forall_mem_cons.mpr ⟨function.2.1, List.forall_mem_cons.mpr
      ⟨start.2.1, List.forall_mem_singleton.mpr rfl⟩⟩) passes
  have positive := call.positive (by decide) rfl
  -- The calls redefine no name of the library and give normal values or errors, also in the body.
  have keeps (first rest : List Value) (t : Value) (x : World Value) (split : l = first ++ rest)
      (combines : Combines less scope f z first w t x) : w.Keeps x ∧ (t.isNormal ∨ t.isError) := by
    have fewer : first ⊆ l := split ▸ List.subset_append_left first rest
    have itself := World.Abreast.start rooted
    obtain ⟨c, abreast, result, settled⟩ := combines.abreast positive function knows.made
      (fun e inside => elements e (fewer inside)) tidy ⟨start.1, start.2.1⟩ (itself.closed start.2.2) itself
    obtain ⟨m', store', folds, mirrors'⟩ := mirrors.folds first made rooted tidy (alive fewer)
    rw [left] at folds mirrors'
    refine ⟨abreast.keeps rooted (mirrors.keeps binds mirrors' (kept first rest _ m' split folds)), ?_⟩
    rw [result.isNormal, result.isError]
    exact settled.final
  -- The fold combines the elements, and the calls made beside it correspond to that.
  have combines := foldl_combines hands.lambda l knows.equipped provides rooted function.2.2
    (Value.isError_of_isNormal start.2.1) start.2.2 (fun e inside => (elements e inside).2) keeps
    (Nat.le_refl _) call
  have itself := World.Abreast.start rooted
  obtain ⟨c, abreast, result, _⟩ := combines.abreast positive function knows.made elements tidy
    ⟨start.1, start.2.1⟩ (itself.closed start.2.2) itself
  -- The same calls are folded on the machine.
  obtain ⟨m₂, store₂, folds, mirrors₂⟩ := mirrors.folds l made rooted tidy (alive fun _ => id)
  rw [left] at folds mirrors₂
  rw [Comparison.values, abreast.exact] at result
  exact ⟨v, m₁, _, m₂, _, ran, folds, mirrors.sameEffects abreast mirrors₁ mirrors₂,
    (live.stands holds).view ▸ result⟩

/--
The functions of the library that call a function are right about results and effects.

After any requests to a session, let the names of the library be bound globally as they were at first
and mean that in a scope, and let no call of the function on the elements redefine one. Then, unless a
reduction is refused, `map` does what calling the function on each element in turn does, whatever the
calls give, and gives the list of the results or the first error among them. `filter` does the same, and
when all results are truth values or numbers it gives the elements for which they hold. `foldl` does what
calling the function on the result so far and each element in turn does, up to the first error, and gives
the last result. The scopes that there were are the same in the end, also the global one, and so are the
output and the files that were asked for.
-/
theorem functions_on_elements (files : Files) (requests : List Request) :
    ∃ m, requests.forM Act.perform (Machine.standard files) = .ok () m ∧
      ∀ (depth : Nat) (scope : ScopeId), m.world.scopes.Made scope → m.KeepsLibrary files scope →
        let here := { m with depth := depth }
        (∀ f l, here.Hands f l →
          (∀ first rest vs m', l = first ++ rest → Act.Runs scope (calls f first) here vs m' →
            m'.BindsLibrary files) →
          (here.HasRoom scope (.sexpr [.symbol "map", f, .qexpr l]) → ∃ v m₁ vs m₂ link,
            Act.evaluateFresh scope (.sexpr [.symbol "map", f, .qexpr l]) here = .ok v m₁ ∧
              Act.Runs scope (calls f l) here vs m₂ ∧ here.SameEffects here link m₁ m₂ ∧
              Value.Related Eq link (m₁.heap.view v) ((vs.find? (·.isError)).getD (.qexpr vs))) ∧
          (here.HasRoom scope (.sexpr [.symbol "filter", f, .qexpr l]) → ∃ v m₁ vs m₂ link,
            Act.evaluateFresh scope (.sexpr [.symbol "filter", f, .qexpr l]) here = .ok v m₁ ∧
              Act.Runs scope (calls f l) here vs m₂ ∧ here.SameEffects here link m₁ m₂ ∧
              ((∀ r ∈ vs, r.kind = .bool ∨ r.kind = .number) →
                m₁.heap.view v = .qexpr (((l.zip vs).filter (·.2.isTruthy)).map (·.1))))) ∧
        ∀ f z l, here.Hands f (z :: l) →
          (∀ first rest t m', l = first ++ rest → Act.Folds scope f z first here t m' →
            m'.BindsLibrary files) →
          here.HasRoom scope (.sexpr [.symbol "foldl", f, z, .qexpr l]) → ∃ v m₁ t m₂ link,
            Act.evaluateFresh scope (.sexpr [.symbol "foldl", f, z, .qexpr l]) here = .ok v m₁ ∧
              Act.Folds scope f z l here t m₂ ∧ here.SameEffects here link m₁ m₂ ∧
              Value.Related Eq link (m₁.heap.view v) t := by
  obtain ⟨m, store, w, ran, mirrors, rooted, tidy, known⟩ := session_knows files requests
  refine ⟨m, ran, fun depth scope made keeps => ?_⟩
  intro here
  have knows := known scope made keeps
  have binds : here.BindsLibrary files := fun name member => (keeps name member).1
  have mirrored : Mirrors True (fun _ => True) store here w := mirrors.atDepth _
  refine ⟨fun f l hands kept => ⟨fun allowed => ?_, fun allowed => ?_⟩, fun f z l hands kept allowed =>
    mirrored.combines rooted tidy knows binds hands kept allowed⟩
  -- `map` keeps what each call gives, whatever the element.
  · obtain ⟨v, m₁, vs, m₂, rs, link, ran, runs, same, paired, results, value⟩ := mirrored.walks rooted knows
      binds hands kept (fun path room => walks_map path w room scope hands.lambda) (by simp [entries, map])
      (by decide) allowed
    have every : List.zipWith (fun r _ => r) rs l = rs := by
      have first := List.map_fst_zip paired.le
      rwa [List.map_zip_eq_zipWith] at first
    rw [every] at value
    exact ⟨v, m₁, vs, m₂, link, ran, runs, same, value ▸ gathered_related results⟩
  -- The results decide which elements `filter` keeps.
  · obtain ⟨s, provides, _⟩ := knows.provides append (by simp [entries])
    obtain ⟨v, m₁, vs, m₂, rs, link, ran, runs, same, paired, results, value⟩ := mirrored.walks rooted knows
      binds hands kept (fun path room => walks_filter path room scope hands.lambda knows.equipped provides)
      (by simp [entries, filter]) (by decide) allowed
    refine ⟨v, m₁, vs, m₂, link, ran, runs, same, fun conditions => ?_⟩
    obtain rfl := conditions_eq results conditions
    exact value.trans (gathered_sift conditions l)

/-! ### Calls that complete -/

/-- What completes in a world does so on the machine, and leaves the names of the library alone. -/
theorem Mirrors.completed {good : Value → Prop} {u : Handle}
    (mirrors : Mirrors True (fun _ => True) store m w) (made : m.world.scopes.Made scope)
    (lives : t.Obeys m.lives) (ordered : w.scopes.ParentsFirst) (binds : m.BindsLibrary files)
    (roomy : n ≤ m.world.limit - m.depth)
    (completes : Completes n (fun room => eval room scope t) w good)
    (ran : Act.evaluateFresh scope t m = .ok u m') :
    ∃ x store', Mirrors True (fun _ => True) store' m' x ∧ w.Advances x ∧
      Moves (fun _ => True) store m store' m' ∧ m'.BindsLibrary files ∧ good (m'.heap.view u) := by
  obtain ⟨v, m₁, store₁, ran', mirrors₁, moves, ids, holds, free⟩ :=
    (Act.follows_evaluateFresh mirrors made lives).ok
  cases ran.symm.trans ran'
  obtain ⟨r, x, fits, advances, _, ends⟩ := completes w (.refl ordered)
  have ended : eval (m.world.limit - m.depth) scope t w = (r, x) := ends _ roomy
  have view := (free.stands holds).view
  rw [ended] at mirrors₁ view
  refine ⟨x, store₁, mirrors₁, advances, moves, fun name member => ?_, view ▸ fits⟩
  rw [mirrors₁.binding?, advances.names name member, ← mirrors.binding?, binds name member]

/-- Expressions that complete in turn leave the names of the library alone. -/
theorem Act.Runs.binds {ts : List Value} (runs : Act.Runs scope ts m vs m') :
    ∀ {store w}, Mirrors True (fun _ => True) store m w → m.world.scopes.Made scope →
      w.scopes.ParentsFirst → m.BindsLibrary files → n ≤ m.world.limit - m.depth →
      (∀ t ∈ ts, t.Obeys m.lives ∧ Completes n (fun room => Run.eval room scope t) w fun _ => True) →
      m'.BindsLibrary files := by
  -- The induction is on the run; each expression starts where the last one ended.
  induction runs with
  | none m => exact fun _ _ _ binds _ _ => binds
  | next ran others ih =>
    intro store w mirrors made ordered binds roomy completes
    obtain ⟨lives, first⟩ := completes _ List.mem_cons_self
    obtain ⟨x, store', mirrors', advances, moves, binds', _⟩ :=
      mirrors.completed made lives ordered binds roomy first ran
    refine ih mirrors' (moves.scopes scope made) advances.ordered binds' ?_ fun t member => ?_
    · rwa [moves.limit, moves.depth]
    · obtain ⟨lives, later⟩ := completes t (List.mem_cons_of_mem _ member)
      exact ⟨Machine.lives_later lives moves.scopes, later.later advances⟩

/-- So do calls on the result so far and elements. -/
theorem Act.Folds.binds {good : Value → Prop} (folds : Act.Folds scope f z l m t m')
    (plain : ∀ z, good z → ∀ rule, z.Obeys rule) :
    ∀ {store w}, Mirrors True (fun _ => True) store m w → m.world.scopes.Made scope →
      w.scopes.ParentsFirst → m.BindsLibrary files → n ≤ m.world.limit - m.depth → good z →
      (∀ e ∈ f :: l, e.Obeys m.lives) →
      (∀ z, good z → ∀ e ∈ l,
        Completes n (fun room => Run.eval room scope (.sexpr [f, z, e])) w (OrError good)) →
      m'.BindsLibrary files := by
  -- A fold is over, stops at an error or goes on with a result that fits.
  induction folds with
  | none z m => exact fun _ _ _ binds _ _ _ _ => binds
  | @stop z e m m' v rest ran failed =>
    intro store w mirrors made ordered binds roomy start lives completes
    have handed : (Value.sexpr [f, z, e]).Obeys m.lives :=
      ⟨lives f List.mem_cons_self, plain z start _, lives e (by simp), trivial⟩
    obtain ⟨_, _, _, _, _, binds', _⟩ := mirrors.completed made handed ordered binds roomy
      (completes _ start _ List.mem_cons_self) ran
    exact binds'
  | @next z e t rest m m' m'' v ran fine others ih =>
    intro store w mirrors made ordered binds roomy start lives completes
    have handed : (Value.sexpr [f, z, e]).Obeys m.lives :=
      ⟨lives f List.mem_cons_self, plain z start _, lives e (by simp), trivial⟩
    obtain ⟨x, store', mirrors', advances, moves, binds', fits⟩ := mirrors.completed made handed ordered
      binds roomy (completes _ start _ List.mem_cons_self) ran
    refine ih mirrors' (moves.scopes scope made) advances.ordered binds' ?_
      (fits.resolve_left fine) (fun e member => ?_) fun z start e member => ?_
    · rwa [moves.limit, moves.depth]
    · refine Machine.lives_later (lives e ?_) moves.scopes
      rcases List.mem_cons.mp member with rfl | member <;> simp_all
    · exact (completes z start e (List.mem_cons_of_mem _ member)).later advances

/-- Calls on elements that complete redefine no name of the library, however many have been made. -/
theorem Machine.Hands.runs_bind {first rest : List Value} (hands : m.Hands f l)
    (mirrors : Mirrors True (fun _ => True) store m w) (made : m.world.scopes.Made scope)
    (ordered : w.scopes.ParentsFirst) (binds : m.BindsLibrary files)
    (roomy : n + 2 ≤ m.world.limit - m.depth)
    (completes : ∀ e ∈ l, Completes (n + 1) (fun room => call (eval room) scope f [e]) w fun _ => True)
    (split : l = first ++ rest) (runs : Act.Runs scope (calls f first) m vs m') :
    m'.BindsLibrary files := by
  refine runs.binds mirrors made ordered binds roomy fun t member => ?_
  obtain ⟨e, inside, rfl⟩ := List.mem_map.mp member
  have given : e ∈ l := split ▸ List.mem_append_left rest inside
  exact ⟨⟨hands.lives f List.mem_cons_self, hands.lives e (List.mem_cons_of_mem _ given), trivial⟩,
    completes_application (by simp [hands.function, hands.normal e given]) (completes e given)⟩

/-- Nor do calls on the result so far and elements, when all results but errors fit. -/
theorem Machine.Hands.folds_bind {good : Value → Prop} {first rest : List Value}
    (hands : m.Hands f (z :: l)) (mirrors : Mirrors True (fun _ => True) store m w)
    (made : m.world.scopes.Made scope) (ordered : w.scopes.ParentsFirst) (binds : m.BindsLibrary files)
    (roomy : n + 2 ≤ m.world.limit - m.depth)
    (plain : ∀ z, good z → z.isNormal ∧ ∀ rule, z.Obeys rule) (start : good z)
    (completes : ∀ z, good z → ∀ e ∈ l,
      Completes (n + 1) (fun room => call (eval room) scope f [z, e]) w (OrError good))
    (split : l = first ++ rest) (folds : Act.Folds scope f z first m t m') : m'.BindsLibrary files := by
  have given : ∀ e ∈ first, e ∈ z :: l := fun e inside =>
    List.mem_cons_of_mem z (split ▸ List.mem_append_left rest inside)
  refine folds.binds (fun z fits => (plain z fits).2) mirrors made ordered binds roomy start
    (fun e member => ?_) fun z fits e member => ?_
  -- The function and the elements live on the machine, and stand for themselves in each call.
  · rcases List.mem_cons.mp member with rfl | member
    · exact hands.lives _ List.mem_cons_self
    · exact hands.lives e (List.mem_cons_of_mem _ (given e member))
  · refine completes_application ?_ (completes z fits e (split ▸ List.mem_append_left rest member))
    simp [hands.function, (plain z fits).1, hands.normal e (given e member)]

/-- A function that evaluates its argument may be called on lists that hold no functions. -/
theorem Machine.hands_evaluating {names : List String} (made : m.world.scopes.Made s)
    (elements : ∀ e ∈ l, e.isNormal ∧ e.Regular ∧ ∀ rule, e.Obeys rule) :
    m.Hands (evaluating names s) l where
  lambda := rfl
  lives t member := by
    rcases List.mem_cons.mp member with rfl | member
    · exact ⟨⟨⟨_, rfl⟩, _, rfl, made⟩, Value.obeyAll_iff.mpr (by simp [Value.Obeys]),
        trivial, trivial, trivial⟩
    · exact (elements t member).2.2 _
  regular t member := by
    rcases List.mem_cons.mp member with rfl | member
    · exact ⟨by simp [Value.isNames, Value.qexpr, Value.kind], rfl, trivial, trivial, trivial⟩
    · exact (elements t member).2.1
  normal e member := (elements e member).1

/--
A function that evaluates its argument is called on three lists.

The first one prints, the second one raises an error and the third one prints again, which `foldl` does
not come to any more.
-/
theorem functions_on_elements_printing :
    let f : Value := evaluating ["x"] Scopes.global
    let g : Value := evaluating ["z", "x"] Scopes.global
    let l : List Value := [.qexpr [.primitive .print, .string (Text.encode "a")],
      .qexpr [.primitive .error, .string (Text.encode "b")],
      .qexpr [.primitive .print, .string (Text.encode "c")]]
    ∃ m, [Request.limit 50].forM Act.perform (Machine.standard fun _ => .error .missing) = .ok () m ∧
      let here := { m with depth := 0 }
      (∃ v m₁ vs m₂ link,
        Act.evaluateFresh Scopes.global (.sexpr [.symbol "map", f, .qexpr l]) here = .ok v m₁ ∧
          Act.Runs Scopes.global (calls f l) here vs m₂ ∧ here.SameEffects here link m₁ m₂ ∧
          Value.Related Eq link (m₁.heap.view v) ((vs.find? (·.isError)).getD (.qexpr vs))) ∧
      (∃ v m₁ vs m₂ link,
        Act.evaluateFresh Scopes.global (.sexpr [.symbol "filter", f, .qexpr l]) here = .ok v m₁ ∧
          Act.Runs Scopes.global (calls f l) here vs m₂ ∧ here.SameEffects here link m₁ m₂) ∧
      ∃ v m₁ t m₂ link,
        Act.evaluateFresh Scopes.global (.sexpr [.symbol "foldl", g, .unit, .qexpr l]) here =
            .ok v m₁ ∧
          Act.Folds Scopes.global g .unit l here t m₂ ∧ here.SameEffects here link m₁ m₂ ∧
          Value.Related Eq link (m₁.heap.view v) t := by
  intro f g l
  obtain ⟨m, ran, right⟩ := functions_on_elements (fun _ => .error .missing) [.limit 50]
  obtain ⟨store, w, mirrors, rooted, knows, keeps, limit⟩ := limit_keeps (by decide) (by decide) ran
  obtain ⟨elements, folds⟩ := right 0 Scopes.global mirrors.global keeps
  let here : Machine := { m with depth := 0 }
  have idle : Mirrors True (fun _ => True) store here w := mirrors.atDepth _
  have binds : here.BindsLibrary _ := fun name member => (keeps name member).1
  have plain : ∀ e ∈ l, e.isNormal ∧ e.Regular ∧ ∀ rule, e.Obeys rule := by
    simp [l, Value.isNormal, Value.Regular, Value.RegularAll, Value.Obeys, Value.ObeyAll, Value.qexpr,
      Value.primitive]
  have hands : here.Hands f l := Machine.hands_evaluating mirrors.global plain
  have hands' : here.Hands g (.unit :: l) := by
    refine Machine.hands_evaluating mirrors.global (List.forall_mem_cons.mpr ⟨?_, plain⟩)
    exact ⟨rfl, trivial, fun _ => trivial⟩
  -- Each element prints a text or raises an error when it is evaluated.
  have items (ev : Nat → QLisp.Evaluator) [Stepwise ev] : ∀ e ∈ l, ∃ items, e = .qexpr items ∧
      ∀ own, Completes 2 (fun room => ev room own (.sexpr items)) w (OrError (· = .unit)) := by
    refine List.forall_mem_cons.mpr ⟨⟨_, rfl, fun own => ?_⟩, List.forall_mem_cons.mpr
      ⟨⟨_, rfl, fun own => ?_⟩, List.forall_mem_singleton.mpr ⟨_, rfl, fun own => ?_⟩⟩⟩
    · exact (completes_print _ own).imp fun _ same => .inr same
    · exact (completes_error _ own).imp fun _ same => .inl (same ▸ rfl)
    · exact (completes_print _ own).imp fun _ same => .inr same
  have one (ev : Nat → QLisp.Evaluator) [Stepwise ev] (e : Value) (member : e ∈ l) (own : ScopeId) :
      Completes 4 (fun room => Run.call (ev room) own f [e]) w fun _ => True := by
    obtain ⟨items, rfl, inside⟩ := items ev e member
    exact ((completes_evaluating (by decide) (by decide) rfl rfl knows.equipped rooted.global
      inside).mono (by decide)).imp fun _ _ => trivial
  have two (ev : Nat → QLisp.Evaluator) [Stepwise ev] (z : Value) (_ : z = .unit) (e : Value)
      (member : e ∈ l) (own : ScopeId) :
      Completes 4 (fun room => Run.call (ev room) own g [z, e]) w (OrError (· = .unit)) := by
    obtain ⟨items, rfl, inside⟩ := items ev e member
    exact (completes_evaluating (by decide) (by decide) rfl rfl knows.equipped rooted.global
      inside).mono (by decide)
  have roomy {n : Nat} (few : n ≤ 50) : n ≤ here.world.limit - here.depth := limit ▸ few
  -- So the calls redefine no name of the library, however far they have gone.
  obtain ⟨maps, filters⟩ := elements f l hands fun first rest vs m' =>
    hands.runs_bind idle mirrors.global knows.equipped.ordered binds (roomy (n := 5) (by decide))
      fun e member => one Run.eval e member _
  have fold := folds g .unit l hands' fun first rest t m' =>
    hands'.folds_bind idle mirrors.global knows.equipped.ordered binds (roomy (n := 5) (by decide))
      (fun z (same : z = .unit) => same ▸ ⟨rfl, fun _ => trivial⟩) rfl
      fun z same e member => two Run.eval z same e member _
  -- There is room for more reductions than the functions of the library need.
  have list : (Value.qexpr l).Obeys here.lives :=
    Value.obeyAll_iff.mpr fun t member => hands.lives t (List.mem_cons_of_mem _ member)
  have mapped : here.HasRoom Scopes.global (.sexpr [.symbol "map", f, .qexpr l]) :=
    idle.hasRoom_of_evaluates mirrors.global ⟨trivial, hands.lives f List.mem_cons_self, list, trivial⟩
      (roomy (by decide)) fun ev _ => ends_map (n := 0) knows rfl hands.function fun e member rest =>
        ⟨e, fun _ _ => gives_normal (hands.normal e member),
          Value.isError_of_isNormal (hands.normal e member), one ev e member⟩
  have filtered : here.HasRoom Scopes.global (.sexpr [.symbol "filter", f, .qexpr l]) :=
    idle.hasRoom_of_evaluates mirrors.global ⟨trivial, hands.lives f List.mem_cons_self, list, trivial⟩
      (roomy (by decide)) fun ev _ => ends_filter (n := 0) knows rfl hands.function hands.normal (one ev)
  have folded : here.HasRoom Scopes.global (.sexpr [.symbol "foldl", g, .unit, .qexpr l]) :=
    idle.hasRoom_of_evaluates mirrors.global
      ⟨trivial, hands'.lives g List.mem_cons_self, trivial, list, trivial⟩ (roomy (by decide))
      fun ev _ => ends_foldl (n := 0) knows rfl hands'.function (by rintro _ rfl; rfl) hands.normal
        (two ev) rfl
  obtain ⟨v, m₁, vs, m₂, link, ran', runs, same, _⟩ := filters filtered
  exact ⟨m, ran, maps mapped, ⟨v, m₁, vs, m₂, link, ran', runs, same⟩, fold folded⟩

end QLisp.Shared
