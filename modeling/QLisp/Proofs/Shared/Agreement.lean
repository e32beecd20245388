import Mathlib.Data.List.Forall2
import QLisp.Proofs.Shared.FollowReduce
import QLisp.Proofs.Shared.Frame
import QLisp.Proofs.Shared.Source

/-!
A session in place agrees with the same session on values.

Source text is read into fresh containers, so every evaluation owns what it is given. Results stay
with the session that asked for them, and nothing that is evaluated later changes them.
-/

namespace QLisp.Shared

variable {proper : Prop} {mine store store' : CellId → Prop} {m m' : Machine} {w : World Value}
  {limit : Nat}

/-- Two outcomes are the same failure, or results that are related. -/
def Outcome {ε α β : Type} (good : α → β → Prop) : Except ε α → Except ε β → Prop
  | .ok a, .ok b => good a b
  | .error e, .error e' => e = e'
  | _, _ => False

namespace Outcome

variable {ε ε' α β γ δ : Type} {good : α → β → Prop} {r : Except ε α} {r' : Except ε β}

/-- What is good of results may be weakened. -/
theorem imp {fine : α → β → Prop} (outcome : Outcome good r r')
    (weaker : ∀ a b, good a b → fine a b) : Outcome fine r r' := by
  cases r <;> cases r' <;> first | exact outcome | exact weaker _ _ outcome

end Outcome

/-- What handles stand for stays so while no container that has been made is changed. -/
theorem YieldsAll.keep {vs : List Handle} {ts : List Value}
    (yields : YieldsAll proper mine store m vs ts)
    (moves : Moves (m.only []) store m store' m') : YieldsAll proper mine store' m' vs ts := by
  obtain ⟨ids, holds, free⟩ := yields
  exact ⟨ids, moves.holdsAll holds free.made (Machine.not_only free.made (by simp)), moves.free free⟩

/-- Containers that may be changed may be so under a wider permission. -/
theorem YieldsAll.mono {mine' : CellId → Prop} {vs : List Handle} {ts : List Value}
    (yields : YieldsAll proper mine' store m vs ts) (more : ∀ c, mine' c → mine c) :
    YieldsAll proper mine store m vs ts := by
  obtain ⟨ids, holds, free⟩ := yields
  exact ⟨ids, holds, { free with mine := fun c member => more c (free.mine c member) }⟩

/-- Handles on owned containers are seen as the values that they stand for. -/
theorem YieldsAll.views {vs : List Handle} {ts : List Value}
    (yields : YieldsAll proper mine store m vs ts) :
    vs.map m.heap.view = ts := by
  obtain ⟨ids, holds, free⟩ := yields
  exact holds.viewWith (length_le_of_made free.once free.made)

namespace Act

/-- A source in place follows the same source on values. -/
def Answers (proper : Prop) (mine store : CellId → Prop) (m : Machine)
    (r : Except SourceError (List Handle))
    (r' : Except SourceError (List Value)) : Prop :=
  Outcome (YieldsAll proper mine store m) r r'

/-- Reading the expressions of a source gives the same ones. -/
theorem follows_readSource (mirrors : Mirrors proper mine store m w) (source : Source) :
    Follows proper mine store m w (inWorld (Run.readSource source)) (Run.readSource source)
      fun _ _ read read' => read = read' := by
  cases source with
  | line bytes => exact follows_pure mirrors rfl
  | text bytes => exact follows_pure mirrors rfl
  | input input =>
    rw [Run.readSource, Run.readSource]
    cases input.failure <;> exact follows_pure mirrors rfl
  | file path =>
    -- The file is asked for on both sides, and its contents are the same.
    rw [readSource_file]
    refine (follows_readFile mirrors path).bind fun store₁ m₁ contents mirrors₁ _ same => ?_
    rw [← same]
    cases contents <;> exact follows_pure mirrors₁ rfl

/-- Evaluating a source follows evaluating it, given evaluators one of which follows the other. -/
theorem follows_evaluateSourceBy {ev : Evaluator} {ev' : QLisp.Evaluator}
    (sim : Simulates proper limit 0 ev ev') (mirrors : Mirrors proper mine store m w)
    (ready : Ready limit 0 m Scopes.global) (source : Source) :
    Follows proper mine store m w (evaluateSourceBy ev source) (Run.evaluateSourceBy ev' source)
      (Answers proper mine) := by
  -- The expressions are the same on both sides, and hold no function yet.
  obtain ⟨_, forms⟩ := Run.readSource_forms source w
  refine (follows_readSource mirrors source).bind fun store₁ m₁ read mirrors₁ moves same => ?_
  rw [← same] at forms ⊢
  cases read with
  | error e => exact follows_pure mirrors₁ rfl
  | ok expressions =>
    obtain ⟨read, rfl⟩ := forms expressions rfl
    have plain : ∀ t ∈ Form.toValues Primitive.all read, ∀ rule, t.Obeys rule :=
      fun t member _ => Form.obeys_of_mem_toValues member
    -- The expressions are evaluated one after another, with results that correspond.
    refine (follows_each sim mirrors₁ (ready.move moves) plain).bind fun _ _ _ mirrors _ yields => ?_
    exact follows_pure mirrors yields

/-- Evaluating a source in place follows evaluating it. -/
theorem follows_evaluateSource (mirrors : Mirrors proper mine store m w)
    (ready : Ready limit 0 m Scopes.global) (source : Source) :
    Follows proper mine store m w (evaluateSource source) (Run.evaluateSource source)
      (Answers proper mine) := by
  rw [evaluateSource_eq, Run.evaluateSource_eq]
  exact follows_evaluateSourceBy simulates_evaluate mirrors ready source

/-- Evaluating sources in order follows evaluating them, and earlier results stay what they are. -/
theorem follows_evaluateSources (mirrors : Mirrors proper mine store m w)
    (ready : Ready limit 0 m Scopes.global) (sources : List Source) :
    Follows proper mine store m w (evaluateSources sources) (Run.evaluateSources sources)
      fun store m => List.Forall₂ (Answers proper mine store m) := by
  -- The induction is on the sources; a later one may change no container that has been made.
  induction sources generalizing mine store m w with
  | nil => exact follows_pure mirrors .nil
  | cons source rest ih =>
    rw [evaluateSources, Run.evaluateSources, List.mapM_cons, List.mapM_cons]
    refine (follows_evaluateSource mirrors ready source).bind
      fun store₁ m₁ answer mirrors₁ moves good => ?_
    -- The others come after it, and leave its answer as it was.
    refine (ih (mirrors₁.narrow []) (ready.move moves)).bindWithin (mirrors₁.only [] (by simp))
      fun store₂ m₂ answers mirrors₂ moves₂ goods => ?_
    have wider := mirrors₁.only [] (by simp)
    have first : Answers proper mine store₂ m₂ answer _ := good.imp fun _ _ yields => yields.keep moves₂
    refine follows_pure mirrors₂ (.cons first (goods.imp fun r r' outcome => ?_))
    exact outcome.imp fun _ _ yields => yields.mono wider

end Act

/-- A machine with only an empty global scope mirrors a world with only that. -/
theorem mirrors_initial (files : Files) :
    Mirrors proper (fun _ => True) (fun _ => False) (Machine.initial files)
      (World.initial files) where
  room _ _ := trivial
  stored _ held := held.elim
  global := Scopes.made_initial
  ordered id parent link := by simp [Machine.initial, World.initial] at link
  size := rfl
  parent? id := by simp [Machine.initial, World.initial]
  bound id name := by simp [Machine.initial, World.initial, Stored]
  output := rfl
  limit := rfl
  files := rfl
  asked := rfl

/-- Binding operations to their names mirrors binding them to their names. -/
theorem Mirrors.bindPrimitives (scope : ScopeId) (primitives : List Primitive) :
    ∀ {store m w}, Mirrors proper mine store m w → ∃ store', Mirrors proper mine store'
      { m with
        world.scopes := m.world.scopes.bindAll scope
          (primitives.map fun p => (p.name, Handle.builtin (.primitive p))) }
      { w with
        scopes := w.scopes.bindAll scope (primitives.map fun p => (p.name, Value.primitive p)) } ∧
      Moves mine store m store' { m with
        world.scopes := m.world.scopes.bindAll scope
          (primitives.map fun p => (p.name, Handle.builtin (.primitive p))) } := by
  induction primitives with
  | nil => exact fun {store m w} mirrors => ⟨store, mirrors, .refl mine store m⟩
  | cons p rest ih =>
    intro store m w mirrors
    -- An operation needs no container, so a copy of it is the operation itself.
    obtain ⟨store', bound, moves⟩ := mirrors.bind (t := .primitive p) trivial scope p.name
    obtain ⟨store'', all, later⟩ := ih bound
    exact ⟨store'', all, moves.trans later⟩

/-- The machine with the primitive operations mirrors the world with them. -/
theorem mirrors_withPrimitives (files : Files) :
    ∃ store, Mirrors proper (fun _ => True) store (Machine.withPrimitives files)
      (World.withPrimitives files) := by
  obtain ⟨store, mirrors, _⟩ := (mirrors_initial files).bindPrimitives Scopes.global Primitive.all
  exact ⟨store, mirrors⟩

/-- Evaluating expressions without functions leaves a machine that mirrors the world they leave. -/
theorem Mirrors.after_each (mirrors : Mirrors True mine store m w) (idle : m.depth = 0)
    {expressions : List Value} (plain : ∀ t ∈ expressions, ∀ rule, t.Obeys rule) :
    ∃ results m' store', Act.each Act.evaluate Scopes.global expressions m = .ok results m' ∧
      Mirrors True mine store' m' (Run.after (Run.each Run.evaluate Scopes.global expressions) w) ∧
      m'.depth = 0 := by
  have ready : Ready m.world.limit 0 m Scopes.global := ⟨mirrors.global, rfl, idle⟩
  obtain ⟨results, m', store', ran, mirrors', moves, _⟩ :=
    (Act.follows_each Act.simulates_evaluate mirrors ready plain).ok
  exact ⟨results, m', store', ran, mirrors', moves.depth.trans idle⟩

/-- The library is evaluated without a fault, and leaves a machine that mirrors its world. -/
theorem mirrors_standard (files : Files) :
    (∃ results, Act.each Act.evaluate Scopes.global Library.expressions
      (Machine.withPrimitives files) = .ok results (Machine.standard files)) ∧
    ∃ store, Mirrors True (fun _ => True) store (Machine.standard files) (World.standard files) ∧
      (Machine.standard files).depth = 0 := by
  obtain ⟨store, mirrors⟩ := mirrors_withPrimitives files
  obtain ⟨results, m', store', ran, mirrors', idle⟩ :=
    mirrors.after_each rfl fun t member _ => Library.obeys_expression t member
  have here : Machine.standard files = m' := by rw [Machine.standard, Act.after, ran]
  rw [here, World.standard]
  exact ⟨⟨results, ran⟩, store', mirrors', idle⟩

/-- Setting the limit mirrors setting it. -/
theorem Mirrors.setLimit (mirrors : Mirrors proper mine store m w) (setting : Int) :
    Mirrors proper mine store ((Act.setLimit setting).after m)
      (Run.after (Run.setLimit setting) w) :=
  { mirrors with limit := rfl }

/-- What is bound stands on the store for a value, so that value is seen. -/
theorem Stored.view {found : Option Handle} {value : Option Value}
    (stored : Stored proper store m found value) (made : ∀ c, store c → m.heap.Made c) :
    found.map m.heap.view = value := by
  -- A name is bound on both sides or on neither.
  cases found with
  | none =>
    -- Nothing is stored where there is no value.
    cases value with
    | none => rfl
    | some t => exact stored.elim
  | some v =>
    cases value with
    -- What is stored shows the value, since what it stands on has been made.
    | none => exact stored.elim
    | some t =>
      obtain ⟨ids, holds, once, held⟩ := stored
      rw [Option.map_some, holds.view once fun c member => made c (held c member)]

/-- What a world binds is seen as the value of the handle that the machine binds. -/
theorem Mirrors.binding? (mirrors : Mirrors proper mine store m w) (id : ScopeId) (name : String) :
    m.binding? id name = w.scopes.local? id name :=
  (mirrors.bound id name).view mirrors.stored

/-- The value that a name means in a scope. -/
def Machine.meaning? (m : Machine) (id : ScopeId) (name : String) : Option Value :=
  (m.world.scopes.lookup? id name).map m.heap.view

/-- What a name means in a world is seen as the value of the handle that the machine finds. -/
theorem Mirrors.meaning? (mirrors : Mirrors proper mine store m w) (id : ScopeId) (name : String) :
    m.meaning? id name = w.scopes.lookup? id name :=
  (mirrors.lookup? id name).view mirrors.stored

/-- Whatever the limit, a session on a machine that mirrors a world follows the session there. -/
theorem Mirrors.evaluateSources (mirrors : Mirrors True mine store m w) (idle : m.depth = 0)
    (setting : Int) (sources : List Source) :
    ∃ answers m' store', Act.evaluateSources sources ((Act.setLimit setting).after m) =
        .ok answers m' ∧
      Mirrors True mine store' m'
        (Run.after (Run.evaluateSources sources) (Run.after (Run.setLimit setting) w)) ∧
      List.Forall₂ (Act.Answers True mine store' m') answers
        (Run.evaluateSources sources (Run.after (Run.setLimit setting) w)).1 := by
  have limited := mirrors.setLimit setting
  obtain ⟨answers, m', store', ran, mirrors', _, good⟩ :=
    (Act.follows_evaluateSources limited ⟨limited.global, rfl, idle⟩ sources).ok
  exact ⟨answers, m', store', ran, mirrors', good⟩

/-- Setting the limit comes before what is done under it. -/
theorem Act.setLimit_bind {α : Type} (setting : Int) (act : Act α) :
    (do Act.setLimit setting; act) m = act ((Act.setLimit setting).after m) := rfl

/--
Evaluation in place cannot be told apart from evaluation of immutable values.

Whatever sources a program consists of, whatever the files that it loads hold and whatever limit is
set, the session in place ends. Its results are seen as the results of the session on immutable
values, also after all sources have been evaluated. It has printed the same text and asked for the
same files, and it has made the same scopes, with the same parents and the same bindings.
-/
theorem session_unobservable (files : Files) (setting : Int) (sources : List Source) :
    let w := Run.after (Run.setLimit setting) (World.standard files)
    let w' := Run.after (Run.evaluateSources sources) w
    ∃ answers m', Act.evaluateSources sources
        ((Act.setLimit setting).after (Machine.standard files)) = .ok answers m' ∧
      List.Forall₂ (Outcome fun handles values => handles.map m'.heap.view = values) answers
        (Run.evaluateSources sources w).1 ∧
      m'.world.output = w'.output ∧ m'.world.asked = w'.asked ∧
      (∀ id, m'.world.scopes.Made id ↔ w'.scopes.Made id) ∧
      (∀ id, m'.world.scopes.parent? id = w'.scopes.parent? id) ∧
      ∀ id name, m'.binding? id name = w'.scopes.local? id name := by
  intro w w'
  obtain ⟨_, store, mirrors, idle⟩ := mirrors_standard files
  obtain ⟨answers, m', store', ran, mirrors, good⟩ := mirrors.evaluateSources idle setting sources
  refine ⟨answers, m', ran, ?_, mirrors.output, mirrors.asked, fun id => mirrors.made.symm,
    mirrors.parent?, mirrors.binding?⟩
  exact good.imp fun _ _ outcome => outcome.imp fun _ _ yields => yields.views

/--
No source makes an operation fault.

The library is loaded, and after that any sources are evaluated to their ends, whatever the files
that they load hold and whatever limit is set: every list operation is on a list with the elements
that it needs, every scope is there, and no divisor is zero.
-/
theorem sources_never_fault (files : Files) (setting : Int) (sources : List Source) :
    (∃ results, Act.each Act.evaluate Scopes.global Library.expressions
      (Machine.withPrimitives files) = .ok results (Machine.standard files)) ∧
    ∀ fault m', (do Act.setLimit setting; Act.evaluateSources sources : Act _)
      (Machine.standard files) ≠ .error fault m' := by
  obtain ⟨loaded, store, mirrors, idle⟩ := mirrors_standard files
  refine ⟨loaded, fun fault m' faulted => ?_⟩
  obtain ⟨answers, m'', _, ran, _⟩ := mirrors.evaluateSources idle setting sources
  rw [Act.setLimit_bind, ran] at faulted
  cases faulted

end QLisp.Shared
