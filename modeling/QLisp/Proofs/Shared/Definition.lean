import QLisp.Proofs.Program.Definition
import QLisp.Proofs.Shared.Library

/-!
Functions that are defined with and without `fun`, in place.

A function that `fun` has defined sees a scope more than one that has been made and defined without it.
No program that lacks the names which `fun` binds there can tell which of the two has been done.
-/

namespace QLisp.Shared

open Library Run

variable {mine store store' : CellId → Prop} {m m' start : Machine} {base w u u' x : World Value}
  {c : Comparison} {own : ScopeId} {files : Files} {barred : Text.Bytes → Prop}

/--
Two machines that come from one are the same for programs without some names.

Scopes correspond, and show the same names but for those, with values that are the same up to
corresponding scopes. The same text has been printed, and the same files have been asked for.
-/
structure Machine.Indistinct (start : Machine) (hidden : List String) (link : ScopeRel)
    (m m' : Machine) : Prop where
  /-- A scope corresponds to no more than one. -/
  single {s s' t' : ScopeId} : link s s' → link s t' → s' = t'
  /-- Only the global scope corresponds to more than one. -/
  shared {s t s' : ScopeId} : link s s' → link t s' → s = t ∨ s' = Scopes.global
  /-- Scopes that correspond have been made. -/
  made {s s' : ScopeId} : link s s' → m.world.scopes.Made s ∧ m'.world.scopes.Made s'
  /-- Scopes that there were at the start correspond to themselves. -/
  itself {s : ScopeId} : start.world.scopes.Made s → link s s
  /-- They bind the same names to the same values. -/
  bound {s : ScopeId} (name : String) : start.world.scopes.Made s →
    Option.Rel (Value.Related Eq link) (m.binding? s name) (m'.binding? s name)
  /-- A name means the same in scopes that correspond, unless it is one of some. -/
  meaning {s s' : ScopeId} {name : String} : name ∉ hidden → link s s' →
    Option.Rel (Value.Related Eq link) (m.meaning? s name) (m'.meaning? s' name)
  /-- The same text has been printed. -/
  output : m'.world.output = m.world.output
  /-- The same files have been asked for. -/
  asked : m'.world.asked = m.world.asked
  /-- The limits are the same. -/
  limit : m'.world.limit = m.world.limit

/-- What a source is answered with, as values. -/
def Machine.seen (m : Machine) (answer : Except SourceError (List Handle)) :
    Except SourceError (List Value) :=
  answer.map (·.map m.heap.view)

/-- An answer is seen as the answer on values. -/
theorem Act.Answers.seen {proper : Prop} {answer : Except SourceError (List Handle)}
    {answer' : Except SourceError (List Value)} (answers : Act.Answers proper mine store m answer answer') :
    m.seen answer = answer' := by
  -- An answer is an error on both sides or a list of values on both.
  cases answer with
  | error e =>
    cases answer' with
    | error e' => exact congrArg _ answers
    | ok values => exact answers.elim
  | ok handles =>
    cases answer' with
    | error e' => exact answers.elim
    | ok values => exact congrArg _ (YieldsAll.views answers)

/-- Machines are the same when their worlds are, but for a scope that is bypassed. -/
theorem Mirrors.indistinct
    (skips : World.Skips base own files c (u.censored barred) u' (x.censored barred))
    (mirrors : Mirrors True mine store m u) (mirrors' : Mirrors True mine store' m' x)
    (old : ∀ s, start.world.scopes.Made s → base.scopes.Made s ∧ s ≠ own) :
    start.Indistinct definer.formals (c.skip own u u') m m' where
  -- A scope of the first machine corresponds to one of the second at most, and the other way round.
  single linked linked' := (Comparison.skip_single linked linked').1 rfl
  shared linked linked' := (Comparison.skip_single linked linked').2 rfl
  made linked := by
    -- The scope is in the first machine what it is in the world, and so it is in the second.
    obtain ⟨t, bypass, linked⟩ := linked
    exact ⟨mirrors.made.mp bypass.1, mirrors'.made.mp ((skips.abreast.related.made linked.1).mp linked.2)⟩
  itself made := skips.itself (old _ made).1 (old _ made).2
  -- Bindings are seen on the machine as they are in the world, where they correspond.
  bound name made := by
    rw [mirrors.binding?, mirrors'.binding?]
    exact skips.local? (old _ made).1 (old _ made).2 name
  -- From corresponding scopes a visible name means the same, past the scope that is skipped.
  meaning visible linked := by
    rw [mirrors.meaning?, mirrors'.meaning?]
    exact skips.lookup? visible linked
  -- The output of a machine is that of its world, and so are the files and the limit.
  output := by
    rw [mirrors.output, mirrors'.output]
    exact skips.output
  asked := by
    rw [mirrors.asked, mirrors'.asked]
    exact skips.asked
  limit := by
    rw [mirrors.limit, mirrors'.limit]
    exact skips.limit

/-- A session and then a source are carried out in place. -/
theorem Mirrors.answers (mirrors : Mirrors True mine store m w) (idle : m.depth = 0)
    (requests : List Request) (source : Source) :
    ∃ m₁ answer m₂ store₂, requests.forM Act.perform m = .ok () m₁ ∧
      Act.evaluateSource source m₁ = .ok answer m₂ ∧
      let outcome := evaluateSource source (after (requests.forM Request.perform) w)
      Mirrors True mine store₂ m₂ outcome.2 ∧ m₂.seen answer = outcome.1 := by
  obtain ⟨m₁, store₁, ran, mirrors₁, idle₁⟩ := mirrors.session requests idle
  have ready : Ready m₁.world.limit 0 m₁ Scopes.global := ⟨mirrors₁.global, rfl, idle₁⟩
  obtain ⟨answer, m₂, store₂, evaluated, mirrors₂, _, answers⟩ :=
    (Act.follows_evaluateSource mirrors₁ ready source).ok
  exact ⟨m₁, answer, m₂, store₂, ran, evaluated, mirrors₂, answers.seen⟩

/-- What is read holds no functions, and so does a definition that is made of it. -/
theorem obeys_definition (name : String) (formals : List String) (body : List Form) (rule : FunctionRule) :
    let f : Function := ⟨name, formals, Form.toValues Primitive.all body⟩
    f.definition.Obeys rule ∧ f.longhand.Obeys rule := by
  -- The symbols and what is read have no functions inside.
  have symbols (names : List String) : (Value.qexpr (names.map .symbol)).Obeys rule := by
    refine Value.obeyAll_iff.mpr fun v inside => ?_
    obtain ⟨name, _, rfl⟩ := List.mem_map.mp inside
    trivial
  have read : (Value.qexpr (Form.toValues Primitive.all body)).Obeys rule :=
    Value.obeyAll_iff.mpr fun v member => Form.obeys_of_mem_toValues member
  exact ⟨⟨trivial, symbols _, read, trivial⟩, trivial, symbols [name], ⟨trivial, symbols _, read, trivial⟩,
    trivial⟩

/--
A function that is defined by `fun` is the same as one that is made and then defined.

After any requests to a session let `fun` be bound as it was at first. Then a definition with `fun` and
one without it both evaluate to the empty list at the top level, unless a reduction is refused. Whatever
is requested later does the same after either: a further source is answered with the same values, up to
the scopes that functions captured, and on machines that are the same. This is so while no source has the
symbols `__sig` and `__body`, the formals of `fun`, nor any file that has been asked for in the end.
-/
theorem definitions_agree (files : Files) (before : List Request)
    (hygienic : ∀ request ∈ before, request.Hygienic files) :
    ∃ m, before.forM Act.perform (Machine.standard files) = .ok () m ∧
      ∀ (name : String) (formals : List String) (body : List Form),
        let f : Function := ⟨name, formals, Form.toValues Primitive.all body⟩
        (∀ key ∈ definer.formals, key ∉ f.definition.symbols) →
        m.binding? Scopes.global "fun" = (Machine.standard files).binding? Scopes.global "fun" →
        m.HasRoom Scopes.global f.definition → m.HasRoom Scopes.global f.longhand →
        ∃ v₁ m₁ v₂ m₂,
          Act.evaluateFresh Scopes.global f.definition m = .ok v₁ m₁ ∧ m₁.heap.view v₁ = .unit ∧
          Act.evaluateFresh Scopes.global f.longhand m = .ok v₂ m₂ ∧ m₂.heap.view v₂ = .unit ∧
          ∀ (later : List Request) (source : Source), (∀ request ∈ later, request.Hygienic files) →
            source.Hygienic files →
            ∃ x₁ answer₁ y₁ x₂ answer₂ y₂,
              later.forM Act.perform m₁ = .ok () x₁ ∧ Act.evaluateSource source x₁ = .ok answer₁ y₁ ∧
              later.forM Act.perform m₂ = .ok () x₂ ∧ Act.evaluateSource source x₂ = .ok answer₂ y₂ ∧
              ((∀ path ∈ y₁.world.asked, files.HygienicAt path) →
                ∃ link, m.Indistinct definer.formals link y₁ y₂ ∧
                  AnswersRelated (Value.Related Eq link) (y₁.seen answer₁) (y₂.seen answer₂)) := by
  -- The requests before are followed on the world, as are both definitions.
  obtain ⟨_, _, standard, idle⟩ := mirrors_standard files
  obtain ⟨m, store, ran, mirrors, idle⟩ := standard.session before idle
  have rooted := (World.rooted_standard files).session before
  refine ⟨m, ran, fun name formals body => ?_⟩
  intro f free kept room room'
  have plain := obeys_definition name formals body
  have bound := (mirrors.binding? Scopes.global "fun").symm.trans
    (kept.trans ((standard_binding? ..).trans (World.furnished_standard files).definer))
  -- The first definition is a call of `fun`, and the second one binds a function that is written out.
  obtain ⟨v₁, m₁, store₁, ran₁, view₁, mirrors₁, depth₁⟩ :=
    mirrors.evaluates mirrors.global (plain _).1 room (World.evaluates_definition rooted bound f)
  obtain ⟨v₂, m₂, store₂, ran₂, view₂, mirrors₂, depth₂⟩ :=
    mirrors.evaluates mirrors.global (plain _).2 room' (World.evaluates_longhand _ f)
  -- Both give the empty list, and what they leave differs in one scope.
  refine ⟨v₁, m₁, v₂, m₂, ran₁, view₁, ran₂, view₂, fun later source readable readable' => ?_⟩
  -- The later requests and the source are followed after either definition.
  obtain ⟨x₁, answer₁, y₁, _, went₁, evaluated₁, after₁, seen₁⟩ :=
    mirrors₁.answers (depth₁.trans idle) later source
  obtain ⟨x₂, answer₂, y₂, _, went₂, evaluated₂, after₂, seen₂⟩ :=
    mirrors₂.answers (depth₂.trans idle) later source
  refine ⟨x₁, answer₁, y₁, x₂, answer₂, y₂, went₁, evaluated₁, went₂, evaluated₂, fun clean => ?_⟩
  -- No other file has been asked for in the end, and so none before.
  have quiet : ¬ World.Tainted files.Revealing _ := fun ⟨path, asked, reveals⟩ =>
    reveals (clean path (after₁.asked ▸ asked))
  have early : ¬ World.Tainted files.Revealing _ := fun asked => quiet
    ((censored_evaluateSource _ source).stays _ ((censored_session _ later).stays _ asked))
  -- Out of what has not been asked for, the two runs skip the scope that `fun` made.
  obtain ⟨c, u', skips⟩ := World.Skips.censored rooted (fun rule => (plain rule).1) free
    (World.hygienic_session hygienic early)
  obtain ⟨y, skips, related⟩ := skips.runs readable readable' quiet
  rw [seen₁, seen₂]
  -- What the machines show is what the worlds show, in which the later program ends alike.
  refine ⟨_, after₁.indistinct skips after₂ fun s made => ?_, related⟩
  have there := mirrors.made.mpr made
  exact ⟨Scopes.made_bind.mpr there, there.ne_next⟩

/-- There is room for either definition where there is room for four reductions. -/
theorem Mirrors.hasRoom_definitions {f : Function} (mirrors : Mirrors True mine store m w) (rooted : w.Rooted)
    (bound : w.scopes.local? Scopes.global definer.name = some (definer.closure Scopes.global))
    (plain : ∀ rule, f.definition.Obeys rule ∧ f.longhand.Obeys rule)
    (roomy : 4 ≤ m.world.limit - m.depth) :
    m.HasRoom Scopes.global f.definition ∧ m.HasRoom Scopes.global f.longhand :=
  ⟨mirrors.hasRoom_of_evaluates mirrors.global (plain _).1 roomy fun ev _ =>
      ⟨.unit, w.defined f, rfl, World.evaluates_definition rooted bound f⟩,
    mirrors.hasRoom_of_evaluates mirrors.global (plain _).2 (Nat.le_trans (by decide) roomy) fun ev _ =>
      ⟨.unit, w.assigned f, rfl, World.evaluates_longhand w f⟩⟩

/-- A function that gives its argument back is defined in either way, and then called. -/
theorem definitions_agree_call :
    let files : Files := fun _ => .error .missing
    let f : Function := ⟨"g", ["a"], [.symbol "a"]⟩
    let source : Source := .text (Text.encode "(g nil)")
    ∃ v₁ m₁ v₂ m₂ answer₁ y₁ answer₂ y₂,
      Act.evaluateFresh Scopes.global f.definition (Machine.standard files) = .ok v₁ m₁ ∧
      Act.evaluateFresh Scopes.global f.longhand (Machine.standard files) = .ok v₂ m₂ ∧
      m₁.heap.view v₁ = .unit ∧ m₂.heap.view v₂ = .unit ∧
      Act.evaluateSource source m₁ = .ok answer₁ y₁ ∧ Act.evaluateSource source m₂ = .ok answer₂ y₂ ∧
      ∃ link, (Machine.standard files).Indistinct definer.formals link y₁ y₂ ∧
        AnswersRelated (Value.Related Eq link) (y₁.seen answer₁) (y₂.seen answer₂) := by
  intro files f source
  -- The source is one form with two symbols, neither of which is a formal of `fun`.
  have read : Form.parse (Text.encode "(g nil)") = .ok [.list ⟨0, 1, 1⟩ .sexpr
      [.atom ⟨1, 1, 2⟩ (.symbol "g"), .atom ⟨3, 1, 4⟩ (.symbol "nil")]] := by
    rw [Form.parse_encode]
    rfl
  have readable : source.Hygienic files := by
    intro expressions found
    rw [Source.read, readText, read] at found
    cases found
    decide
  have none (request : Request) (member : request ∈ []) : request.Hygienic files := by
    cases member
  have clean (path : Text.Bytes) : files.HygienicAt path := by
    intro bytes forms found
    cases found
  -- Nothing is requested before, so the machine is the standard one.
  obtain ⟨m, ran, right⟩ := definitions_agree files [] none
  have nothing (start : Machine) : [].forM Act.perform start = .ok () start := rfl
  obtain rfl : Machine.standard files = m := by
    injection (nothing _).symm.trans ran
  -- There is room for more reductions than the definitions need.
  obtain ⟨_, store, mirrors, idle⟩ := mirrors_standard files
  have roomy : 4 ≤ (Machine.standard files).world.limit - (Machine.standard files).depth := by
    rw [idle, Machine.limit_standard]
    decide
  obtain ⟨room, room'⟩ := mirrors.hasRoom_definitions (World.rooted_standard files)
    (World.furnished_standard files).definer (obeys_definition "g" ["a"] [.atom .start (.symbol "a")]) roomy
  obtain ⟨v₁, m₁, v₂, m₂, ran₁, view₁, ran₂, view₂, same⟩ := right "g" ["a"] [.atom .start (.symbol "a")]
    (by decide) rfl room room'
  obtain ⟨x₁, answer₁, y₁, x₂, answer₂, y₂, went₁, evaluated₁, went₂, evaluated₂, agree⟩ :=
    same [] source none readable
  -- Without later requests the machines are those that the definitions left.
  cases went₁
  cases went₂
  exact ⟨v₁, m₁, v₂, m₂, answer₁, y₁, answer₂, y₂, ran₁, ran₂, view₁, view₂, evaluated₁, evaluated₂,
    agree fun path _ => clean path⟩

end QLisp.Shared
