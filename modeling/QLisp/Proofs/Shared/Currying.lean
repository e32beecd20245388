import QLisp.Proofs.Currying
import QLisp.Proofs.Shared.Applying
import QLisp.Proofs.Shared.Session

/-!
Functions that have been given some of their arguments.

What such a function does later does not depend on whether the first arguments were given before, nor
on how often it has been called in the meantime, unless the bodies define something.
-/

namespace QLisp.Shared

variable {mine mine' store store' : CellId → Prop} {m m' m₁ m₂ start start' : Machine}
  {w u u' : World Value} {link : ScopeRel} {f g : Handle} {t : Value}
  {first second body : List Value} {names : List String} {scope caller : ScopeId}

/--
Two runs have had the same effects since they started.

Scopes correspond one to one, those that the first start had to themselves. Names mean values in them
that are the same but for captured scopes, which correspond too.
-/
structure Machine.SameEffects (start start' : Machine) (link : ScopeRel) (m m' : Machine) : Prop where
  /-- A scope corresponds to no more than one. -/
  single {s s' t t' : ScopeId} : link s s' → link t t' → (s = t ↔ s' = t')
  /-- Scopes that correspond have been made. -/
  made {s s' : ScopeId} : link s s' → m.world.scopes.Made s ∧ m'.world.scopes.Made s'
  /-- Names mean the same in them. -/
  meaning {s s' : ScopeId} (name : String) : link s s' →
    Option.Rel (Value.Related Eq link) (m.meaning? s name) (m'.meaning? s' name)
  /-- Scopes that there were correspond to themselves. -/
  itself {s : ScopeId} : start.world.scopes.Made s → link s s
  /-- They bind the same names to the same values. -/
  bound {s : ScopeId} (name : String) : start.world.scopes.Made s →
    Option.Rel (Value.Related Eq link) (m.binding? s name) (m'.binding? s name)
  /-- The same text has been printed. -/
  output : ∃ text, m.world.output = start.world.output ++ text ∧
    m'.world.output = start'.world.output ++ text
  /-- The same files have been asked for. -/
  asked : ∃ paths, m.world.asked = paths ++ start.world.asked ∧
    m'.world.asked = paths ++ start'.world.asked

/-- Machines that mirror worlds that correspond come from runs with the same effects. -/
theorem Machine.sameEffects_of_related {c : Comparison} (related : u.Related c u')
    (mirrors : Mirrors True mine store m u) (mirrors' : Mirrors True mine' store' m' u')
    (exact : c.failures = Eq) (old : ∀ s, start.world.scopes.Made s → c.link u.scopes s s)
    (printed : start.world.output = c.first.output ∧ start'.world.output = c.second.output)
    (opened : start.world.asked = c.first.asked ∧ start'.world.asked = c.second.asked) :
    Machine.SameEffects start start' (c.link u.scopes) m m' where
  single linked linked' := c.single linked.1 linked'.1
  made linked := ⟨mirrors.made.mp linked.2, mirrors'.made.mp ((related.made linked.1).mp linked.2)⟩
  meaning name linked := by
    -- From corresponding scopes a name is seen to mean values that correspond.
    rw [mirrors.meaning?, mirrors'.meaning?, ← exact]
    exact related.lookup? linked name
  itself made := old _ made
  bound {s} name made := by
    rw [mirrors.binding?, mirrors'.binding?, ← exact]
    refine related.bound_self (fun t below => (old t ?_).1) name
    exact Nat.lt_of_le_of_lt below made
  output := by
    -- What has been printed since the start is the same text, as failures are the same.
    obtain ⟨text, text', before, before', same⟩ := related.output
    rw [exact] at same
    obtain rfl : text = text' := same.eq
    rw [mirrors.output, mirrors'.output, printed.1, printed.2]
    exact ⟨text, before, before'⟩
  asked := by
    rw [mirrors.asked, mirrors'.asked, opened.1, opened.2]
    exact related.asked

/-- What two machines hold when they come from runs with the same effects. -/
def Machine.SameOutcome (start start' : Machine) (good : Value → Value → Prop)
    (outcome outcome' : EStateM.Result Fault Machine Handle) : Prop :=
  ∃ link v m v' m', outcome = .ok v m ∧ outcome' = .ok v' m' ∧ start.SameEffects start' link m m' ∧
    (Value.Related Eq link (m.heap.view v) (m'.heap.view v') ∨ good (m.heap.view v) (m'.heap.view v'))

namespace Act

/-- Makes a function of formals and a body in a scope. -/
def makeFunction (scope : ScopeId) (names : List String) (body : List Value) : Act Handle :=
  applyTo scope (.builtin (.primitive .lambda)) [.qexpr (names.map .symbol), .qexpr body]

/-- A function has been called any number of times, with any arguments that there were each time. -/
inductive Calls (function : Handle) (m : Machine) : Machine → Prop where
  /-- It has not been called. -/
  | none : Calls function m m
  /-- It has been called once more. -/
  | call {m₁ m₂ : Machine} {caller : ScopeId} {arguments : List Value} {v : Handle}
      (earlier : Calls function m m₁) (made : m₁.world.scopes.Made caller)
      (lives : ∀ t ∈ arguments, t.Obeys m₁.lives)
      (ran : applyTo caller function arguments m₁ = .ok v m₂) : Calls function m m₂

end Act

/-- Making a function of symbols and a quoted body gives that function. -/
theorem call_lambda (ev : QLisp.Evaluator) (scope : ScopeId) (names : List String)
    (body : List Value) : Run.call ev scope (.primitive .lambda)
      [.qexpr (names.map .symbol), .qexpr body] w =
      (.lambda (.qexpr (names.map .symbol)) (.qexpr body) (some scope), w) := by
  have parts : Primitive.lambda.functionParts [.qexpr (names.map .symbol), .qexpr body] =
      .ok (.qexpr (names.map .symbol), .qexpr body) := by
    rw [Primitive.functionParts, Primitive.symbolNames_symbols]
    rfl
  show Run.orFail (Primitive.lambda.functionParts _) _ w = _
  rw [parts]
  rfl

/-- Runs that resemble one another have the same outcome. -/
theorem Machine.sameOutcome_of_resembles {c : Comparison} {w' : World Value} {run run' : Run Value}
    {good : Value → Value → Prop} {v v' : Handle} (exact : c.failures = Eq)
    (resembles : Run.Resembles c w w' run run' fun scopes t t' => c.values scopes t t' ∨ good t t')
    (possesses : m.Possesses (run w).2 v (run w).1)
    (possesses' : m'.Possesses (run' w').2 v' (run' w').1)
    (old : ∀ s, start.world.scopes.Made s → c.link w.scopes s s)
    (printed : start.world.output = c.first.output ∧ start'.world.output = c.second.output)
    (opened : start.world.asked = c.first.asked ∧ start'.world.asked = c.second.asked) :
    start.SameOutcome start' good (.ok v m) (.ok v' m') := by
  obtain ⟨_, mirrors, _⟩ := possesses.stands
  obtain ⟨_, mirrors', _⟩ := possesses'.stands
  refine ⟨c.link (run w).2.scopes, v, m, v', m', rfl, rfl, ?_, ?_⟩
  · exact Machine.sameEffects_of_related resembles.world mirrors mirrors' exact
      (fun s made => resembles.within.link (old s made)) printed opened
  · rw [possesses.view, possesses'.view, ← exact]
    exact resembles.good

/-! ### Giving the arguments in two goes -/

/-- Failures with too many arguments, of which the first counts only the second go. -/
def CountsDiffer (names : List String) (first second : List Value) (v v' : Value) : Prop :=
  v = .error (.wrongCount "lambda" (names.length - first.length) second.length) ∧
    v' = .error (.wrongCount "lambda" names.length (first.length + second.length))

namespace Machine.Possesses

/-- Scopes that had been made on one machine have been made on another with a further world. -/
theorem made (possesses : m.Possesses w f t) {t' : Value} (possesses' : m'.Possesses u g t')
    (within : w.scopes.Within u.scopes) {s : ScopeId} (there : m.world.scopes.Made s) :
    m'.world.scopes.Made s := by
  obtain ⟨_, mirrors, _⟩ := possesses.stands
  obtain ⟨_, mirrors', _⟩ := possesses'.stands
  exact mirrors'.made.mp (Nat.lt_of_lt_of_le (mirrors.made.mpr there) within)

/-- A function that is given its arguments in two goes does what it does with all of them. -/
theorem curries (possesses : m.Possesses w f
      (.lambda (.qexpr (names.map .symbol)) (.qexpr body) (some scope)))
    (made : m.world.scopes.Made caller) (lives : ∀ t ∈ first, t.Obeys m.lives)
    (fewer : first.length < names.idxOf variadicMarker) :
    ∃ g m₁ bound, Act.applyTo caller f first m = .ok g m₁ ∧
      m₁.Possesses (w.entered scope bound) g (.lambda
        (.qexpr ((names.drop first.length).map .symbol)) (.qexpr body) (some w.scopes.next)) ∧
      ∀ second, (∀ t ∈ second, t.Obeys m.lives) → m.SameOutcome m (CountsDiffer names first second)
        (Act.applyTo caller g second m₁) (Act.applyTo caller f (first ++ second) m) := by
  -- The machine mirrors a world in which the function is applied alike.
  obtain ⟨_, mirrors, _⟩ := possesses.stands
  obtain ⟨bound, found⟩ := matchFormals_fewer fewer
  obtain ⟨g, m₁, ran, depth, limit, _, held, _⟩ := possesses.applyTo made lives
  -- The first arguments are bound in a scope of their own.
  have short : Run.call (Run.eval (m.world.limit - m.depth)) caller
      (.lambda (.qexpr (names.map .symbol)) (.qexpr body) (some scope)) first w =
      (.lambda (.qexpr ((names.drop first.length).map .symbol)) (.qexpr body) (some w.scopes.next),
        w.entered scope bound) := Run.applyLambda_short found
  rw [short] at held
  refine ⟨g, m₁, bound, ran, held, fun second others => ?_⟩
  have kept := w.extends_entered scope bound
  have all : ∀ t ∈ first ++ second, t.Obeys m.lives := List.forall_mem_append.mpr ⟨lives, others⟩
  have later : ∀ s, m.world.scopes.Made s → m₁.world.scopes.Made s := fun _ =>
    possesses.made held kept.within
  -- The rest of the arguments is handed to what the first call has given.
  obtain ⟨v, m₂, ran₂, _, _, _, held₂, _⟩ := held.applyTo (later caller made) fun t member =>
    Machine.lives_later (others t member) later
  -- Handing over all at once is one call of the function itself.
  obtain ⟨v', m₂', ran₂', _, _, _, held₂', _⟩ := possesses.applyTo made all
  rw [depth, limit] at held₂
  rw [ran₂, ran₂']
  -- The body sees in two scopes what it sees in one.
  obtain ⟨⟨_, same, there⟩, _, _⟩ := id possesses.closes
  cases same
  have resembles := Run.resembles_curried possesses.rooted there possesses.closes
    (fun t member => mirrors.closes (all t member)) found
    (Run.blind_eval (m.world.limit - m.depth))
  refine Machine.sameOutcome_of_resembles rfl (resembles.imp fun t t' returned => ?_) held₂ held₂'
    (fun s made => ⟨possesses.rooted.itself (mirrors.made.mpr made),
      Nat.lt_of_lt_of_le (mirrors.made.mpr made) kept.within⟩)
    ⟨mirrors.output, mirrors.output⟩ ⟨mirrors.asked, mirrors.asked⟩
  simpa [Run.ReturnsRelated, CountsDiffer, Value.qexpr, Value.items] using returned

/-! ### Calling a function again -/

/-- The call of a function changes no scope that was there but the global one. -/
theorem frames_global {formals body : Value} (possesses : m.Possesses w g (.lambda formals body (some scope)))
    {arguments : List Value} (lives : ∀ t ∈ arguments, t.Obeys m.lives) {v : Handle}
    (ran : Act.applyTo caller g arguments m = .ok v m') : m.Frames (· = Scopes.global) m' := by
  obtain ⟨_, mirrors, _, holds, _⟩ := possesses.stands
  obtain ⟨formals', body', rfl⟩ : ∃ formals' body', g = .lambda formals' body' (some scope) := by
    cases holds with
    | atom same => cases g <;> simp [Handle.atom?] at same
    | lambda _ _ _ => exact ⟨_, _, rfl⟩
  have frames := possesses.frames lives ran
  -- Only the global scope has no parent.
  refine { frames with bindings := fun id made fixed name => frames.bindings id made ?_ name }
  intro outermost
  rw [Machine.Outermost, mirrors.parent?] at outermost
  exact fixed (possesses.rooted.outermost id (mirrors.made.mpr made) outermost)

/-- However often a function is called, it stays what it is, and only the global scope changes. -/
theorem calls {formals body : Value} (possesses : m.Possesses w g (.lambda formals body (some scope)))
    (calls : Act.Calls g m m') :
    ∃ w', m'.Possesses w' g (.lambda formals body (some scope)) ∧ m'.depth = m.depth ∧
      m'.world.limit = m.world.limit ∧ w'.files = w.files ∧ m.Frames (· = Scopes.global) m' := by
  -- The induction is on the calls; each starts on the machine that the last one left.
  induction calls with
  | none => exact ⟨w, possesses, rfl, rfl, rfl, fun _ => id, fun _ _ => rfl, fun _ _ _ _ => rfl⟩
  | call earlier made lives ran ih =>
    obtain ⟨w₁, held, depth, limit, files, frames⟩ := ih
    -- The next call starts where the calls before have left the function.
    obtain ⟨v, m₂, ran', depth', limit', files', _, held'⟩ := held.applyTo made lives
    cases ran.symm.trans ran'
    have further := held.frames_global lives ran
    refine ⟨_, held', depth'.trans depth, limit'.trans limit, files'.trans files, ?_⟩
    refine ⟨fun s there => further.made s (frames.made s there), fun s there => ?_,
      fun s there fixed name => ?_⟩
    -- Parents and bindings are kept by the calls before and by this one.
    · exact (further.parents s (frames.made s there)).trans (frames.parents s there)
    · exact (further.bindings s (frames.made s there) fixed name).trans
        (frames.bindings s there fixed name)

/-- Scopes that are framed, and bind in the global one what they did, are as they were. -/
theorem extends_of_frames (possesses : m.Possesses w f t) (possesses' : m'.Possesses u g t)
    (frames : m.Frames (· = Scopes.global) m')
    (same : ∀ name, m'.binding? Scopes.global name = m.binding? Scopes.global name) :
    w.scopes.Extends u.scopes := by
  obtain ⟨_, mirrors, _⟩ := possesses.stands
  obtain ⟨_, mirrors', _⟩ := possesses'.stands
  -- Scopes are not lost, keep their parents, and bind what they did unless they are outermost.
  refine ⟨Nat.le_of_not_lt fun fewer => ?_, fun s made => ?_, fun s name made => ?_⟩
  · have lost := frames.made ⟨u.scopes.made.size⟩ (mirrors.made.mp fewer)
    exact Nat.lt_irrefl _ (mirrors'.made.mpr lost)
  · rw [← mirrors.parent?, ← mirrors'.parent?]
    exact frames.parents s (mirrors.made.mp made)
  · rw [← mirrors.binding?, ← mirrors'.binding?]
    by_cases outermost : s = Scopes.global
    · rw [outermost]
      exact same name
    · exact frames.bindings s (mirrors.made.mp made) outermost name

/-- A function does what it did before it was called, if the global scope is as it was. -/
theorem repeats {formals body : Value} (possesses : m.Possesses w g (.lambda formals body (some scope)))
    (calls : Act.Calls g m m')
    (same : ∀ name, m'.binding? Scopes.global name = m.binding? Scopes.global name)
    (made : m.world.scopes.Made caller) (lives : ∀ t ∈ second, t.Obeys m.lives) :
    m.SameOutcome m' (fun _ _ => False) (Act.applyTo caller g second m)
      (Act.applyTo caller g second m') := by
  -- Both calls are followed in worlds that the machines mirror, before and after the other calls.
  obtain ⟨_, mirrors, _⟩ := possesses.stands
  obtain ⟨w', held, depth, limit, files, frames⟩ := possesses.calls calls
  obtain ⟨_, mirrors', _⟩ := held.stands
  have kept := possesses.extends_of_frames held frames same
  -- The same call is made before the other calls and after them.
  obtain ⟨v, m₂, ran, _, _, _, held₂, _⟩ := possesses.applyTo made lives
  obtain ⟨v', m₂', ran', _, _, _, held₂', _⟩ := held.applyTo (frames.made caller made) fun t member =>
    Machine.lives_later (lives t member) frames.made
  rw [depth, limit] at held₂'
  rw [ran, ran']
  -- Between the two worlds nothing has changed but what the other calls have made.
  have related := possesses.rooted.since possesses.rooted.ordered held.rooted.ordered (.refl _) kept
    (by rw [← mirrors.limit, ← mirrors'.limit, limit]) files.symm
  -- What lives on the machine is related to itself, and so is the function.
  have old : ∀ s, w.scopes.Made s → (Comparison.since w w w' possesses.rooted.global (Nat.le_refl _)
      kept.within).scopes s s := fun s made => .inl ⟨rfl, made⟩
  have itself : ∀ {t : Value}, t.Obeys (.closes w.scopes.Made) → (Comparison.since w w w'
      possesses.rooted.global (Nat.le_refl _) kept.within).values w.scopes t t := fun closes =>
    World.Rooted.values old (Nat.le_refl _) closes fun _ _ => rfl
  -- So the second call resembles the first one.
  have resembles := Run.resembles_call (Run.blind_eval (m.world.limit - m.depth)) related
    ⟨old caller (mirrors.made.mpr made), mirrors.made.mpr made⟩ (itself possesses.closes)
    (List.forall₂_same.mpr fun t member => itself (mirrors.closes (lives t member)))
  refine Machine.sameOutcome_of_resembles rfl (resembles.imp fun _ _ => .inl) held₂ held₂'
    (fun s made => ⟨old s (mirrors.made.mpr made), mirrors.made.mpr made⟩)
    ⟨mirrors.output, mirrors'.output⟩ ⟨mirrors.asked, mirrors'.asked⟩

end Machine.Possesses

/-- After any requests to a session, and at any depth, the operation that makes functions is there. -/
theorem possesses_lambda (files : Files) (requests : List Request) :
    ∃ m w, requests.forM Act.perform (Machine.standard files) = .ok () m ∧ ∀ depth,
      Machine.Possesses { m with depth := depth } w (.builtin (.primitive .lambda))
        (.primitive .lambda) := by
  -- The operation is an atom, so it stands for itself on any machine.
  obtain ⟨_, _, mirrors, idle⟩ := mirrors_standard files
  obtain ⟨m, store, ran, mirrors, _⟩ := mirrors.session requests idle
  obtain ⟨_, isolated⟩ := isolated_standard files
  obtain ⟨kept, isolated⟩ := isolated.session requests ran
  refine ⟨m, Run.after (requests.forM Request.perform) (World.standard files), ran, fun depth => ?_⟩
  have step : Step (fun _ => False) kept m kept { m with depth := depth } :=
    isolated.step_of_same rfl rfl
  exact ⟨⟨store, mirrors.atDepth _, yields_atom rfl⟩, (World.rooted_standard files).session requests,
    trivial, kept, step.isolated, Act.loose_of_plain rfl rfl⟩

/--
A function may be given its arguments in two goes, and what waits for the second may be used again.

After any requests to a session, a function is made of formals and a body, in any scope and with any
number of reductions in progress. It is given fewer arguments than there are formals before the first
marker. Given others then, what it gave has the same outcome that the function has with all of them: the
results are the same, but for the captured scopes, which correspond one to one and show the same, the
same text has been printed, and every scope that there was binds the same. Only failures with too many
arguments count these differently.

However often what it gave is called, with whatever arguments there are, no scope that there was is
changed but the global one. If this binds what it did, the next call has the outcome that it would have
had without the others.
-/
theorem partial_application (files : Files) (requests : List Request) :
    ∃ m, requests.forM Act.perform (Machine.standard files) = .ok () m ∧
      ∀ (depth : Nat) (scope caller : ScopeId) (names : List String) (body first : List Value),
        m.world.scopes.Made scope → m.world.scopes.Made caller →
        (∀ t ∈ body ++ first, t.Obeys m.lives) → first.length < names.idxOf variadicMarker →
        ∃ f m₀ g m₁, Act.makeFunction scope names body { m with depth := depth } = .ok f m₀ ∧
          Act.applyTo caller f first m₀ = .ok g m₁ ∧
          (∀ second, (∀ t ∈ second, t.Obeys m.lives) →
            m₀.SameOutcome m₀ (CountsDiffer names first second)
              (Act.applyTo caller g second m₁) (Act.applyTo caller f (first ++ second) m₀)) ∧
          ∀ m₂, Act.Calls g m₁ m₂ → m₁.Frames (· = Scopes.global) m₂ ∧
            ((∀ name, m₂.binding? Scopes.global name = m₁.binding? Scopes.global name) →
              ∀ second, (∀ t ∈ second, t.Obeys m₁.lives) →
                m₁.SameOutcome m₂ (fun _ _ => False)
                  (Act.applyTo caller g second m₁) (Act.applyTo caller g second m₂)) := by
  obtain ⟨m, w, ran, possesses⟩ := possesses_lambda files requests
  refine ⟨m, ran, fun depth scope caller names body first made called lives fewer => ?_⟩
  -- The formals and the body are made of symbols and of what is on the machine.
  obtain ⟨livesBody, livesFirst⟩ := List.forall_mem_append.mp lives
  have parts : ∀ t ∈ [Value.qexpr (names.map .symbol), .qexpr body],
      t.Obeys (Machine.lives { m with depth := depth }) := by
    intro t member
    rcases List.mem_pair.mp member with rfl | rfl
    · refine Value.obeyAll_iff.mpr fun v inside => ?_
      obtain ⟨name, _, rfl⟩ := List.mem_map.mp inside
      trivial
    · exact Value.obeyAll_iff.mpr livesBody
  -- The function is made by a call of its operation, with these parts.
  obtain ⟨f, m₀, ran₀, _, _, _, held, _⟩ := (possesses depth).applyTo made parts
  rw [call_lambda] at held
  -- Making a function makes no scope.
  have there : ∀ s, m.world.scopes.Made s → m₀.world.scopes.Made s := fun _ =>
    (possesses depth).made held (Nat.le_refl _)
  -- What the first call gives is a function again, to which the same applies.
  obtain ⟨g, m₁, bound, ran₁, held₁, curries⟩ := held.curries (there caller called)
    (fun t member => Machine.lives_later (livesFirst t member) there) fewer
  refine ⟨f, m₀, g, m₁, ran₀, ran₁, fun second others => curries second fun t member =>
    Machine.lives_later (others t member) there, fun m₂ calls => ?_⟩
  -- After any further calls the partial application still behaves alike.
  obtain ⟨_, _, _, _, _, frames⟩ := held₁.calls calls
  refine ⟨frames, fun same second others => held₁.repeats calls same ?_ others⟩
  exact held.made held₁ (w.extends_entered scope bound).within (there caller called)

end QLisp.Shared
