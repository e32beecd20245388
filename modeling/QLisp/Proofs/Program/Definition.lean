import QLisp.Proofs.Censoring
import QLisp.Proofs.Program.BypassingSession
import QLisp.Proofs.Resuming

/-!
Functions that are defined with and without `fun`.

A function that `fun` defines captured the scope of the call of `fun`, and one that is made and defined
without it captured the global scope. Programs do the same after either definition, if they do not have
the names that `fun` keeps to itself. To see this the scope of the call is bypassed, in a world with as
many scopes; and one scope more that nobody has seen makes no difference either.
-/

namespace QLisp

open Library Run

variable {base w u u' x : World Value} {files : Files} {f : Function} {own s s' t t' : ScopeId}
  {c : Comparison} {name : String}

/-- A function holds no other functions than its definition does. -/
theorem Library.Function.obeys_closure {rule : FunctionRule} (plain : ∀ rule, f.definition.Obeys rule)
    (captured : rule (.qexpr (f.formals.map .symbol)) (.qexpr f.body) (some s)) :
    (f.closure s).Obeys rule := by
  obtain ⟨_, signature, body, _⟩ := plain rule
  exact ⟨captured, signature.2, body⟩

/-- A function is hygienic when its definition has none of the names that `fun` keeps to itself. -/
theorem Library.Function.hygienic_closure {rule : FunctionRule}
    (free : ∀ name ∈ definer.formals, name ∉ f.definition.symbols) : (f.closure s).Hygienic rule := by
  refine Value.hygienic_of_symbols _ fun name inside => ?_
  have outside := free name inside
  simp only [Function.definition, Value.sexpr, Value.qexpr, Value.symbols, Value.symbolsAll,
    List.mem_append, List.map_cons] at outside
  simp only [Function.closure, Value.qexpr, Value.symbols, List.mem_append]
  tauto

namespace World

/-- A scope below the global one has been made that nobody has seen. -/
def beside (w : World Value) : World Value :=
  { w with scopes := w.scopes.extend (some Scopes.global) }

/-- A scope that nobody has seen makes no other difference to a world in which a function is defined. -/
theorem grown_beside (global : w.scopes.Made Scopes.global) (f : Function) :
    (w.assigned f).Grown (w.beside.assigned f) where
  kept := {
    within := by simp [Scopes.Within, assigned, beside]
    -- The other scope is newer than all that there were, and nothing is bound in it.
    parent? s made := by
      have old : s ≠ w.scopes.next := Scopes.Made.ne_next (by simpa [assigned] using made)
      simp [assigned, beside, Scopes.parent?_extend, old]
    local? s name made := by
      have here := global.extend (some Scopes.global)
      simp [assigned, beside, Scopes.local?_bind, global, here] }
  ordered ordered id parent link := by
    -- Binding a name changes no parent.
    have before : w.scopes.ParentsFirst := fun id parent => by simpa [assigned] using ordered id parent
    rw [assigned, Scopes.parent?_bind] at link
    exact before.extend global id parent link
  output := rfl
  limit := rfl
  files := rfl
  asked := rfl

/-- A function that captured the global scope may be defined in a rooted world. -/
theorem Rooted.assigned (rooted : w.Rooted) (plain : ∀ rule, f.definition.Obeys rule) :
    (w.assigned f).Rooted := by
  have linked : (Comparison.upTo Eq .eq w).link w.scopes Scopes.global Scopes.global :=
    ⟨rfl, rooted.global⟩
  have same := (Value.alike_self (f.closure Scopes.global) fun _ _ => rfl).related
    (Function.obeys_closure plain ⟨_, rfl, linked⟩)
  exact (rooted.refl.bind linked f.name same).rooted

namespace Bypassed

/-- What is hygienic is so when a scope that has not been made yet is bypassed. -/
theorem value (hygienic : w.Hygienic files) (later : w.scopes.Continues u.scopes) {v v' : Value}
    (values : v.Bypassed (fun _ => False) w.scopes v') : v.Bypassed (· = w.scopes.next) u.scopes v' where
  -- Scopes that have been made are none that is made next.
  related := values.related.widen fun s s' linked =>
    ⟨Nat.lt_of_lt_of_le linked.1 later.within,
      .inr ⟨linked.1.ne_next, (linked.2.resolve_left fun both => both.1).2⟩⟩
  hygienic := values.hygienic.mono fun formals body captured defining => by
    -- A function captured a scope that has been made, from which no later one is seen.
    obtain ⟨s, same, made, _⟩ := defining.apart
    refine ⟨defining.waiting, defining.bodied, s, same, Nat.lt_of_lt_of_le made later.within, ?_⟩
    rw [Scopes.Avoids, later.chain hygienic.ordered made]
    exact Scopes.Avoids.next hygienic.ordered made

/-- A call of `fun` has made a scope for what it is given, which may be bypassed. -/
theorem entered (hygienic : w.Hygienic files) (f : Function) :
    (w.entered Scopes.global (definer.formals.zip f.parts)).Bypassed (· = w.scopes.next) files w.beside := by
  let bindings := definer.formals.zip f.parts
  have later : w.scopes.Continues (w.entered Scopes.global bindings).scopes :=
    (Scopes.Spares.extend _ _ _).bindAll (.inl trivial) bindings
  -- Only the scope of the call has another parent than before.
  have parent (s : ScopeId) (other : s ≠ w.scopes.next) :
      (w.entered Scopes.global bindings).scopes.parent? s = w.scopes.parent? s := by
    rw [World.entered, Scopes.parent?_bindAll, Scopes.parent?_extend, if_neg other]
  exact {
    ordered := ordered_entered hygienic.ordered hygienic.global bindings
    ordered' := hygienic.ordered.extend hygienic.global
    global := Nat.lt_of_lt_of_le hygienic.global later.within
    counted := by rw [size_entered, beside, Scopes.size_extend]
    -- A chain ends outside of the scope of the call, where it ended before.
    outermost := fun s made ends => by
      by_cases new : s = w.scopes.next
      · rw [new, parent?_entered] at ends
        cases ends
      · rw [parent s new] at ends
        have there : (w.scopes.extend (some Scopes.global)).Made s := by
          simpa [World.entered, Scopes.Made] using made
        exact hygienic.outermost s ((Scopes.made_extend.mp there).resolve_right new) ends
    -- Nothing is bound in the scope of the call but the parts of the definition.
    clear := fun s same => same ▸ w.clear_entered f
    -- Every other scope has the parent it had.
    parents := fun s other => by
      rw [parent s other, beside, Scopes.parent?_extend, if_neg other]
      exact (hygienic.parents s id).imp fun p p' linked =>
        ⟨Nat.lt_of_lt_of_le linked.1 later.within,
          .inr ⟨linked.1.ne_next, (linked.2.resolve_left fun both => both.1).2⟩⟩
    -- What is bound elsewhere is what it was.
    bound := fun s name other => by
      rw [World.entered, Scopes.local?_bindAll_of_ne other, beside, Scopes.local?_extend]
      exact (hygienic.bound s name id).imp fun _ _ values => hygienic.value later values
    output := rfl
    asked := rfl
    limit := rfl
    held := hygienic.held
    held' := hygienic.held
    readable := hygienic.readable }

/-- A definition with `fun` is the same as one without, when the scope of the call is bypassed. -/
theorem defined (hygienic : w.Hygienic files) (plain : ∀ rule, f.definition.Obeys rule)
    (free : ∀ name ∈ definer.formals, name ∉ f.definition.symbols) :
    (w.defined f).Bypassed (· = w.scopes.next) files (w.beside.assigned f) := by
  have made := made_entered w Scopes.global (definer.formals.zip f.parts)
  have entered := hygienic.entered f
  -- The parts of the function hold no scope, so they are related to themselves.
  have itself (v : Value) (plain : ∀ rule, v.Obeys rule) :
      Value.Related Eq ((w.entered Scopes.global (definer.formals.zip f.parts)).scopes.Bypass
        (· = w.scopes.next)) v v :=
    (Value.alike_self v fun _ _ => rfl).related (plain _)
  -- The function is bound in the global scope, which is not bypassed.
  refine entered.bind entered.global entered.global_own f.name
    ⟨.lambda (itself _ fun rule => ?_) (itself _ fun rule => ?_) ⟨made, .inl ⟨rfl, rfl⟩⟩,
      Function.hygienic_closure free⟩
  · exact (plain rule).2.1.2
  · exact (plain rule).2.2.1

end Bypassed

/--
Two worlds come from one in which a function has been defined, with `fun` in the first of them.

In between is a world in which the scope of the call of `fun` is bypassed, and not seen by anybody.
-/
structure Skips (base : World Value) (own : ScopeId) (files : Files) (c : Comparison)
    (u u' x : World Value) : Prop where
  /-- The scope of the call is bypassed in the world in between. -/
  bypassed : u.Bypassed (· = own) files u'
  /-- That world is abreast of the second one. -/
  abreast : base.Abreast c u' x

end World

/-- The scopes that correspond when one of them is bypassed first. -/
def Comparison.skip (c : Comparison) (own : ScopeId) (u u' : World Value) : ScopeRel :=
  Relation.Comp (u.scopes.Bypass (· = own)) (c.link u'.scopes)

/-- Scopes correspond one to one, but for the one that is bypassed. -/
theorem Comparison.skip_single (linked : c.skip own u u' s s') (linked' : c.skip own u u' t t') :
    (s = t → s' = t') ∧ (s' = t' → s = t ∨ s' = Scopes.global) := by
  obtain ⟨a, bypass, link⟩ := linked
  obtain ⟨b, bypass', link'⟩ := linked'
  have same := c.single link.1 link'.1
  have outermost : a = Scopes.global → s' = Scopes.global := (c.single link.1 c.global).mp
  -- Each of the two scopes is bypassed or is not.
  rcases bypass.2 with ⟨here, rfl⟩ | ⟨apart, rfl⟩ <;> rcases bypass'.2 with ⟨here', rfl⟩ | ⟨apart', rfl⟩
  · exact ⟨fun _ => same.mp rfl, fun _ => .inl (here.trans here'.symm)⟩
  · exact ⟨fun both => absurd (both ▸ here) apart', fun _ => .inr (outermost rfl)⟩
  · exact ⟨fun both => absurd (both ▸ here') apart, fun both => .inr (outermost (same.mpr both))⟩
  · exact ⟨same.mp, fun both => .inl (same.mpr both)⟩

/-- Answers are related when they are so to answers in between. -/
theorem Run.AnswersRelated.trans {rel rel' rel'' : Value → Value → Prop}
    {answer answer' answer'' : Except SourceError (List Value)} (first : AnswersRelated rel answer answer')
    (second : AnswersRelated rel' answer' answer'')
    (both : ∀ v v' v'', rel v v' → rel' v' v'' → rel'' v v'') : AnswersRelated rel'' answer answer'' := by
  -- Both answers in a row are values, or errors that are the same.
  cases answer <;> cases answer' <;> cases answer'' <;>
    simp only [AnswersRelated] at first second ⊢
  · exact first.trans second
  · rename_i values values' values''
    -- By induction on the values of the first answer.
    induction first generalizing values'' with
    | nil =>
      cases second
      exact .nil
    | cons head tail ih =>
      cases second with
      | cons head' tail' => exact .cons (both _ _ _ head head') (ih _ tail')

namespace World.Skips

/-- Definitions with and without `fun` lead to such worlds. -/
theorem start (hygienic : w.Hygienic files) (rooted : w.Rooted) (plain : ∀ rule, f.definition.Obeys rule)
    (free : ∀ name ∈ definer.formals, name ∉ f.definition.symbols) :
    ∃ c, Skips (w.assigned f) w.scopes.next files c (w.defined f) (w.beside.assigned f) (w.assigned f) := by
  obtain ⟨c, abreast, _⟩ := (Abreast.start (rooted.assigned plain)).grown (grown_beside rooted.global f)
  exact ⟨c, hygienic.defined plain free, abreast⟩

variable (skips : Skips base own files c u u' x)
include skips

/-- Values that are the same but for scopes that are bypassed are so but for those that correspond. -/
theorem value {v v' v'' : Value} (first : v.Bypassed (· = own) u.scopes v')
    (second : c.values u'.scopes v' v'') : Value.Related Eq (c.skip own u u') v v'' := by
  rw [Comparison.values, skips.abreast.exact] at second
  exact (first.related.trans second).mono (by rintro _ _ ⟨_, rfl, rfl⟩; rfl) fun _ _ => id

/-- So are the meanings of names, where there are any. -/
theorem values {v v' v'' : Option Value} (first : Option.Rel (Value.Bypassed (· = own) u.scopes) v v')
    (second : Option.Rel (c.values u'.scopes) v' v'') :
    Option.Rel (Value.Related Eq (c.skip own u u')) v v'' := by
  cases first with
  | none =>
    cases second
    exact .none
  | some first =>
    cases second with
    | some second => exact .some (skips.value first second)

/-- Names mean the same in scopes that correspond, but for those that `fun` keeps to itself. -/
theorem lookup? (visible : name ∉ definer.formals) (linked : c.skip own u u' s s') :
    Option.Rel (Value.Related Eq (c.skip own u u')) (u.scopes.lookup? s name)
      (x.scopes.lookup? s' name) := by
  -- The scope in between corresponds to both; a bypassed one hides no such name.
  obtain ⟨t, bypass, linked⟩ := linked
  have first : Option.Rel (Value.Bypassed (· = own) u.scopes) (u.scopes.lookup? s name)
      (u'.scopes.lookup? t name) := by
    rcases bypass.2 with ⟨inside, rfl⟩ | ⟨apart, rfl⟩
    · rw [skips.bypassed.lookup?_extra inside visible]
      exact skips.bypassed.lookup? skips.bypassed.global_own fun hidden => absurd hidden visible
    · exact skips.bypassed.lookup? apart fun hidden => absurd hidden visible
  exact skips.values first (skips.abreast.related.lookup? linked name)

/-- The scopes that there were bind the same names. -/
theorem local? (made : base.scopes.Made s) (other : s ≠ own) (name : String) :
    Option.Rel (Value.Related Eq (c.skip own u u')) (u.scopes.local? s name)
      (x.scopes.local? s name) := by
  refine skips.values (skips.bypassed.bound s name other) ?_
  refine skips.abreast.related.bound_self (fun t below => ?_) name
  exact (skips.abreast.itself t (Nat.lt_of_le_of_lt below made)).1

/-- The scopes that there were correspond to themselves. -/
theorem itself (made : base.scopes.Made s) (other : s ≠ own) : c.skip own u u' s s := by
  have linked := skips.abreast.itself s made
  refine ⟨s, ⟨?_, .inr ⟨other, rfl⟩⟩, linked⟩
  rw [Scopes.Made, ← skips.bypassed.counted]
  exact linked.2

/-- No scope is lost in between when none is lost in the first world. -/
theorem within {y y' : World Value} (bypassed : y.Bypassed (· = own) files y')
    (later : u.scopes.Continues y.scopes) : u'.scopes.Within y'.scopes := by
  rw [Scopes.Within, skips.bypassed.counted, bypassed.counted]
  exact later.within

/-- Sessions lead to such worlds. -/
theorem session {requests : List Request} (hygienic : ∀ request ∈ requests, request.Hygienic files) :
    Skips base own files c (after (requests.forM Request.perform) u)
      (after (requests.forM Request.perform) u') (after (requests.forM Request.perform) x) := by
  obtain ⟨bypassed, later⟩ := skips.bypassed.session requests hygienic
  exact ⟨bypassed, skips.abreast.later (skips.abreast.related.session fun _ _ _ _ => skips.abreast.exact ▸ rfl)
    (skips.within bypassed later)⟩

/-- Sources lead to such worlds, and are answered in the same way. -/
theorem source {source : Source} (hygienic : source.Hygienic files) :
    let outcome := evaluateSource source u
    let outcome' := evaluateSource source u'
    let outcome'' := evaluateSource source x
    Skips base own files c outcome.2 outcome'.2 outcome''.2 ∧
      AnswersRelated (Value.Related Eq (c.skip own outcome.2 outcome'.2)) outcome.1 outcome''.1 := by
  have first := bypasses_evaluateSource skips.bypassed hygienic
  have second := skips.abreast.related.resembles_source blind_evaluate source
    fun _ _ => skips.abreast.exact ▸ rfl
  rw [← evaluateSource_eq] at second
  have later : Skips base own files c (evaluateSource source u).2 (evaluateSource source u').2
      (evaluateSource source x).2 :=
    ⟨first.world, skips.abreast.later second.world second.within⟩
  exact ⟨later, first.good.trans second.good fun _ _ _ => later.value⟩

/-- The same text has been printed in both worlds. -/
theorem output : x.output = u.output := by
  obtain ⟨text, text', printed, printed', same⟩ := skips.abreast.related.output
  rw [skips.abreast.exact] at same
  rw [← skips.bypassed.output, printed, printed', ← skips.abreast.output.1, ← skips.abreast.output.2,
    same.eq]

/-- The same paths have been asked for in both worlds. -/
theorem asked : x.asked = u.asked := by
  obtain ⟨paths, asked, asked'⟩ := skips.abreast.related.asked
  rw [← skips.bypassed.asked, asked, asked', ← skips.abreast.asked.1, ← skips.abreast.asked.2]

/-- The limit is the same in both worlds. -/
theorem limit : x.limit = u.limit :=
  skips.abreast.related.limit.symm.trans skips.bypassed.limit

end World.Skips

/-! ### Files that have been asked for -/

/-- Files in which there are texts with the names that `fun` keeps to itself. -/
def Files.Revealing (files : Files) (path : Text.Bytes) : Prop :=
  ¬ files.HygienicAt path

/-- Without such files all files are hygienic. -/
theorem Files.hygienic_censored (files : Files) : (files.censored files.Revealing).Hygienic := by
  intro path bytes forms found
  by_cases reveals : files.Revealing path
  · rw [censored, if_pos reveals] at found
    cases found
  · rw [censored, if_neg reveals] at found
    exact not_not.mp reveals bytes forms found

/-- A source that is hygienic is so without such files. -/
theorem Source.Hygienic.censored {source : Source} {barred : Text.Bytes → Prop}
    (hygienic : source.Hygienic files) : source.Hygienic (files.censored barred) := by
  -- Reading a barred file fails, which gives no expressions.
  cases source with
  | file path =>
    intro expressions read
    by_cases bars : barred path
    · rw [Source.read, Files.censored, if_pos bars] at read
      cases read
    · rw [Source.read, Files.censored, if_neg bars] at read
      exact hygienic expressions read
  | _ => exact hygienic

/-- A request that is hygienic is so without such files. -/
theorem Request.Hygienic.censored {request : Request} {barred : Text.Bytes → Prop}
    (hygienic : request.Hygienic files) : request.Hygienic (files.censored barred) := by
  cases request with
  | evaluate source => exact Source.Hygienic.censored hygienic
  | _ => trivial

namespace World

/-- Expressions and then a session lead to the same world without some files, unless these are asked for. -/
theorem censored_after {barred : Text.Bytes → Prop} {library : List Value} {requests : List Request}
    (quiet : ¬ (after (requests.forM Request.perform)
      (after (Run.each evaluate Scopes.global library) w)).Tainted barred) :
    (after (requests.forM Request.perform)
        (after (Run.each evaluate Scopes.global library) w)).censored barred =
      after (requests.forM Request.perform)
        (after (Run.each evaluate Scopes.global library) (w.censored barred)) := by
  have first := (censoring barred).each (censored_evaluate barred) Scopes.global library
  have second := Run.censored_session barred requests
  have early : ¬ (after (Run.each evaluate Scopes.global library) w).Tainted barred := fun asked =>
    quiet (second.stays _ asked)
  have middle := congrArg Prod.snd (first.eq early)
  have ends := congrArg Prod.snd (second.eq quiet)
  exact ends.symm.trans (congrArg (after (requests.forM Request.perform)) middle).symm

/-- A session leads to the same world without some files, unless one of them has been asked for. -/
theorem censored_session {barred : Text.Bytes → Prop} {requests : List Request}
    (quiet : ¬ (after (requests.forM Request.perform) (standard files)).Tainted barred) :
    (after (requests.forM Request.perform) (standard files)).censored barred =
      after (requests.forM Request.perform) (standard (files.censored barred)) := by
  rw [standard] at quiet ⊢
  rw [standard, censored_after quiet]
  rfl

/-- A session in which only hygienic files have been asked for leads to a hygienic world without others. -/
theorem hygienic_session {requests : List Request} (hygienic : ∀ request ∈ requests, request.Hygienic files)
    (quiet : ¬ (after (requests.forM Request.perform) (standard files)).Tainted files.Revealing) :
    ((after (requests.forM Request.perform) (standard files)).censored files.Revealing).Hygienic
      (files.censored files.Revealing) := by
  rw [censored_session quiet]
  exact ((hygienic_standard files.hygienic_censored).session requests fun request member =>
    (hygienic request member).censored).1

/-- Definitions with and without `fun` lead to worlds that correspond without some files. -/
theorem Skips.censored {barred : Text.Bytes → Prop} (rooted : w.Rooted)
    (plain : ∀ rule, f.definition.Obeys rule)
    (free : ∀ name ∈ definer.formals, name ∉ f.definition.symbols)
    (hygienic : (w.censored barred).Hygienic files) :
    ∃ c u', Skips ((w.assigned f).censored barred) w.scopes.next files c ((w.defined f).censored barred) u'
      ((w.assigned f).censored barred) := by
  have alone : (w.censored barred).Rooted := rooted.congr rfl
  obtain ⟨c, start⟩ := Skips.start hygienic alone plain free
  exact ⟨c, _, start⟩

/--
A session and then a source do the same in worlds that correspond without some files.

Only hygienic files have been asked for in the end.
-/
theorem Skips.runs
    (skips : Skips base own (files.censored files.Revealing) c (u.censored files.Revealing) u'
      (x.censored files.Revealing))
    {later : List Request} (readable : ∀ request ∈ later, request.Hygienic files)
    {source : Source} (readable' : source.Hygienic files)
    (quiet : ¬ (evaluateSource source (after (later.forM Request.perform) u)).2.Tainted files.Revealing) :
    let outcome := evaluateSource source (after (later.forM Request.perform) u)
    let outcome' := evaluateSource source (after (later.forM Request.perform) x)
    ∃ y, Skips base own (files.censored files.Revealing) c (outcome.2.censored files.Revealing) y
        (outcome'.2.censored files.Revealing) ∧
      AnswersRelated (Value.Related Eq (c.skip own outcome.2 y)) outcome.1 outcome'.1 := by
  intro outcome outcome'
  -- Both runs perform the later requests and evaluate the source.
  let run : Run (Except SourceError (List Value)) := do
    later.forM Request.perform
    evaluateSource source
  -- Files that reveal something may be taken away, as long as nobody asks for them.
  have runs : Censored files.Revealing run run := (censoring _).bind (Run.censored_session _ later)
    fun _ => censored_evaluateSource _ source
  have ended : Skips base own (files.censored files.Revealing) c (run (u.censored files.Revealing)).2
        (run u').2 (run (x.censored files.Revealing)).2 ∧
      AnswersRelated (Value.Related Eq (c.skip own (run (u.censored files.Revealing)).2 (run u').2))
        (run (u.censored files.Revealing)).1 (run (x.censored files.Revealing)).1 :=
    (skips.session fun request member => (readable request member).censored).source readable'.censored
  -- The same paths are asked for, so the second run does not ask for other files either.
  have first : run (u.censored files.Revealing) = (outcome.1, outcome.2.censored files.Revealing) :=
    runs.eq quiet
  have quiet' : ¬ (run (x.censored files.Revealing)).2.Tainted files.Revealing := by
    have asked : (run (x.censored files.Revealing)).2.asked = outcome.2.asked :=
      ended.1.asked.trans (congrArg (·.2.asked) first)
    rw [Tainted, asked]
    exact quiet
  -- What the runs did without those files is what they do with them.
  have second : run (x.censored files.Revealing) = (outcome'.1, outcome'.2.censored files.Revealing) :=
    runs.eq' quiet'
  -- Together these are the outcomes that are compared.
  rw [first, second] at ended
  exact ⟨_, ended⟩

end World
end QLisp
