import QLisp.Proofs.Likeness
import QLisp.Proofs.Settling

/-!
Every scope leads to the global one.

Functions of a program capture scopes that have been made, and the scope of a call is below one of
these. So every chain ends in the global scope. A world in which this holds corresponds to itself, and
evaluation keeps that, because it does the same on both sides.
-/

namespace QLisp

/-- Every scope leads to the global one, and functions captured scopes that have been made. -/
structure World.Rooted (w : World Value) : Prop where
  /-- Parents are made before their children. -/
  ordered : w.scopes.ParentsFirst
  /-- There is a global scope. -/
  global : w.scopes.Made Scopes.global
  /-- Every other scope has a parent. -/
  outermost (s : ScopeId) : w.scopes.Made s → w.scopes.parent? s = none → s = Scopes.global
  /-- Functions in bindings captured scopes that have been made. -/
  captured (s : ScopeId) (name : String) (v : Value) : w.scopes.local? s name = some v →
    v.Obeys (.closes w.scopes.Made)

namespace World.Rooted

variable {c : Comparison} {w : World Value} {scopes scopes' : Scopes Value} {s : ScopeId}

/-- What a world holds is related to itself where its scopes correspond to themselves. -/
theorem values (same : ∀ s, w.scopes.Made s → c.scopes s s) (within : w.scopes.Within scopes)
    {v : Value} (captured : v.Obeys (.closes w.scopes.Made))
    (failures : ∀ e ∈ v.failures, c.failures e e) : c.values scopes v v := by
  refine (Value.alike_self v failures).related (captured.mono ?_)
  rintro _ _ _ ⟨s, rfl, made⟩
  exact ⟨s, rfl, same s made, Nat.lt_of_lt_of_le made within⟩

/-- A scope that is as it was on both sides shows the same. -/
theorem stacked (rooted : w.Rooted) (same : ∀ s, w.scopes.Made s → c.scopes s s)
    (failures : ∀ s name v, w.scopes.local? s name = some v → ∀ e ∈ v.failures, c.failures e e)
    (extends₁ : w.scopes.Extends scopes) (extends₂ : w.scopes.Extends scopes')
    (made : w.scopes.Made s) : c.Stacked scopes scopes' s s [] (w.scopes.parent? s) where
  climbs := extends₁.parent? s made
  above := by
    rw [extends₂.parent? s made]
    -- The parent is older than the scope, so it corresponds to itself as well.
    cases link : w.scopes.parent? s with
    | none => exact .none
    | some p => exact .some (same p (Nat.lt_trans (rooted.ordered s p link) made))
  outermost ends := ⟨rooted.outermost s made ends, rfl⟩
  hidden := by simp
  bound name := by
    rw [List.findSome?_cons, List.findSome?_nil, extends₁.local? s name made,
      extends₂.local? s name made]
    -- What was bound at the start is captured by the start, and so stays as it was.
    cases found : w.scopes.local? s name with
    | none => exact .none
    | some v =>
      exact .some (values same extends₁.within (rooted.captured s name v found) (failures s name v found))

end World.Rooted

/-- Equality of failures is a relation that no evaluation can tell from equality. -/
theorem FailureRel.Faithful.eq : FailureRel.Faithful Eq where
  exact same same' := by rw [same, same']
  evaluation _ := rfl
  loading _ _ := rfl

/-- Worlds with the same scopes are compared, up to failures that no evaluation can tell apart. -/
def Comparison.upTo (rel : FailureRel) (faithful : rel.Faithful) (w : World Value) : Comparison where
  failures := rel
  scopes := Eq
  first := w
  second := w
  faithful := faithful
  single := by rintro _ _ _ _ rfl rfl; rfl
  global := rfl
  early := by rintro _ _ rfl; rfl
  later _ := rfl

variable {rel : FailureRel} {faithful : rel.Faithful} {w u u' x : World Value}

/-- A world corresponds to itself when failures in its bindings and files are related to themselves. -/
theorem World.Rooted.related (rooted : w.Rooted)
    (failures : ∀ s name v, w.scopes.local? s name = some v → ∀ e ∈ v.failures, rel e e)
    (steady : w.files.Steady rel) : w.Related (.upTo rel faithful w) w where
  ordered := rooted.ordered
  ordered' := rooted.ordered
  global := rooted.global
  counted := ⟨0, rfl, rfl⟩
  stacked := by
    rintro s _ ⟨rfl, made⟩
    exact ⟨[], _, rooted.stacked (fun _ _ => rfl) failures (.refl _) (.refl _) made⟩
  output := ⟨[], [], (List.append_nil _).symm, (List.append_nil _).symm, .nil⟩
  asked := ⟨[], rfl, rfl⟩
  limit := rfl
  files := rfl
  unchanged := rfl
  steady := steady

/-- What holds related values holds functions that captured scopes that have been made. -/
theorem Comparison.closes {c : Comparison} {scopes : Scopes Value} {v v' : Value}
    (related : c.values scopes v v') : v.Obeys (.closes scopes.Made) := by
  refine (Value.Related.closes related).mono ?_
  rintro _ _ _ ⟨s, rfl, _, _, made⟩
  exact ⟨s, rfl, made⟩

namespace World.Related

variable {c : Comparison} {s : ScopeId}

/-- Where scopes correspond to themselves, none is behind another one. -/
theorem stacked_self (related : u.Related c u') (own : ∀ t : ScopeId, t.index ≤ s.index → c.scopes t t)
    (made : u.scopes.Made s) : c.Stacked u.scopes u'.scopes s s [] (u.scopes.parent? s) := by
  obtain ⟨back, top, stacked⟩ := related.stacked ⟨own s (Nat.le_refl _), made⟩
  -- A scope behind would be older and so correspond to itself, but what is behind corresponds to
  -- nothing.
  cases back with
  | nil =>
    have above : u.scopes.parent? s = top := stacked.climbs
    rw [above]
    exact stacked
  | cons b rest =>
    have earlier := (stacked.climbs.below related.ordered).1 b List.mem_cons_self
    exact absurd (own b (Nat.le_of_lt earlier)) (stacked.hidden b List.mem_cons_self b)

/-- Where scopes correspond to themselves, they have the same parents. -/
theorem parent?_self (related : u.Related c u') (own : ∀ t : ScopeId, t.index ≤ s.index → c.scopes t t) :
    u.scopes.parent? s = u'.scopes.parent? s := by
  have same : c.scopes s s := own s (Nat.le_refl _)
  -- A scope that has been made has its parent above it on both sides; one that has not is in
  -- neither.
  by_cases made : u.scopes.Made s
  -- Above it is what corresponds to its parent.
  · have above := (related.stacked_self own made).above
    cases parent : u.scopes.parent? s with
    | none =>
      rw [parent] at above
      generalize u'.scopes.parent? s = parent' at above
      cases above
      rfl
    | some p =>
      have earlier := related.ordered s p parent
      rw [parent] at above
      generalize u'.scopes.parent? s = parent' at above
      cases above with
      -- The parent corresponds to itself, and to nothing else.
      | some linked =>
        exact congrArg some ((c.single (own p (Nat.le_of_lt earlier)) linked).mp rfl)
  -- A scope that has not been made has no parent on either side.
  · have unmade := (related.made same).not.mp made
    rw [Scopes.parent?, Scopes.parent?, Scopes.get?_eq_none_iff.mpr made,
      Scopes.get?_eq_none_iff.mpr unmade]

/-- Where scopes correspond to themselves, they bind the same names to related values. -/
theorem bound_self (related : u.Related c u') (own : ∀ t : ScopeId, t.index ≤ s.index → c.scopes t t)
    (name : String) : Option.Rel (c.values u.scopes) (u.scopes.local? s name) (u'.scopes.local? s name) := by
  have same : c.scopes s s := own s (Nat.le_refl _)
  by_cases made : u.scopes.Made s
  · have shown := (related.stacked_self own made).bound name
    rw [List.findSome?_cons, List.findSome?_nil] at shown
    cases found : u.scopes.local? s name <;> rwa [found] at shown
  · rw [Scopes.local?_of_not_made made, Scopes.local?_of_not_made ((related.made same).not.mp made)]
    exact .none

/-- A world that corresponds to one with the same scopes is rooted. -/
theorem rooted (related : u.Related (.upTo rel faithful x) u') : u.Rooted where
  ordered := related.ordered
  global := related.global
  outermost s made ends := ((related.stacked_self (fun _ _ => rfl) made).outermost ends).1
  captured s name v found := by
    have shown := related.bound_self (s := s) (fun _ _ => rfl) name
    rw [found] at shown
    generalize u'.scopes.local? s name = found' at shown
    cases shown with
    | some values => exact Comparison.closes values

end World.Related

/-! ### Worlds with a common past -/

/-- Values are like themselves when failures are. -/
theorem Value.alikeAll_refl (values : List Value) : Value.AlikeAll Eq values values :=
  Value.alikeAll_self values fun _ _ => rfl

namespace Scopes.Within

variable {base first second : Scopes Value} {s s' t t' : ScopeId}

/--
What was there has a smaller identity than what is made later, so scopes that correspond to themselves
or in the order in which they are made correspond to no more than one.
-/
theorem single (kept : base.Within first) (kept' : base.Within second)
    (one : s = s' ∧ base.Made s ∨
      ∃ count, s = ⟨first.made.size + count⟩ ∧ s' = ⟨second.made.size + count⟩)
    (other : t = t' ∧ base.Made t ∨
      ∃ count, t = ⟨first.made.size + count⟩ ∧ t' = ⟨second.made.size + count⟩) :
    s = t ↔ s' = t' := by
  simp only [Within] at kept kept'
  obtain ⟨s⟩ := s
  obtain ⟨s'⟩ := s'
  obtain ⟨t⟩ := t
  obtain ⟨t'⟩ := t'
  rcases one with ⟨_, made⟩ | ⟨count, _, _⟩ <;> rcases other with ⟨_, made'⟩ | ⟨count', _, _⟩ <;>
    simp only [Made, ScopeId.mk.injEq] at * <;> omega

/-- Of scopes that correspond so, both were there or neither. -/
theorem early (kept : base.Within first) (kept' : base.Within second)
    (one : s = s' ∧ base.Made s ∨
      ∃ count, s = ⟨first.made.size + count⟩ ∧ s' = ⟨second.made.size + count⟩) :
    first.Made s ↔ second.Made s' := by
  simp only [Within] at kept kept'
  obtain ⟨s⟩ := s
  obtain ⟨s'⟩ := s'
  rcases one with ⟨_, made⟩ | ⟨count, _, _⟩ <;>
    simp only [Made, ScopeId.mk.injEq] at * <;> omega

end Scopes.Within

/--
Worlds are compared in which the scopes of an earlier one have not changed.

The scopes of the earlier world correspond to themselves, and the scopes that are made from now on
correspond in the order in which they are made. Others, made in between, correspond to nothing.
-/
def Comparison.since (base first second : World Value) (global : base.scopes.Made Scopes.global)
    (kept : base.scopes.Within first.scopes) (kept' : base.scopes.Within second.scopes) :
    Comparison where
  failures := Eq
  scopes s s' := s = s' ∧ base.scopes.Made s ∨
    ∃ count, s = ⟨first.scopes.made.size + count⟩ ∧ s' = ⟨second.scopes.made.size + count⟩
  first := first
  second := second
  faithful := .eq
  single := kept.single kept'
  global := .inl ⟨rfl, global⟩
  early := kept.early kept'
  later count := .inr ⟨count, rfl, rfl⟩

/-- Worlds in which the scopes of a rooted world have not changed correspond. -/
theorem World.Rooted.since (rooted : w.Rooted) (ordered : u.scopes.ParentsFirst)
    (ordered' : u'.scopes.ParentsFirst) (kept : w.scopes.Extends u.scopes)
    (kept' : w.scopes.Extends u'.scopes) (limit : u.limit = u'.limit) (files : u.files = u'.files) :
    u.Related (.since w u u' rooted.global kept.within kept'.within) u' where
  ordered := ordered
  ordered' := ordered'
  global := Nat.lt_of_lt_of_le rooted.global kept.within
  counted := ⟨0, rfl, rfl⟩
  stacked := by
    rintro s s' ⟨linked, there⟩
    -- Nothing has been made on either side since.
    rcases (linked : _ ∨ _) with ⟨rfl, made⟩ | ⟨count, rfl, rfl⟩
    · exact ⟨[], _, rooted.stacked (fun s made => .inl ⟨rfl, made⟩) (fun _ _ _ _ _ _ => rfl) kept
        kept' made⟩
    · exact absurd (show u.scopes.made.size + count < u.scopes.made.size from there) (by omega)
  output := ⟨[], [], (List.append_nil _).symm, (List.append_nil _).symm, .nil⟩
  asked := ⟨[], rfl, rfl⟩
  limit := limit
  files := files
  unchanged := rfl
  steady _ _ _ _ _ := Value.alikeAll_iff.mp (Value.alikeAll_refl _)

/-! ### Sessions -/

/-- A rooted world corresponds to itself. -/
theorem World.Rooted.refl (rooted : w.Rooted) : w.Related (.upTo Eq .eq w) w :=
  rooted.related (fun _ _ _ _ _ _ => rfl) fun _ _ _ _ _ =>
    Value.alikeAll_iff.mp (Value.alikeAll_refl _)

/-- A fresh world is rooted. -/
theorem World.rooted_initial (files : Files) : (World.initial files).Rooted where
  ordered s parent link := by simp [World.initial] at link
  global := Scopes.made_initial
  outermost s made _ := by
    -- Only the global scope has been made.
    obtain ⟨index⟩ := s
    simp only [World.initial, Scopes.Made, Scopes.initial, List.size_toArray, List.length_cons,
      List.length_nil] at made
    obtain rfl : index = 0 := by omega
    rfl
  captured s name v found := by simp [World.initial] at found

/-- Names that are bound to values without functions leave a world rooted. -/
theorem World.Rooted.bindAll (rooted : w.Rooted) {bindings : List (String × Value)}
    (plain : ∀ b ∈ bindings, ∀ rule, b.2.Obeys rule) :
    World.Rooted { w with scopes := w.scopes.bindAll Scopes.global bindings } := by
  have linked : (Comparison.upTo Eq .eq w).link w.scopes Scopes.global Scopes.global :=
    ⟨rfl, rooted.global⟩
  refine (rooted.refl.bindAll linked (List.forall₂_same.mpr fun b member => ⟨rfl, ?_⟩)).rooted
  exact (Value.alike_self b.2 fun _ _ => rfl).related (plain b member _)

/--
Evaluating expressions without functions leaves worlds that correspond.

The failures inside the expressions have to be related to themselves.
-/
theorem World.Related.each {c : Comparison} (related : u.Related c u') {expressions : List Value}
    (plain : ∀ v ∈ expressions, ∀ rule, v.Obeys rule)
    (own : ∀ v ∈ expressions, ∀ e ∈ v.failures, c.failures e e) :
    (Run.after (Run.each Run.evaluate Scopes.global expressions) u).Related c
      (Run.after (Run.each Run.evaluate Scopes.global expressions) u') := by
  have linked : c.link u.scopes Scopes.global Scopes.global := ⟨c.global, related.global⟩
  refine (Run.resembles_each Run.blind_evaluate related linked
    (List.forall₂_same.mpr fun v member => ?_)).world
  exact (Value.alike_self v (own v member)).related (plain v member _)

/-- Evaluating expressions without functions leaves a world that corresponds to itself. -/
theorem World.Rooted.related_each (rooted : w.Rooted) {expressions : List Value}
    (plain : ∀ v ∈ expressions, ∀ rule, v.Obeys rule) :
    (Run.after (Run.each Run.evaluate Scopes.global expressions) w).Related (.upTo Eq .eq w)
      (Run.after (Run.each Run.evaluate Scopes.global expressions) w) :=
  rooted.refl.each plain fun _ _ _ _ => rfl

/-- Evaluating expressions without functions leaves a world rooted. -/
theorem World.Rooted.each (rooted : w.Rooted) {expressions : List Value}
    (plain : ∀ v ∈ expressions, ∀ rule, v.Obeys rule) :
    (Run.after (Run.each Run.evaluate Scopes.global expressions) w).Rooted :=
  (rooted.related_each plain).rooted

/-- The world with the operations bound is rooted. -/
theorem World.rooted_withPrimitives (files : Files) : (World.withPrimitives files).Rooted := by
  refine (World.rooted_initial files).bindAll fun b member rule => ?_
  obtain ⟨p, _, rfl⟩ := List.mem_map.mp member
  trivial

/-- The world that a program starts in is rooted. -/
theorem World.rooted_standard (files : Files) : (World.standard files).Rooted :=
  -- The operations are bound first, and then the library is evaluated like a source.
  (World.rooted_withPrimitives files).each fun v member _ => Library.obeys_expression v member

/-- Being rooted depends on the scopes alone. -/
theorem World.Rooted.congr (rooted : w.Rooted) (same : u.scopes = w.scopes) : u.Rooted where
  ordered := same ▸ rooted.ordered
  global := same ▸ rooted.global
  outermost := same ▸ rooted.outermost
  captured := same ▸ rooted.captured

/-- The expressions of a source hold no functions. -/
theorem Source.obeys_of_read {source : Source} {files : Files} {expressions : List Value}
    (found : source.read files = .ok expressions) :
    ∀ v ∈ expressions, ∀ rule, v.Obeys rule := by
  let fresh : World Value := .initial files
  have answer : (Run.readSource source fresh).1 = .ok expressions := by
    rw [Run.readSource_run]
    exact found
  obtain ⟨forms, rfl⟩ := (Run.readSource_forms source fresh).2 expressions answer
  exact fun v member _ => Form.obeys_of_mem_toValues member

/-- The failures inside the expressions of a source. -/
def Source.failures (files : Files) (source : Source) : List Failure :=
  match source.read files with
  | .ok expressions => Value.failuresAll expressions
  | .error _ => []

/-- The failures inside the expressions that a request brings. -/
def Request.failures (files : Files) : Request → List Failure
  | .evaluate source => source.failures files
  | _ => []

/--
A source is answered in the same way by evaluators that do the same.

The failures inside its expressions have to be related to themselves.
-/
theorem World.Related.resembles_source {c : Comparison} {ev ev' : Evaluator} (related : u.Related c u')
    (blind : Run.Blind c ev ev') (source : Source)
    (own : ∀ e ∈ source.failures c.first.files, c.failures e e) :
    Run.Resembles c u u' (Run.evaluateSourceBy ev source) (Run.evaluateSourceBy ev' source)
      fun scopes => Run.AnswersRelated (c.values scopes) := by
  refine Run.resembles_evaluateSourceBy blind related source fun expressions found => ?_
  rw [Source.failures, ← related.unchanged, found] at own
  -- The expressions are like themselves, and hold no functions.
  refine Value.relatedAll_iff.mp ((Value.alikeAll_self expressions own).related ?_)
  exact Value.obeyAll_iff.mpr fun v member => Source.obeys_of_read found v member _

/-- A request leaves worlds that correspond, if the failures that it brings are related to themselves. -/
theorem World.Related.perform {c : Comparison} (related : u.Related c u') (request : Request)
    (own : ∀ e ∈ request.failures c.first.files, c.failures e e) :
    (Run.after request.perform u).Related c (Run.after request.perform u') := by
  -- The three kinds of requests: bindings, a setting, and an evaluation.
  cases request with
  | arguments list =>
    -- Texts hold no scope, so the list corresponds to itself.
    have strings : (Value.qexpr (list.map .string)).Obeys (.closes fun s => c.link u.scopes s s) :=
      Value.obeyAll_iff.mpr (by simp [Value.Obeys])
    have itself : c.values u.scopes (.qexpr (list.map .string)) (.qexpr (list.map .string)) := by
      refine (Value.alike_self _ fun e member => ?_).related strings
      rw [Value.qexpr, Value.failures, Value.failuresAll_strings] at member
      exact absurd member List.not_mem_nil
    exact related.bindAll ⟨c.global, related.global⟩ (.cons ⟨rfl, itself⟩ .nil)
  | limit setting => exact { related with limit := rfl }
  | evaluate source =>
    -- The source is read and evaluated alike on both sides.
    have resembles := related.resembles_source Run.blind_evaluate source own
    rw [← Run.evaluateSource_eq] at resembles
    exact resembles.world

/-- Requests leave worlds that correspond, if the failures that they bring are related to themselves. -/
theorem World.Related.session {c : Comparison} {requests : List Request} :
    (∀ request ∈ requests, ∀ e ∈ request.failures c.first.files, c.failures e e) →
    ∀ {u u' : World Value}, u.Related c u' →
      (Run.after (requests.forM Request.perform) u).Related c
        (Run.after (requests.forM Request.perform) u') := by
  -- The induction is on the requests.
  induction requests with
  | nil => exact fun _ _ _ related => related
  | cons request rest ih =>
    intro own u u' related
    refine ih (fun request member => own request (List.mem_cons_of_mem _ member)) ?_
    exact related.perform request (own request List.mem_cons_self)

/-- A source is answered in the same way by evaluators that do the same in a rooted world. -/
theorem World.Rooted.resembles_source (rooted : w.Rooted) {ev ev' : Evaluator}
    (blind : Run.Blind (.upTo Eq .eq w) ev ev') (source : Source) :
    Run.Resembles (.upTo Eq .eq w) w w (Run.evaluateSourceBy ev source)
      (Run.evaluateSourceBy ev' source)
      fun scopes => Run.AnswersRelated ((Comparison.upTo Eq .eq w).values scopes) :=
  rooted.refl.resembles_source blind source fun _ _ => rfl

/-- Every request leaves a rooted world rooted. -/
theorem World.Rooted.perform (rooted : w.Rooted) (request : Request) :
    (Run.after request.perform w).Rooted :=
  (rooted.refl.perform request fun _ _ => rfl).rooted

/-- Any requests leave a rooted world rooted. -/
theorem World.Rooted.session (requests : List Request) {w : World Value} (rooted : w.Rooted) :
    (Run.after (requests.forM Request.perform) w).Rooted :=
  (rooted.refl.session fun _ _ _ _ => rfl).rooted

/-- No request changes the files. -/
theorem World.files_session (files : Files) (requests : List Request) :
    (Run.after (requests.forM Request.perform) (World.standard files)).files = files := by
  have first : (World.standard files).files = files :=
    ((World.rooted_withPrimitives files).related_each fun v member _ =>
      Library.obeys_expression v member).unchanged
  exact ((World.rooted_standard files).refl.session fun _ _ _ _ => rfl).unchanged.trans first

end QLisp
