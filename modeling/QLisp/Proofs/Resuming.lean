import QLisp.Proofs.Growth
import QLisp.Proofs.Rooted

/-!
Worlds that started as one.

Two runs start in the same world and do the same, but one of them also makes scopes of its own. After
each of these a new comparison takes over, in which these scopes correspond to nothing. What started as
the same scope corresponds to itself all the time.
-/

namespace QLisp

variable {c : Comparison} {base u u' x : World Value} {s : ScopeId} {v v' : Value}

namespace World.Related

variable {s s' t t' : ScopeId}

/-- Scopes that corresponded, and those made later in their order, correspond to no more than one. -/
theorem single_resumed (related : u.Related c u') (within : u.scopes.Within x.scopes)
    (one : c.link u.scopes s s' ∨
      ∃ count, s = ⟨x.scopes.made.size + count⟩ ∧ s' = ⟨u'.scopes.made.size + count⟩)
    (other : c.link u.scopes t t' ∨
      ∃ count, t = ⟨x.scopes.made.size + count⟩ ∧ t' = ⟨u'.scopes.made.size + count⟩) :
    s = t ↔ s' = t' := by
  -- Scopes that corresponded had been made on both sides, so they are below all of the later ones.
  have old {s s' : ScopeId} (linked : c.link u.scopes s s') :
      s.index < x.scopes.made.size ∧ s'.index < u'.scopes.made.size :=
    ⟨Nat.lt_of_lt_of_le linked.2 within, (related.made linked.1).mp linked.2⟩
  -- Two old ones correspond once, an old and a later one differ on both sides, and two later ones
  -- count alike.
  rcases one with linked | ⟨count, rfl, rfl⟩ <;> rcases other with linked' | ⟨count', rfl, rfl⟩
  · exact c.single linked.1 linked'.1
  · have := old linked
    obtain ⟨i⟩ := s
    obtain ⟨i'⟩ := s'
    simp only [ScopeId.mk.injEq] at this ⊢
    omega
  · have := old linked'
    obtain ⟨i⟩ := t
    obtain ⟨i'⟩ := t'
    simp only [ScopeId.mk.injEq] at this ⊢
    omega
  · simp only [ScopeId.mk.injEq]
    omega

/-- Of scopes that correspond so, both were there or neither. -/
theorem early_resumed (related : u.Related c u') (within : u.scopes.Within x.scopes)
    (one : c.link u.scopes s s' ∨
      ∃ count, s = ⟨x.scopes.made.size + count⟩ ∧ s' = ⟨u'.scopes.made.size + count⟩) :
    x.scopes.Made s ↔ u'.scopes.Made s' := by
  rcases one with linked | ⟨count, rfl, rfl⟩
  · have made' := (related.made linked.1).mp linked.2
    exact iff_of_true (Nat.lt_of_lt_of_le linked.2 within) made'
  · simp only [Scopes.Made]
    omega

end World.Related

/-- Worlds that correspond are compared anew when scopes have been made in one of them. -/
def Comparison.resume (c : Comparison) (related : u.Related c u') (within : u.scopes.Within x.scopes) :
    Comparison where
  failures := c.failures
  scopes s s' := c.link u.scopes s s' ∨
    ∃ count, s = ⟨x.scopes.made.size + count⟩ ∧ s' = ⟨u'.scopes.made.size + count⟩
  -- What has been printed and asked for is still counted from the start.
  first := { x with output := c.first.output, asked := c.first.asked }
  second := { u' with output := c.second.output, asked := c.second.asked }
  faithful := c.faithful
  single := related.single_resumed within
  global := .inl ⟨c.global, related.global⟩
  early := related.early_resumed within
  later count := .inr ⟨count, rfl, rfl⟩

/-- Worlds that correspond still do when scopes have been made in one of them. -/
theorem World.Related.resume (related : u.Related c u') (grown : u.Grown x) :
    x.Related (c.resume related grown.kept.within) u' where
  ordered := grown.ordered related.ordered
  ordered' := related.ordered'
  global := grown.made related.global
  counted := ⟨0, rfl, rfl⟩
  stacked {s s'} := by
    -- What corresponds had been made before, and shows what it did.
    rintro ⟨linked | ⟨count, rfl, rfl⟩, made⟩
    · obtain ⟨back, top, stacked⟩ := related.stacked linked
      -- The scopes on the way were made before, so they are older than what has grown.
      obtain ⟨below, above⟩ := stacked.climbs.below related.ordered
      refine ⟨back, top, ?_, ?_, stacked.outermost, fun b member t' => ?_, fun name => ?_⟩
      -- The way up goes through scopes that are older, and those have kept their parents.
      · refine stacked.climbs.congr related.ordered fun b under => grown.kept.parent? b ?_
        exact Nat.lt_of_le_of_lt under linked.2
      -- Above the last scope is one that corresponds, and it has been made as well.
      · have upper := stacked.above
        generalize u'.scopes.parent? s' = parent at upper
        cases upper with
        | none => exact .none
        | some same => exact .some (.inl ⟨same, Nat.lt_trans (above _ rfl) linked.2⟩)
      -- None of the scopes behind corresponds to another one, old or new.
      · rintro (same | ⟨count, rfl, _⟩)
        · exact stacked.hidden b member t' same.1
        -- A new scope corresponds to a new one only, which is not behind an old one.
        · have earlier := Nat.lt_trans (below _ member) linked.2
          have := grown.kept.within
          simp only [Scopes.Within] at this
          simp only at earlier
          omega
      -- The scopes on the way bind what they did.
      · have unchanged : ∀ b ∈ s :: back, x.scopes.local? b name = u.scopes.local? b name := by
          intro b member
          refine grown.kept.local? b name ?_
          rcases List.mem_cons.mp member with rfl | behind
          · exact linked.2
          · exact Nat.lt_trans (below b behind) linked.2
        rw [Scopes.findSome?_local?_congr unchanged]
        have shown := stacked.bound name
        generalize (s :: back).findSome? (u.scopes.local? · name) = found at shown
        generalize u'.scopes.local? s' name = found' at shown
        cases shown with
        | none => exact .none
        | some values =>
          exact .some (values.widen fun t t' same => ⟨.inl same, grown.made same.2⟩)
    -- A scope that is made later in its order is not made yet.
    · exact absurd (show x.scopes.made.size + count < x.scopes.made.size from made) (by omega)
  output := by
    rw [grown.output]
    exact related.output
  asked := by
    rw [grown.asked]
    exact related.asked
  limit := grown.limit.trans related.limit
  files := grown.files.trans related.files
  unchanged := rfl
  steady := grown.files ▸ related.steady

/--
Two worlds correspond that both come from one world.

Its scopes correspond to themselves, and what has been printed and asked for is counted from there.
-/
structure World.Abreast (base : World Value) (c : Comparison) (u u' : World Value) : Prop where
  /-- The worlds correspond. -/
  related : u.Related c u'
  /-- Failures are the same. -/
  exact : c.failures = Eq
  /-- The scopes that there were correspond to themselves. -/
  itself (s : ScopeId) : base.scopes.Made s → c.link u.scopes s s
  /-- Output is counted from the start. -/
  output : base.output = c.first.output ∧ base.output = c.second.output
  /-- So are the files that have been asked for. -/
  asked : base.asked = c.first.asked ∧ base.asked = c.second.asked

/-- What corresponds in two worlds does so in later worlds, as they are compared there. -/
structure Comparison.Wider (c : Comparison) (u : World Value) (c' : Comparison) (x : World Value) :
    Prop where
  /-- The same failures are related. -/
  failures : c.failures = c'.failures
  /-- Scopes that correspond still do. -/
  link (s s' : ScopeId) : c.link u.scopes s s' → c'.link x.scopes s s'

namespace Comparison.Wider

variable {c' c'' : Comparison} {y : World Value}

/-- So it is for worlds that are later still. -/
theorem trans (first : c.Wider u c' x) (second : c'.Wider x c'' y) : c.Wider u c'' y where
  failures := first.failures.trans second.failures
  link s s' linked := second.link s s' (first.link s s' linked)

/-- Related values still are. -/
theorem value (wider : c.Wider u c' x) (values : c.values u.scopes v v') : c'.values x.scopes v v' := by
  rw [Comparison.values, ← wider.failures]
  exact Value.Related.widen values wider.link

end Comparison.Wider

namespace World.Abreast

/-- A rooted world is abreast of itself. -/
theorem start (rooted : base.Rooted) : base.Abreast (.upTo Eq .eq base) base base where
  related := rooted.refl
  exact := rfl
  itself _ made := ⟨rfl, made⟩
  output := ⟨rfl, rfl⟩
  asked := ⟨rfl, rfl⟩

/-- Worlds are still abreast when scopes have been made in one of them. -/
theorem grown (abreast : base.Abreast c u u') (grown : u.Grown x) :
    ∃ c', base.Abreast c' x u' ∧ c.Wider u c' x := by
  have wider : c.Wider u (c.resume abreast.related grown.kept.within) x :=
    ⟨rfl, fun s s' linked => ⟨.inl linked, grown.made linked.2⟩⟩
  refine ⟨_, ⟨abreast.related.resume grown, abreast.exact, fun s made => ?_, abreast.output,
    abreast.asked⟩, wider⟩
  exact wider.link s s (abreast.itself s made)

/-- Worlds that still correspond are abreast when no scope has been lost. -/
theorem later {y y' : World Value} (abreast : base.Abreast c u u') (related : y.Related c y')
    (within : u.scopes.Within y.scopes) : base.Abreast c y y' :=
  ⟨related, abreast.exact, fun s made => within.link (abreast.itself s made), abreast.output,
    abreast.asked⟩

/-- What the world at the start holds is related to itself. -/
theorem closed (abreast : base.Abreast c u u') (closed : v.Obeys (.closes base.scopes.Made)) :
    c.values u.scopes v v := by
  rw [Comparison.values, abreast.exact]
  refine (Value.alike_self v fun _ _ => rfl).related (closed.mono ?_)
  rintro _ _ _ ⟨s, rfl, made⟩
  exact ⟨s, rfl, abreast.itself s made⟩

/-- What is related to something that the world at the start holds is equal to it. -/
theorem eq (abreast : base.Abreast c u u') (closed : v'.Obeys (.closes base.scopes.Made))
    (values : c.values u.scopes v v') : v = v' := by
  rw [Comparison.values, abreast.exact] at values
  exact values.eq closed fun s s' linked made =>
    (c.single linked.1 (abreast.itself s' made).1).mpr rfl

/-- A name that is bound on one side as it was at the start is bound so on the other. -/
theorem bound (abreast : base.Abreast c u u') (rooted : base.Rooted) {name : String}
    (kept : u'.scopes.local? Scopes.global name = base.scopes.local? Scopes.global name) :
    u.scopes.local? Scopes.global name = base.scopes.local? Scopes.global name := by
  -- A scope that corresponds to itself binds related values under every name.
  have shown := abreast.related.bound_self (s := Scopes.global) (fun t below => ?_) name
  · rw [kept] at shown
    -- Without a binding at the start there is none now, and a bound value is related to itself
    -- only.
    cases found : base.scopes.local? Scopes.global name with
    | none =>
      rw [found] at shown
      generalize u.scopes.local? Scopes.global name = found' at shown
      cases shown
      rfl
    | some v' =>
      rw [found] at shown
      generalize u.scopes.local? Scopes.global name = found' at shown
      cases shown with
      | some values => rw [abreast.eq (rooted.captured _ _ _ found) values]
  · exact (abreast.itself t (Nat.lt_of_le_of_lt below rooted.global)).1

/-- A call of the same function leaves worlds abreast, and gives related values. -/
theorem call (abreast : base.Abreast c u u') {f : Value} (function : f.Obeys (.closes base.scopes.Made))
    {scope : ScopeId} (made : base.scopes.Made scope) {arguments arguments' : List Value}
    (given : List.Forall₂ (c.values u.scopes) arguments arguments') (room : Nat) :
    let outcome := Run.call (Run.eval room) scope f arguments u
    let outcome' := Run.call (Run.eval room) scope f arguments' u'
    base.Abreast c outcome.2 outcome'.2 ∧ c.Wider u c outcome.2 ∧
      c.values outcome.2.scopes outcome.1 outcome'.1 := by
  have resembles := Run.resembles_call (Run.blind_eval room) abreast.related (abreast.itself scope made)
    (abreast.closed function) given
  exact ⟨abreast.later resembles.world resembles.within, ⟨rfl, fun s s' => resembles.within.link⟩,
    resembles.good⟩

end World.Abreast
end QLisp
