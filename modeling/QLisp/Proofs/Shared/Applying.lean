import QLisp.Proofs.Shared.NormalForms
import QLisp.Proofs.Rooted

/-!
Applying an operator to arguments that are made for it.

Only the containers of the arguments are changed by that, so an operator that somebody holds can be
applied as often as one likes. It stands for the same value each time.
-/

namespace QLisp.Shared

variable {proper : Prop} {mine store : CellId → Prop} {kept : CellId → Prop} {m m' : Machine}
  {w : World Value} {limit depth : Nat} {caller : ScopeId} {operator v : Handle} {t : Value}
  {arguments : List Value}

/-- The rule that a function has a quoted body and captured a scope that has been made. -/
def Machine.lives (m : Machine) : FunctionRule := fun _ body captured =>
  (∃ items, body = .qexpr items) ∧ ∃ s, captured = some s ∧ m.world.scopes.Made s

/-- What lives on a machine is sound there. -/
theorem Machine.lives_sound {t : Value} (lives : t.Obeys m.lives) :
    t.Obeys (m.sound proper).functions := by
  refine lives.mono ?_
  rintro _ _ _ ⟨quoted, s, rfl, made⟩
  exact ⟨fun _ => quoted, by simpa using made⟩

/-- What lives on a machine captured scopes of it. -/
theorem Machine.lives_captures {t : Value} (lives : t.Obeys m.lives) : t.Obeys m.captures := by
  refine lives.mono ?_
  rintro _ _ _ ⟨_, s, rfl, made⟩ other member
  obtain rfl := Option.mem_some_iff.mp member
  exact made

/-- What lives on a machine captured scopes of the world that it mirrors. -/
theorem Mirrors.closes (mirrors : Mirrors proper mine store m w) {t : Value}
    (lives : t.Obeys m.lives) : t.Obeys (.closes w.scopes.Made) := by
  refine lives.mono ?_
  rintro _ _ _ ⟨_, s, rfl, made⟩
  exact ⟨s, rfl, mirrors.made.mpr made⟩

/-- What lives on a machine lives on it when more scopes have been made. -/
theorem Machine.lives_later {t : Value} (lives : t.Obeys m.lives)
    (made : ∀ s, m.world.scopes.Made s → m'.world.scopes.Made s) : t.Obeys m'.lives := by
  refine lives.mono ?_
  rintro _ _ _ ⟨quoted, s, rfl, there⟩
  exact ⟨quoted, s, rfl, made s there⟩

namespace Act

/-- Applies an operator to arguments in fresh containers. -/
def applyTo (caller : ScopeId) (operator : Handle) (arguments : List Value) : Act Handle := do
  apply caller operator (← ListOp.place (.sexpr arguments))

/-- Applying an operator to arguments in fresh containers follows applying it to them. -/
theorem follows_applyTo (mirrors : Mirrors True mine store m w) (ready : Ready limit depth m caller)
    (yields : Yields True mine store m operator t) (lives : ∀ v ∈ arguments, v.Obeys m.lives) :
    Follows True (m.only []) store m w (applyTo caller operator arguments)
      (Run.call (Run.eval (limit - depth)) caller t arguments) (Yields True mine) := by
  -- The arguments hold only what may be called, so a list of them may be placed.
  have obeys : Value.Obeys (m.sound True).functions (.sexpr arguments) :=
    Value.obeyAll_iff.mpr fun v member => Machine.lives_sound (lives v member)
  obtain ⟨list, h', ran, edits, ids', holds, fresh⟩ := place_ok (mirrors.narrow []) obeys
  obtain ⟨ids, head, free⟩ := yields
  refine .edit ran (mirrors.narrow []) edits (by simp) fun mirrors' => ?_
  -- The operator stands on containers that were there, and the arguments on others.
  have together := free.later (by simp) fresh (free.edit edits) (mirrors.only [] (by simp))
  have still : Holds h' (m.sound True) operator t ids := head.transport
    (fun c member => edits.items (free.made c member) (by simp)) fun _ _ _ fits => fits
  -- The list that has been placed stands for the arguments.
  rcases holds.eq_list with ⟨a, inner, rfl, rfl, inside⟩ | ⟨improper, _⟩
  · have applied : Follows True (m.only []) store { m with heap := h' } w
        (call (eval (limit - depth)) caller operator (.list .sexpr a))
        (Run.call (Run.eval (limit - depth)) caller t arguments) (Yields True mine) :=
      follows_call_within (simulates_eval limit depth) mirrors' ready.edit still ⟨inside, fresh⟩
        together (mirrors.only [] (by simp))
    -- The call is made within the limit, at the depth of the machine.
    refine applied.congr ?_
    rw [apply_run, ready.edit.limit, ready.edit.depth]
  · exact absurd trivial improper

/-- Applying an operator to arguments in fresh containers is isolating when applying it is. -/
theorem isolating_applyTo {may : ScopeId → Prop} (isolated : Isolated kept m)
    (lives : ∀ v ∈ arguments, v.Obeys m.lives)
    (safe : ∀ {kept' m' list}, Step may kept m kept' m' → Loose kept' m' list →
      Isolating may kept' m' (apply caller operator list) Loose) :
    Isolating may kept m (applyTo caller operator arguments) Loose := by
  have obeys : Value.Obeys m.captures (.sexpr arguments) :=
    Value.obeyAll_iff.mpr fun v member => Machine.lives_captures (lives v member)
  exact (isolating_lift_loose isolated (ListOp.harmless_place isolated.apart obeys)).bind
    fun _ _ _ step loose => safe step loose

end Act

/-- A machine holds an operator, and mirrors a world in which every scope leads to the global one. -/
structure Machine.Possesses (m : Machine) (w : World Value) (operator : Handle) (t : Value) :
    Prop where
  /-- The operator stands for a value, on a machine that mirrors the world. -/
  stands : ∃ store, Mirrors True (fun _ => True) store m w ∧
    Yields True (fun _ => True) store m operator t
  /-- Every scope of the world leads to the global one. -/
  rooted : w.Rooted
  /-- Functions in the value captured scopes that have been made. -/
  closes : t.Obeys (.closes w.scopes.Made)
  /-- Bindings are isolated from the operator. -/
  isolated : ∃ kept, Isolated kept m ∧ Loose kept m operator

namespace Machine.Possesses

/-- The operator is seen as the value that it stands for. -/
theorem view (possesses : m.Possesses w operator t) : m.heap.view operator = t := by
  obtain ⟨_, _, ids, holds, free⟩ := possesses.stands
  exact (free.stands holds).view

/-- What somebody holds may be applied, and then is held together with the result. -/
theorem applyTo (possesses : m.Possesses w operator t) (made : m.world.scopes.Made caller)
    (lives : ∀ v ∈ arguments, v.Obeys m.lives) :
    ∃ v m', Act.applyTo caller operator arguments m = .ok v m' ∧ m'.depth = m.depth ∧
      m'.world.limit = m.world.limit ∧
      let outcome := Run.call (Run.eval (m.world.limit - m.depth)) caller t arguments w
      outcome.2.files = w.files ∧ m'.Possesses outcome.2 v outcome.1 ∧
        m'.Possesses outcome.2 operator t := by
  -- The machine mirrors a world, in which the operator stands for a value.
  obtain ⟨store, mirrors, yields⟩ := possesses.stands
  have ready : Ready m.world.limit m.depth m caller := ⟨made, rfl, rfl⟩
  -- The call on the machine follows the one in the world, so it ends as that does.
  obtain ⟨v, m', store', ran, mirrors', moves, result⟩ :=
    (Act.follows_applyTo mirrors ready yields lives).ok
  have wide := mirrors'.mono fun _ _ => trivial
  -- The world corresponds to itself, and so does what the run leaves.
  let c := Comparison.upTo Eq .eq w
  have itself : ∀ {u : Value}, u.Obeys (.closes w.scopes.Made) → c.values w.scopes u u := fun closes =>
    World.Rooted.values (fun _ _ => rfl) (Nat.le_refl _) closes fun _ _ => rfl
  have given : List.Forall₂ (c.values w.scopes) arguments arguments :=
    List.forall₂_same.mpr fun u member => itself (mirrors.closes (lives u member))
  -- The call in the world resembles itself, which tells what it leaves.
  have resembles := Run.resembles_call (Run.blind_eval (m.world.limit - m.depth))
    possesses.rooted.refl ⟨rfl, mirrors.made.mpr made⟩ (itself possesses.closes) given
  have rooted := resembles.world.rooted
  -- The containers of the operator are isolated from those of the bindings.
  obtain ⟨kept, isolated, loose⟩ := possesses.isolated
  obtain ⟨kept', step, loose'⟩ := (Act.isolating_applyTo isolated lives fun step list =>
    Act.isolating_apply step.isolated (step.made made) (loose.step step) list).ok ran
  -- The result is one that may be kept, and the operator is still possessed.
  refine ⟨v, m', ran, moves.depth, moves.limit, resembles.world.unchanged, ?_, ?_⟩
  · exact ⟨⟨store', wide, result⟩, rooted, Comparison.closes resembles.good, kept', step.isolated, loose'⟩
  · refine ⟨⟨store', wide, yields.keep moves⟩, rooted, ?_, kept', step.isolated, loose.step step⟩
    exact Comparison.closes (resembles.within.value (itself possesses.closes))

/-- The call of a function changes no scope that was there but outermost ones. -/
theorem frames {formals body : Handle} {captured : Option ScopeId}
    (possesses : m.Possesses w (.lambda formals body captured) t)
    (lives : ∀ v ∈ arguments, v.Obeys m.lives)
    (ran : Act.applyTo caller (.lambda formals body captured) arguments m = .ok v m') :
    m.Frames m.Outermost m' := by
  obtain ⟨kept, isolated, loose⟩ := possesses.isolated
  -- The arguments are bound in a scope that the call makes, which is kept apart from then on.
  have safe : Act.Isolating (fun _ => False) kept m
      (Act.applyTo caller (.lambda formals body captured) arguments) Loose :=
    Act.isolating_applyTo isolated lives fun step list =>
      (Act.isolating_applyLambda (Act.isolatingEvaluator_eval _) step.isolated (loose.step step)
        list).congr (Act.apply_run ..)
  obtain ⟨kept', step, _⟩ := safe.ok ran
  simpa using step.frames isolated

end Machine.Possesses
end QLisp.Shared
