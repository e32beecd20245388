import QLisp.Proofs.Chain
import QLisp.Proofs.Operations
import QLisp.Proofs.Source

/-!
Worlds that correspond.

A comparison says which failures and which scopes of two worlds correspond. Scopes correspond one to
one, but a scope may have to be seen together with some of its ancestors to show what a single scope
of the other world does. These ancestors correspond to nothing, so nothing is ever bound there again.
-/

namespace QLisp

/-- Whatever a file holds is read as values that are like themselves. -/
def Files.Steady (rel : FailureRel) (files : Files) : Prop :=
  ∀ path bytes forms, files path = .ok bytes →
    Form.parse (withoutInterpreterLine bytes) = .ok forms →
    List.Forall₂ (Value.Alike rel) (Form.toValues Primitive.all forms)
      (Form.toValues Primitive.all forms)

/-- What corresponds in two worlds that are compared. -/
structure Comparison where
  /-- The failures that are related. -/
  failures : FailureRel
  /-- The scopes that correspond. -/
  scopes : ScopeRel
  /-- The world in which one side starts. -/
  first : World Value
  /-- The world in which the other side starts. -/
  second : World Value
  /-- No evaluation can tell the failures from the same ones. -/
  faithful : failures.Faithful
  /-- A scope corresponds to no more than one. -/
  single {s s' t t' : ScopeId} : scopes s s' → scopes t t' → (s = t ↔ s' = t')
  /-- The global scopes correspond. -/
  global : scopes Scopes.global Scopes.global
  /-- A scope that was there at the start corresponds to one that was. -/
  early {s s' : ScopeId} : scopes s s' → (first.scopes.Made s ↔ second.scopes.Made s')
  /-- Scopes that are made later correspond in the order in which they are made. -/
  later (count : Nat) :
    scopes ⟨first.scopes.made.size + count⟩ ⟨second.scopes.made.size + count⟩

namespace Comparison

/-- The scopes that correspond and have been made. -/
def link (c : Comparison) (scopes : Scopes Value) : ScopeRel :=
  fun s s' => c.scopes s s' ∧ scopes.Made s

/-- The values that are related, given the scopes of one side. -/
def values (c : Comparison) (scopes : Scopes Value) : Value → Value → Prop :=
  Value.Related c.failures (c.link scopes)

/-- The bindings that are related, given the scopes of one side. -/
def bindings (c : Comparison) (scopes : Scopes Value) : String × Value → String × Value → Prop :=
  Primitive.BindingRelated c.failures (c.link scopes)

/-- A scope, with ancestors that correspond to nothing, shows what another scope does. -/
structure Stacked (c : Comparison) (scopes scopes' : Scopes Value) (s s' : ScopeId)
    (back : List ScopeId) (top : Option ScopeId) : Prop where
  /-- The ancestors follow the scope, up to one above them. -/
  climbs : scopes.Climbs s back top
  /-- The scope above corresponds to the parent of the other scope. -/
  above : Option.Rel c.scopes top (scopes'.parent? s')
  /-- Nothing is above the global scope alone. -/
  outermost : top = none → s = Scopes.global ∧ back = []
  /-- The ancestors correspond to nothing. -/
  hidden : ∀ b ∈ back, ∀ t', ¬ c.scopes b t'
  /-- Together they bind the same names, to related values. -/
  bound (name : String) : Option.Rel (c.values scopes)
    ((s :: back).findSome? (scopes.local? · name)) (scopes'.local? s' name)

end Comparison

/-- Two worlds correspond: all that programs can see of either is the same. -/
structure World.Related (c : Comparison) (w w' : World Value) : Prop where
  /-- Parents are made before their children. -/
  ordered : w.scopes.ParentsFirst
  /-- So they are on the other side. -/
  ordered' : w'.scopes.ParentsFirst
  /-- There is a global scope. -/
  global : w.scopes.Made Scopes.global
  /-- As many scopes have been made on either side. -/
  counted : ∃ count, w.scopes.made.size = c.first.scopes.made.size + count ∧
    w'.scopes.made.size = c.second.scopes.made.size + count
  /-- Scopes that correspond show the same. -/
  stacked {s s' : ScopeId} : c.link w.scopes s s' → ∃ back top, c.Stacked w.scopes w'.scopes s s' back top
  /-- Texts that are alike have been printed. -/
  output : ∃ text text', w.output = c.first.output ++ text ∧ w'.output = c.second.output ++ text' ∧
    Text.Alike c.failures text text'
  /-- The same paths have been asked for. -/
  asked : ∃ paths, w.asked = paths ++ c.first.asked ∧ w'.asked = paths ++ c.second.asked
  /-- The limits are the same. -/
  limit : w.limit = w'.limit
  /-- The files are the same. -/
  files : w.files = w'.files
  /-- No file has changed. -/
  unchanged : w.files = c.first.files
  /-- The files hold values that are like themselves. -/
  steady : w.files.Steady c.failures

/-- No scope is lost among others. -/
def Scopes.Within (scopes others : Scopes Value) : Prop :=
  scopes.made.size ≤ others.made.size

/-- The scopes that there were still are there, as they were. -/
structure Scopes.Extends (scopes others : Scopes Value) : Prop where
  /-- No scope is lost. -/
  within : scopes.Within others
  /-- The scopes have the same parents. -/
  parent? (s : ScopeId) : scopes.Made s → others.parent? s = scopes.parent? s
  /-- They bind the same names to the same values. -/
  local? (s : ScopeId) (name : String) : scopes.Made s → others.local? s name = scopes.local? s name

namespace Scopes.Extends

variable {scopes others : Scopes Value}

/-- Scopes are as they are. -/
theorem refl (scopes : Scopes Value) : scopes.Extends scopes :=
  ⟨Nat.le_refl _, fun _ _ => rfl, fun _ _ _ => rfl⟩

/-- A new scope leaves the others as they are. -/
theorem extend (scopes : Scopes Value) (parent : Option ScopeId) :
    scopes.Extends (scopes.extend parent) where
  within := by simp [Within]
  parent? s made := by rw [parent?_extend, if_neg made.ne_next]
  local? s name _ := local?_extend ..

/-- Names that are bound in another scope leave the scopes as they are. -/
theorem bindAll (extends₁ : scopes.Extends others) {id : ScopeId} (other : ¬ scopes.Made id)
    (bindings : List (String × Value)) : scopes.Extends (others.bindAll id bindings) where
  within := by
    rw [Within, size_bindAll]
    exact extends₁.within
  parent? s made := (parent?_bindAll ..).trans (extends₁.parent? s made)
  local? s name made := by
    have apart : s ≠ id := fun same => other (same ▸ made)
    rw [local?_bindAll_of_ne apart, extends₁.local? s name made]

end Scopes.Extends

namespace Scopes.Within

variable {c : Comparison} {scopes others further : Scopes Value} {s s' : ScopeId} {v v' : Value}
  {values values' : List Value}

/-- Scopes that correspond still do. -/
theorem link (within : scopes.Within others) (linked : c.link scopes s s') : c.link others s s' :=
  ⟨linked.1, Nat.lt_of_lt_of_le linked.2 within⟩

/-- Related values are still related. -/
theorem value (within : scopes.Within others) (related : c.values scopes v v') : c.values others v v' :=
  Value.Related.widen related fun _ _ => within.link

/-- Lists of related values are still related. -/
theorem list (within : scopes.Within others) (related : List.Forall₂ (c.values scopes) values values') :
    List.Forall₂ (c.values others) values values' :=
  related.imp fun _ _ => within.value

/-- Related bindings are still related. -/
theorem list_bindings {bindings bindings' : List (String × Value)} (within : scopes.Within others)
    (related : List.Forall₂ (c.bindings scopes) bindings bindings') :
    List.Forall₂ (c.bindings others) bindings bindings' :=
  related.imp fun _ _ same => ⟨same.1, within.value same.2⟩

/-- Two stretches make one. -/
theorem trans (within : scopes.Within others) (more : others.Within further) : scopes.Within further :=
  Nat.le_trans within more

end Scopes.Within

namespace World.Related

variable {c : Comparison} {w w' : World Value} {s s' t t' : ScopeId}

/-- Scopes that correspond have been made on both sides, or on neither. -/
theorem made (related : w.Related c w') (same : c.scopes s s') :
    w.scopes.Made s ↔ w'.scopes.Made s' := by
  obtain ⟨count, size, size'⟩ := related.counted
  -- Scopes of the first world are linked to those that were there as well.
  by_cases old : c.first.scopes.Made s
  · have old' := (c.early same).mp old
    simp only [Scopes.Made] at *
    omega
  · -- What is made later corresponds in order.
    obtain ⟨index⟩ := s
    simp only [Scopes.Made, Nat.not_lt] at old
    obtain ⟨more, rfl⟩ := Nat.exists_eq_add_of_le old
    obtain rfl := (c.single (c.later more) same).mp rfl
    simp only [Scopes.Made]
    omega

/-- The scopes that will be made next correspond. -/
theorem next (related : w.Related c w') : c.scopes w.scopes.next w'.scopes.next := by
  obtain ⟨count, size, size'⟩ := related.counted
  rw [Scopes.next, Scopes.next, size, size']
  exact c.later count

/-- The scope above others is one that corresponds to the parent of the other scope. -/
theorem above {back : List ScopeId} {p : ScopeId} (related : w.Related c w') (linked : c.link w.scopes s s')
    (stacked : c.Stacked w.scopes w'.scopes s s' back (some p)) :
    p.index < s.index ∧ ∃ p', w'.scopes.parent? s' = some p' ∧ c.link w.scopes p p' := by
  have earlier := (stacked.climbs.below related.ordered).2 p rfl
  have upper := stacked.above
  generalize w'.scopes.parent? s' = parent at upper
  cases upper with
  | some same => exact ⟨earlier, _, rfl, same, Nat.lt_trans earlier linked.2⟩

/-- A name means related values in scopes that correspond. -/
theorem lookup? (related : w.Related c w') (linked : c.link w.scopes s s') (name : String) :
    Option.Rel (c.values w.scopes) (w.scopes.lookup? s name) (w'.scopes.lookup? s' name) := by
  -- By strong induction on the scope; what is above was made before it.
  obtain ⟨index⟩ := s
  induction index using Nat.strongRecOn generalizing s' with
  | ind index ih =>
    obtain ⟨back, top, stacked⟩ := related.stacked linked
    -- What the scopes below bind is seen first, and what is above only when they bind nothing.
    rw [stacked.climbs.lookup? related.ordered, Scopes.lookup?_eq related.ordered']
    -- The binding that is seen first is seen on both sides, or there is none so far.
    have here := stacked.bound name
    generalize (⟨index⟩ :: back).findSome? (w.scopes.local? · name) = found at here
    generalize w'.scopes.local? s' name = found' at here
    cases here with
    | some values => exact .some values
    | none =>
      -- Nothing is above the scopes, or what is above them is linked.
      cases top with
      | none =>
        have ends := stacked.above
        generalize w'.scopes.parent? s' = parent at ends
        cases ends
        exact .none
      | some p =>
        obtain ⟨earlier, p', parent, upper⟩ := related.above linked stacked
        obtain ⟨index'⟩ := p
        rw [parent]
        exact ih index' earlier upper

/-- A name is seen as related values in scopes that correspond. -/
theorem lookup (related : w.Related c w') (linked : c.link w.scopes s s') (name : String) :
    c.values w.scopes (w.scopes.lookup s name) (w'.scopes.lookup s' name) := by
  have found := related.lookup? linked name
  rw [Scopes.lookup, Scopes.lookup]
  generalize w.scopes.lookup? s name = value at found
  generalize w'.scopes.lookup? s' name = value' at found
  cases found with
  | some values => exact values
  | none => exact .error (c.faithful.evaluation nofun)

/-- The outermost scopes of chains that correspond are the global ones. -/
theorem root (related : w.Related c w') (linked : c.link w.scopes s s') :
    w.scopes.root s = Scopes.global ∧ w'.scopes.root s' = Scopes.global := by
  -- By strong induction on the scope; what is above was made before it.
  obtain ⟨index⟩ := s
  induction index using Nat.strongRecOn generalizing s' with
  | ind index ih =>
    obtain ⟨back, top, stacked⟩ := related.stacked linked
    -- The outermost scope is the global one on either side.
    cases top with
    | none =>
      obtain ⟨here, rfl⟩ := stacked.outermost rfl
      obtain rfl : s' = Scopes.global := (c.single linked.1 c.global).mp here
      rw [here]
      exact ⟨Scopes.root_global _, Scopes.root_global _⟩
    | some p =>
      -- The scope above is linked to the one above on the other side, which was made earlier.
      obtain ⟨earlier, p', parent, upper⟩ := related.above linked stacked
      obtain ⟨index'⟩ := p
      rw [stacked.climbs.root related.ordered, Scopes.root_eq related.ordered', parent]
      exact ih index' earlier upper

/-- A name that is bound to related values in scopes that correspond leaves worlds related. -/
theorem bind (related : w.Related c w') (linked : c.link w.scopes s s') (name : String) {v v' : Value}
    (values : c.values w.scopes v v') :
    Related c { w with scopes := w.scopes.bind s name v }
      { w' with scopes := w'.scopes.bind s' name v' } := by
  -- A binding makes no scope, so the same scopes are linked as before.
  have link : c.link (w.scopes.bind s name v) = c.link w.scopes := by
    funext t t'
    simp [Comparison.link]
  refine { related with
    ordered := fun id parent => by simpa using related.ordered id parent
    ordered' := fun id parent => by simpa using related.ordered' id parent
    global := by simpa using related.global
    counted := by simpa using related.counted
    -- What is left to show is that linked scopes show the same bindings.
    stacked := ?_ }
  intro t t' linked'
  rw [link] at linked'
  obtain ⟨back, top, stacked⟩ := related.stacked linked'
  refine ⟨back, top, { stacked with climbs := ?_, above := ?_, bound := fun key => ?_ }⟩
  -- The chains are the same as before, and so is what is above them.
  · exact stacked.climbs.congr related.ordered fun b _ => Scopes.parent?_bind ..
  · rw [Scopes.parent?_bind]
    exact stacked.above
  · rw [Comparison.values, link, Scopes.local?_bind]
    -- The other side binds the name in the linked scope.
    have same := c.single linked'.1 linked.1
    by_cases here : t = s ∧ key = name
    · -- The name is bound anew where it is seen first.
      have made' : w'.scopes.Made s' := (related.made linked.1).mp linked.2
      rw [List.findSome?_cons, Scopes.local?_bind, if_pos ⟨here.1, here.2, linked.2⟩,
        if_pos ⟨same.mp here.1, here.2, made'⟩]
      exact .some values
    · -- Scopes behind another one are hidden, so the name is not bound in any of them.
      have unchanged : ∀ b ∈ t :: back,
          (w.scopes.bind s name v).local? b key = w.scopes.local? b key := by
        intro b member
        rw [Scopes.local?_bind, if_neg]
        -- A name that is bound behind the scope is not the one that was bound just now.
        rintro ⟨rfl, named, _⟩
        rcases List.mem_cons.mp member with rfl | behind
        · exact here ⟨rfl, named⟩
        · exact stacked.hidden b behind s' linked.1
      rw [Scopes.findSome?_local?_congr unchanged, if_neg fun bound => here ⟨same.mpr bound.1, bound.2.1⟩]
      exact stacked.bound key

/-- Names that are bound to related values in scopes that correspond leave worlds related. -/
theorem bindAll (related : w.Related c w') (linked : c.link w.scopes s s')
    {bindings bindings' : List (String × Value)}
    (values : List.Forall₂ (c.bindings w.scopes) bindings bindings') :
    Related c { w with scopes := w.scopes.bindAll s bindings }
      { w' with scopes := w'.scopes.bindAll s' bindings' } := by
  -- The induction is on the bindings; none of them makes a scope.
  induction bindings generalizing w w' bindings' with
  | nil =>
    cases values
    exact related
  | cons b rest ih =>
    obtain ⟨name, v⟩ := b
    cases values with
    | @cons _ b' _ rest' head tail =>
      obtain ⟨name', v'⟩ := b'
      -- The bindings on both sides have one name, and related values.
      obtain ⟨rfl, same⟩ := head
      have within : w.scopes.Within (w.scopes.bind s name v) := by simp [Scopes.Within]
      exact ih (related.bind linked name same) (within.link linked) (within.list_bindings tail)

/-- A new scope on either side leaves worlds related when the two show the same. -/
theorem grow {scopes scopes' : Scopes Value} (related : w.Related c w')
    (extends₁ : w.scopes.Extends scopes) (extends₂ : w'.scopes.Extends scopes')
    (ordered : scopes.ParentsFirst) (ordered' : scopes'.ParentsFirst)
    (size : scopes.made.size = w.scopes.made.size + 1)
    (size' : scopes'.made.size = w'.scopes.made.size + 1)
    (new : ∃ back top, c.Stacked scopes scopes' w.scopes.next w'.scopes.next back top) :
    Related c { w with scopes := scopes } { w' with scopes := scopes' } := by
  -- One scope more has been made on each side, so as many as before correspond.
  obtain ⟨count, counted, counted'⟩ := related.counted
  refine { related with
    ordered := ordered
    ordered' := ordered'
    global := Nat.lt_of_lt_of_le related.global extends₁.within
    counted := ⟨count + 1, by simp only [size, counted, Nat.add_assoc],
      by simp only [size', counted', Nat.add_assoc]⟩
    stacked := ?_ }
  -- A scope is one of those that were there, or the new one.
  intro t t' linked
  by_cases made : w.scopes.Made t
  · -- Scopes that were there show what they did.
    have made' : w'.scopes.Made t' := (related.made linked.1).mp made
    -- The scopes on the way are older than the scope itself, so they were there, too.
    obtain ⟨back, top, stacked⟩ := related.stacked ⟨linked.1, made⟩
    refine ⟨back, top, { stacked with climbs := ?_, above := ?_, bound := fun key => ?_ }⟩
    · refine stacked.climbs.congr related.ordered fun b under => extends₁.parent? b ?_
      exact Nat.lt_of_le_of_lt under made
    · rw [extends₂.parent? t' made']
      exact stacked.above
    -- None of the scopes on the way has been changed by making others.
    · have unchanged : ∀ b ∈ t :: back, scopes.local? b key = w.scopes.local? b key := by
        intro b member
        refine extends₁.local? b key ?_
        rcases List.mem_cons.mp member with rfl | behind
        · exact made
        · exact Nat.lt_trans ((stacked.climbs.below related.ordered).1 b behind) made
      rw [Scopes.findSome?_local?_congr unchanged, extends₂.local? t' key made']
      -- Values that were related stay so in more scopes.
      have shown := stacked.bound key
      generalize (t :: back).findSome? (w.scopes.local? · key) = found at shown
      generalize w'.scopes.local? t' key = found' at shown
      cases shown with
      | none => exact .none
      | some values => exact .some (extends₁.within.value values)
  · -- There is only one other scope.
    have last : t.index < w.scopes.made.size + 1 := size ▸ linked.2
    have here : t = w.scopes.next := by
      obtain ⟨index⟩ := t
      simp only [Scopes.Made, Scopes.next, ScopeId.mk.injEq] at *
      omega
    -- So both are the scopes that have just been made, for which the claim is assumed.
    obtain rfl := here
    obtain rfl := (c.single related.next linked.1).mp rfl
    exact new

/-- New scopes below scopes that correspond leave worlds related. -/
theorem extend (related : w.Related c w') (linked : c.link w.scopes s s') :
    Related c { w with scopes := w.scopes.extend (some s) }
      { w' with scopes := w'.scopes.extend (some s') } := by
  have made' : w'.scopes.Made s' := (related.made linked.1).mp linked.2
  refine related.grow (.extend w.scopes _) (.extend w'.scopes _) (related.ordered.extend linked.2)
    (related.ordered'.extend made') (Scopes.size_extend ..) (Scopes.size_extend ..) ?_
  -- The new scopes bind nothing yet.
  -- Either has the linked scope above it.
  refine ⟨[], some s, ?_, ?_, nofun, by simp, fun name => ?_⟩
  · exact (Scopes.parent?_extend ..).trans (if_pos rfl)
  · rw [Scopes.parent?_extend, if_pos rfl]
    exact .some linked.1
  · rw [List.findSome?_cons, List.findSome?_nil, Scopes.local?_extend, Scopes.local?_extend,
      Scopes.local?_of_not_made (Scopes.not_made_next _),
      Scopes.local?_of_not_made (Scopes.not_made_next _)]
    exact .none

end World.Related
end QLisp
