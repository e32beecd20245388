import QLisp.Proofs.Program.Hygiene

/-!
Scopes that may be bypassed.

A scope that binds nothing but the formals of `fun`, right below the global one, shows hygienic programs
what the global scope does. So functions may capture the latter in place of the former. The scopes of
their calls are then right below the global scope, and everything else is the same.
-/

namespace QLisp

open Library

variable {extra : ScopeId → Prop} {scopes others further : Scopes Value} {w w' : World Value}
  {s s' p : ScopeId} {v v' : Value} {name : String} {files : Files}

namespace Scopes

/-- Scopes have been made since, and names have been written anywhere. -/
abbrev Continues (scopes others : Scopes Value) : Prop :=
  scopes.Spares (fun _ => True) others

namespace Continues

/-- What goes on twice goes on. -/
theorem trans (first : scopes.Continues others) (second : others.Continues further) :
    scopes.Continues further :=
  Spares.trans first (Spares.mono second fun _ _ _ => .inl trivial)

/-- Chains stay what they are. -/
theorem chain (later : scopes.Continues others) (ordered : scopes.ParentsFirst)
    (made : scopes.Made s) : others.chain s = scopes.chain s := by
  obtain ⟨writes, written, _⟩ := later
  exact written.chainUpTo ordered _ s made

end Continues

namespace Avoids

/-- What is not seen from a scope is not seen from its parent. -/
theorem parent (avoids : scopes.Avoids extra s) (ordered : scopes.ParentsFirst)
    (link : scopes.parent? s = some p) : scopes.Avoids extra p := by
  intro t inside
  refine avoids t ?_
  rw [chain_eq ordered, link]
  exact List.mem_cons_of_mem s inside

/-- A scope is seen from itself. -/
theorem self (avoids : scopes.Avoids extra s) (ordered : scopes.ParentsFirst) : ¬ extra s :=
  avoids s (chain_eq ordered s ▸ List.mem_cons_self)

/-- What is not seen from a scope is not seen from a new one below it. -/
theorem below (avoids : scopes.Avoids extra s) (ordered : others.ParentsFirst)
    (same : others.chain s = scopes.chain s) (link : others.parent? p = some s) (own : ¬ extra p) :
    others.Avoids extra p := by
  intro t inside
  rw [chain_eq ordered, link, Option.elim_some, same] at inside
  rcases List.mem_cons.mp inside with rfl | above
  · exact own
  · exact avoids t above

/-- From a scope that has been made none is seen that will be made. -/
theorem next (ordered : scopes.ParentsFirst) (made : scopes.Made s) :
    scopes.Avoids (· = scopes.next) s := by
  -- By strong induction on the scope; what is above was made before it.
  obtain ⟨index⟩ := s
  induction index using Nat.strongRecOn with
  | ind index ih =>
    -- A scope of the chain is the scope itself, or in the chain of its parent.
    intro t inside same
    rw [chain_eq ordered] at inside
    rcases List.mem_cons.mp inside with rfl | above
    · exact made.ne_next same
    · cases link : scopes.parent? ⟨index⟩ with
      -- The outermost scope has nothing above it.
      | none => simp [link] at above
      | some p =>
        rw [link] at above
        -- The parent was made before the scope, so the induction has it.
        have earlier := ordered _ p link
        exact ih p.index earlier (Nat.lt_trans earlier made) t above same

end Avoids

/-- A scope corresponds to itself, and one that is bypassed to the global scope. -/
def Bypass (extra : ScopeId → Prop) (scopes : Scopes Value) : ScopeRel :=
  fun s s' => scopes.Made s ∧ (extra s ∧ s' = Scopes.global ∨ ¬ extra s ∧ s' = s)

end Scopes

/-- Values are the same but for captured scopes that are bypassed, and hygienic. -/
structure Value.Bypassed (extra : ScopeId → Prop) (scopes : Scopes Value) (v v' : Value) : Prop where
  /-- They are the same but for captured scopes that are bypassed. -/
  related : Value.Related Eq (scopes.Bypass extra) v v'
  /-- The names that `fun` keeps to itself are not in them. -/
  hygienic : v.Hygienic (Defining extra scopes)

/-- Functions that define functions still do so when scopes have been made. -/
theorem Library.Defining.later {formals body : Value} {captured : Option ScopeId}
    (defining : Defining extra scopes formals body captured) (ordered : scopes.ParentsFirst)
    (later : scopes.Continues others) : Defining extra others formals body captured := by
  obtain ⟨s, same, made, avoids⟩ := defining.apart
  refine ⟨defining.waiting, defining.bodied, s, same, Nat.lt_of_lt_of_le made later.within, ?_⟩
  rw [Scopes.Avoids, later.chain ordered made]
  exact avoids

/-- Hygienic values are so when scopes have been made. -/
theorem Value.Hygienic.later (hygienic : v.Hygienic (Defining extra scopes))
    (ordered : scopes.ParentsFirst) (later : scopes.Continues others) :
    v.Hygienic (Defining extra others) :=
  hygienic.mono fun _ _ _ defining => defining.later ordered later

/-- Values are the same but for captured scopes when scopes have been made. -/
theorem Value.Related.later (related : Value.Related Eq (scopes.Bypass extra) v v')
    (later : scopes.Continues others) : Value.Related Eq (others.Bypass extra) v v' :=
  related.widen fun _ _ linked => ⟨Nat.lt_of_lt_of_le linked.1 later.within, linked.2⟩

/-- Values in which scopes are bypassed are so when scopes have been made. -/
theorem Value.Bypassed.later (bypassed : v.Bypassed extra scopes v') (ordered : scopes.ParentsFirst)
    (later : scopes.Continues others) : v.Bypassed extra others v' :=
  ⟨bypassed.related.later later, bypassed.hygienic.later ordered later⟩

/-- The text in a file has no symbol that names a formal of `fun`. -/
def Files.HygienicAt (files : Files) (path : Text.Bytes) : Prop :=
  ∀ bytes forms, files path = .ok bytes → Form.parse (withoutInterpreterLine bytes) = .ok forms →
    ∀ v ∈ Form.toValues Primitive.all forms, ∀ name ∈ definer.formals, name ∉ v.symbols

/-- No text in a file has a symbol that names a formal of `fun`. -/
def Files.Hygienic (files : Files) : Prop :=
  ∀ path, files.HygienicAt path

namespace World

/-- A world is another one with scopes bypassed. -/
structure Bypassed (extra : ScopeId → Prop) (files : Files) (w w' : World Value) : Prop where
  /-- Parents are made before their children. -/
  ordered : w.scopes.ParentsFirst
  /-- So they are on the other side. -/
  ordered' : w'.scopes.ParentsFirst
  /-- There is a global scope. -/
  global : w.scopes.Made Scopes.global
  /-- As many scopes have been made on either side. -/
  counted : w'.scopes.made.size = w.scopes.made.size
  /-- Every other scope has a parent. -/
  outermost (s : ScopeId) : w.scopes.Made s → w.scopes.parent? s = none → s = Scopes.global
  /-- The scopes that are bypassed hide no name but those that `fun` binds. -/
  clear (s : ScopeId) : extra s → w.Clear s
  /-- The others have the same parents, unless these are bypassed. -/
  parents (s : ScopeId) : ¬ extra s →
    Option.Rel (w.scopes.Bypass extra) (w.scopes.parent? s) (w'.scopes.parent? s)
  /-- They bind the same names. -/
  bound (s : ScopeId) (name : String) : ¬ extra s →
    Option.Rel (Value.Bypassed extra w.scopes) (w.scopes.local? s name) (w'.scopes.local? s name)
  /-- The same text has been printed. -/
  output : w'.output = w.output
  /-- The same paths have been asked for. -/
  asked : w'.asked = w.asked
  /-- The limits are the same. -/
  limit : w'.limit = w.limit
  /-- The files are some. -/
  held : w.files = files
  /-- So they are on the other side. -/
  held' : w'.files = files
  /-- Their texts are hygienic. -/
  readable : files.Hygienic

namespace Bypassed

/-- The global scope is not bypassed. -/
theorem global_own (bypassed : w.Bypassed extra files w') : ¬ extra Scopes.global :=
  fun inside => ne_global bypassed.ordered (bypassed.clear _ inside).parent rfl

/-- The same scopes have been made on both sides. -/
theorem made (bypassed : w.Bypassed extra files w') (made : w.scopes.Made s) : w'.scopes.Made s := by
  rw [Scopes.Made, bypassed.counted]
  exact made

/-- The same scope will be made next on both sides. -/
theorem next (bypassed : w.Bypassed extra files w') : w'.scopes.next = w.scopes.next :=
  congrArg ScopeId.mk bypassed.counted

/-- It is not bypassed. -/
theorem next_own (bypassed : w.Bypassed extra files w') : ¬ extra w.scopes.next :=
  fun inside => Scopes.not_made_next _ (bypassed.clear _ inside).made

/-- What corresponds to a scope has been made. -/
theorem made_bypass (bypassed : w.Bypassed extra files w') (captured : w.scopes.Bypass extra s s') :
    w'.scopes.Made s' := by
  rcases captured.2 with ⟨_, rfl⟩ | ⟨_, rfl⟩
  · exact bypassed.made bypassed.global
  · exact bypassed.made captured.1

/-- From a scope that is bypassed a name means what it does globally, unless `fun` binds it. -/
theorem lookup?_extra (bypassed : w.Bypassed extra files w') (inside : extra s)
    (visible : name ∉ definer.formals) :
    w.scopes.lookup? s name = w.scopes.lookup? Scopes.global name := by
  have clear := bypassed.clear s inside
  rw [Scopes.lookup?_eq bypassed.ordered, clear.plain name visible, clear.parent]
  rfl

/-- A name means the same on both sides, unless `fun` keeps it to itself. -/
theorem lookup? (bypassed : w.Bypassed extra files w') (own : ¬ extra s)
    (seen : name ∈ definer.formals → w.scopes.Avoids extra s) :
    Option.Rel (Value.Bypassed extra w.scopes) (w.scopes.lookup? s name) (w'.scopes.lookup? s name) := by
  -- By strong induction on the scope; what is above was made before it.
  obtain ⟨index⟩ := s
  induction index using Nat.strongRecOn with
  | ind index ih =>
    rw [Scopes.lookup?_eq bypassed.ordered, Scopes.lookup?_eq bypassed.ordered']
    have here := bypassed.bound ⟨index⟩ name own
    -- What the scope binds itself is bound on both sides; otherwise the scopes above it are looked
    -- at.
    cases found : w.scopes.local? ⟨index⟩ name with
    | some v =>
      rw [found] at here
      obtain ⟨v', found', values⟩ := here.some_left
      rw [found']
      exact .some values
    | none =>
      rw [found] at here
      rw [here.none_left, Option.none_or, Option.none_or]
      have above := bypassed.parents ⟨index⟩ own
      cases link : w.scopes.parent? ⟨index⟩ with
      | none =>
        rw [link] at above
        rw [above.none_left]
        exact .none
      -- The scope above is bypassed, and then the global one is above on the other side, or it is
      -- the same.
      | some p =>
        rw [link] at above
        obtain ⟨p', link', captured⟩ := above.some_left
        have earlier := bypassed.ordered _ p link
        rw [link', Option.bind_some, Option.bind_some]
        rcases captured.2 with ⟨inside, rfl⟩ | ⟨apart, rfl⟩
        · -- The scope above is bypassed, but binds only names that are not seen from here.
          have visible : name ∉ definer.formals := fun hidden =>
            ((seen hidden).parent bypassed.ordered link).self bypassed.ordered inside
          have first := bypassed.ordered p _ (bypassed.clear p inside).parent
          rw [bypassed.lookup?_extra inside visible]
          exact ih _ (Nat.lt_trans first earlier) bypassed.global_own fun hidden => absurd hidden visible
        · exact ih _ earlier apart fun hidden => (seen hidden).parent bypassed.ordered link

/-- What a name means is the same on both sides, unless `fun` keeps it to itself. -/
theorem lookup (bypassed : w.Bypassed extra files w') (own : ¬ extra s)
    (seen : name ∈ definer.formals → w.scopes.Avoids extra s) :
    Value.Bypassed extra w.scopes (w.scopes.lookup s name) (w'.scopes.lookup s name) := by
  -- What the name means on one side corresponds to what it means on the other.
  have meaning := bypassed.lookup? own seen
  -- Where a name means nothing, both sides give the same failure.
  rw [Scopes.lookup, Scopes.lookup]
  cases found : w.scopes.lookup? s name with
  | some v =>
    rw [found] at meaning
    obtain ⟨v', found', values⟩ := meaning.some_left
    rw [found']
    exact values
  | none =>
    rw [found] at meaning
    rw [meaning.none_left]
    exact ⟨.error rfl, trivial⟩

/-- Chains end in the global scope on both sides. -/
theorem root (bypassed : w.Bypassed extra files w') (made : w.scopes.Made s) (own : ¬ extra s) :
    w.scopes.root s = Scopes.global ∧ w'.scopes.root s = Scopes.global := by
  -- By strong induction on the scope; what is above was made before it.
  obtain ⟨index⟩ := s
  induction index using Nat.strongRecOn with
  | ind index ih =>
    rw [Scopes.root_eq bypassed.ordered, Scopes.root_eq bypassed.ordered']
    -- The parents correspond, unless one of them is bypassed.
    have above := bypassed.parents ⟨index⟩ own
    cases link : w.scopes.parent? ⟨index⟩ with
    | none =>
      -- A scope without a parent ends the chain on both sides.
      rw [link] at above
      rw [above.none_left]
      exact ⟨bypassed.outermost _ made link, bypassed.outermost _ made link⟩
    | some p =>
      rw [link] at above
      obtain ⟨p', link', captured⟩ := above.some_left
      have earlier := bypassed.ordered _ p link
      -- One step up leads to the parents, which have corresponding roots.
      rw [link', Option.elim_some, Option.elim_some]
      rcases captured.2 with ⟨inside, rfl⟩ | ⟨apart, rfl⟩
      · -- The global scope is right above one that is bypassed.
        rw [Scopes.root_eq bypassed.ordered, (bypassed.clear p inside).parent, Option.elim_some]
        exact ⟨Scopes.root_global _, Scopes.root_global _⟩
      -- Otherwise the parents correspond, and were made before.
      · exact ih _ earlier captured.1 apart

/-- A name may be bound on both sides. -/
theorem bind (bypassed : w.Bypassed extra files w') (made : w.scopes.Made s) (own : ¬ extra s)
    (name : String) (value : v.Bypassed extra w.scopes v') :
    Bypassed extra files { w with scopes := w.scopes.bind s name v }
      { w' with scopes := w'.scopes.bind s name v' } := by
  have later : w.scopes.Continues (w.scopes.bind s name v) :=
    Scopes.Spares.bindAll (.refl _ _) (.inl trivial) [(name, v)]
  -- Nothing but the bindings changes, so the other conditions stay.
  refine { bypassed with
    ordered := fun id parent => by simpa using bypassed.ordered id parent
    ordered' := fun id parent => by simpa using bypassed.ordered' id parent
    global := by simpa using bypassed.global
    counted := by simpa using bypassed.counted
    outermost := fun t => by simpa using bypassed.outermost t
    clear := fun t inside => ?_
    parents := fun t apart => ?_
    bound := fun t key apart => ?_ }
  -- What is bound is in another scope than those that are bypassed.
  · obtain ⟨there, parent, plain⟩ := bypassed.clear t inside
    refine ⟨by simpa using there, by simpa using parent, fun key visible => ?_⟩
    have other : t ≠ s := fun same => own (same ▸ inside)
    rw [Scopes.local?_bind, if_neg fun same => other same.1]
    exact plain key visible
  -- No scope gets another parent.
  · rw [Scopes.parent?_bind, Scopes.parent?_bind]
    exact (bypassed.parents t apart).imp fun _ _ captured =>
      ⟨Nat.lt_of_lt_of_le captured.1 later.within, captured.2⟩
  · rw [Scopes.local?_bind, Scopes.local?_bind]
    -- At the place of the binding are the values that have been bound.
    by_cases here : t = s ∧ key = name
    · rw [if_pos ⟨here.1, here.2, made⟩, if_pos ⟨here.1, here.2, bypassed.made made⟩]
      exact .some (value.later bypassed.ordered later)
    -- All other bindings are as they were, in scopes that have been made no later.
    · rw [if_neg fun same => here ⟨same.1, same.2.1⟩, if_neg fun same => here ⟨same.1, same.2.1⟩]
      exact (bypassed.bound t key apart).imp fun _ _ values => values.later bypassed.ordered later

/-- Names may be bound on both sides. -/
theorem bindAll (bypassed : w.Bypassed extra files w') (made : w.scopes.Made s) (own : ¬ extra s)
    {bindings bindings' : List (String × Value)}
    (values : List.Forall₂ (Primitive.BindingRelated Eq (w.scopes.Bypass extra)) bindings bindings')
    (hygienic : ∀ b ∈ bindings, b.2.Hygienic (Defining extra w.scopes)) :
    Bypassed extra files { w with scopes := w.scopes.bindAll s bindings }
      { w' with scopes := w'.scopes.bindAll s bindings' } := by
  -- The induction is on the bindings; none of them makes a scope.
  induction bindings generalizing w w' bindings' with
  | nil =>
    cases values
    exact bypassed
  | cons b rest ih =>
    -- The first binding has the same name on both sides.
    obtain ⟨key, t⟩ := b
    cases values with
    | @cons _ b' _ rest' head tail =>
      obtain ⟨key', t'⟩ := b'
      obtain ⟨rfl, same⟩ := head
      have later : w.scopes.Continues (w.scopes.bind s key t) :=
        Scopes.Spares.bindAll (.refl _ _) (.inl trivial) [(key, t)]
      -- After the first binding both worlds still correspond, and the others are bound in them.
      have first := bypassed.bind made own key ⟨same, hygienic _ List.mem_cons_self⟩
      refine ih first (by simpa using made) (tail.imp fun _ _ both => ⟨both.1, both.2.later later⟩)
        fun b member => ?_
      exact (hygienic b (List.mem_cons_of_mem _ member)).later bypassed.ordered later

/-- A new scope may be made below one that is bypassed, and below the global one on the other side. -/
theorem extend (bypassed : w.Bypassed extra files w') (captured : w.scopes.Bypass extra s s') :
    Bypassed extra files { w with scopes := w.scopes.extend (some s) }
      { w' with scopes := w'.scopes.extend (some s') } := by
  have later : w.scopes.Continues (w.scopes.extend (some s)) := Scopes.Spares.extend _ _ _
  refine { bypassed with
    ordered := bypassed.ordered.extend captured.1
    ordered' := bypassed.ordered'.extend (bypassed.made_bypass captured)
    global := bypassed.global.extend _
    counted := by simpa using bypassed.counted
    outermost := fun t there ends => ?_
    clear := fun t inside => ?_
    parents := fun t apart => ?_
    bound := fun t key apart => ?_ }
  -- The new scope is no outermost one.
  · rw [Scopes.parent?_extend] at ends
    split at ends
    · cases ends
    · rename_i old
      exact bypassed.outermost t ((Scopes.made_extend.mp there).resolve_right old) ends
  -- The scopes that are bypassed are older, and still bind what they did.
  · obtain ⟨there, parent, plain⟩ := bypassed.clear t inside
    refine ⟨there.extend _, ?_, fun key visible => ?_⟩
    · rw [Scopes.parent?_extend, if_neg there.ne_next, parent]
    · rw [Scopes.local?_extend, plain key visible]
  · rw [Scopes.parent?_extend, Scopes.parent?_extend, bypassed.next]
    -- The new scope corresponds to the new one, and the scopes above them are those that were
    -- given.
    by_cases new : t = w.scopes.next
    · rw [if_pos new, if_pos new]
      exact .some ⟨captured.1.extend _, captured.2⟩
    · rw [if_neg new, if_neg new]
      exact (bypassed.parents t apart).imp fun _ _ linked => ⟨linked.1.extend _, linked.2⟩
  · rw [Scopes.local?_extend, Scopes.local?_extend]
    exact (bypassed.bound t key apart).imp fun _ _ values => values.later bypassed.ordered later

end Bypassed
end World
end QLisp
