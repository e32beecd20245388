import QLisp.Proofs.Currying

/-!
Worlds that have only grown.

A call makes a scope for its arguments. If nothing else is done, whatever could be seen before is seen
as it was.
-/

namespace QLisp

namespace Scopes

variable {scopes others further : Scopes Value} {s : ScopeId}

/-- Growing goes on. -/
theorem Extends.trans (first : scopes.Extends others) (second : others.Extends further) :
    scopes.Extends further where
  within := first.within.trans second.within
  parent? s made := (second.parent? s (Nat.lt_of_lt_of_le made first.within)).trans (first.parent? s made)
  local? s name made :=
    (second.local? s name (Nat.lt_of_lt_of_le made first.within)).trans (first.local? s name made)

/-- A name means what it did in the scopes that there were. -/
theorem Extends.lookup? (kept : scopes.Extends others) (ordered : scopes.ParentsFirst)
    (made : scopes.Made s) (name : String) : others.lookup? s name = scopes.lookup? s name := by
  -- The chain is followed link by link; parents were made before.
  have chain : ∀ count s, scopes.Made s →
      (others.chainUpTo count s).findSome? (others.local? · name) =
        (scopes.chainUpTo count s).findSome? (scopes.local? · name) := by
    intro count
    induction count with
    | zero => exact fun _ _ => rfl
    | succ count ih =>
      intro s made
      -- The scope has the parent and the bindings that it had, and so does what is above it.
      rw [chainUpTo, chainUpTo, kept.parent? s made, List.findSome?_cons, List.findSome?_cons,
        kept.local? s name made]
      cases link : scopes.parent? s with
      | none => rfl
      | some parent =>
        simp only [ih parent (Nat.lt_trans (ordered s parent link) made)]
  exact chain _ s made

/-- Of names that are bound together, each once, each has its value. -/
theorem local?_bindAll {α : Type} {scopes : Scopes α} {id : ScopeId} (made : scopes.Made id)
    {bindings : List (String × α)} (once : (bindings.map (·.1)).Nodup) (name : String) :
    (scopes.bindAll id bindings).local? id name =
      (bindings.lookup name).or (scopes.local? id name) := by
  -- The induction is on the bindings; a name that is bound first is not bound again.
  induction bindings generalizing scopes with
  | nil => rfl
  | cons b rest ih =>
    obtain ⟨key, v⟩ := b
    rw [List.map_cons, List.nodup_cons] at once
    have step := @ih (scopes.bind id key v) (made_bind.mpr made) once.2
    show ((scopes.bind id key v).bindAll id rest).local? id name = _
    rw [step, local?_bind, List.lookup_cons]
    -- The name is the one that is bound first, or it is bound by the others or not at all.
    by_cases same : name = key
    · subst same
      have absent : rest.lookup name = none := by
        rw [List.lookup_eq_none_iff]
        intro b member
        simpa using fun same => once.1 (List.mem_map.mpr ⟨b, member, same.symm⟩)
      simp [absent, made]
    · simp [same, beq_false_of_ne same]

end Scopes

/-- Scopes have been made in a world, and nothing that there was is any different. -/
structure World.Grown (w w' : World Value) : Prop where
  /-- The scopes that there were are as they were. -/
  kept : w.scopes.Extends w'.scopes
  /-- Parents are still made before their children. -/
  ordered : w.scopes.ParentsFirst → w'.scopes.ParentsFirst
  /-- No text has been printed. -/
  output : w'.output = w.output
  /-- The limit is the same. -/
  limit : w'.limit = w.limit
  /-- The files are the same. -/
  files : w'.files = w.files
  /-- No file has been asked for. -/
  asked : w'.asked = w.asked

namespace World.Grown

variable {w w' w'' : World Value}

/-- A world is as it is. -/
theorem refl (w : World Value) : w.Grown w :=
  ⟨.refl _, id, rfl, rfl, rfl, rfl⟩

/-- Growing goes on. -/
theorem trans (first : w.Grown w') (second : w'.Grown w'') : w.Grown w'' :=
  ⟨first.kept.trans second.kept, second.ordered ∘ first.ordered, second.output.trans first.output,
    second.limit.trans first.limit, second.files.trans first.files, second.asked.trans first.asked⟩

/-- A world grows by a scope for the arguments of a call. -/
theorem entered {s : ScopeId} (made : w.scopes.Made s) (bindings : List (String × Value)) :
    w.Grown (w.entered s bindings) :=
  ⟨w.extends_entered s bindings, fun ordered => ordered_entered ordered made bindings, rfl, rfl, rfl,
    rfl⟩

/-- Scopes stay made. -/
theorem made (grown : w.Grown w') {s : ScopeId} (made : w.scopes.Made s) : w'.scopes.Made s :=
  Nat.lt_of_lt_of_le made grown.kept.within

end World.Grown

namespace World

variable {w : World Value} {s : ScopeId} {names : List String} {arguments : List Value}

/-- The scope of a call has been made. -/
theorem made_entered (w : World Value) (s : ScopeId) (bindings : List (String × Value)) :
    (w.entered s bindings).scopes.Made w.scopes.next := by
  simp [Scopes.Made, size_entered, Scopes.next]

/-- The scope of a call binds each formal to its argument, and nothing else. -/
theorem local?_entered (w : World Value) (s : ScopeId) (once : names.Nodup)
    (filled : names.length = arguments.length) (name : String) :
    (w.entered s (names.zip arguments)).scopes.local? w.scopes.next name =
      (names.zip arguments).lookup name := by
  have keys : (names.zip arguments).map (·.1) = names := List.map_fst_zip (by omega)
  have there := Scopes.made_extend_next w.scopes (some s)
  refine (Scopes.local?_bindAll there (by rwa [keys]) name).trans ?_
  rw [Scopes.local?_extend, Scopes.local?_of_not_made (Scopes.not_made_next _), Option.or_none]

/-- In the scope of a call a formal means the argument, and any other name what it means outside. -/
theorem lookup?_entered (ordered : w.scopes.ParentsFirst) (made : w.scopes.Made s)
    (once : names.Nodup) (filled : names.length = arguments.length) (name : String) :
    (w.entered s (names.zip arguments)).scopes.lookup? w.scopes.next name =
      ((names.zip arguments).lookup name).or (w.scopes.lookup? s name) := by
  rw [Scopes.lookup?_eq (ordered_entered ordered made _), local?_entered w s once filled,
    parent?_entered, Option.bind_some, (w.extends_entered s _).lookup? ordered made]

/-- A name that is no formal is not bound with the formals. -/
theorem lookup_zip_of_not_mem {name : String} (other : name ∉ names) (arguments : List Value) :
    (names.zip arguments).lookup name = none := by
  rw [List.lookup_eq_none_iff]
  intro b member
  simp only [bne_iff_ne, ne_eq]
  rintro rfl
  exact other (List.of_mem_zip member).1

end World
end QLisp
