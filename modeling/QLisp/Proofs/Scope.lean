import QLisp.Scope

/-! Laws of scopes: what binding and extending change, and where a chain ends. -/

namespace QLisp.Scopes

variable {α : Type}

/-- The scope with an identity has been made. -/
def Made (scopes : Scopes α) (id : ScopeId) : Prop :=
  id.index < scopes.made.size

instance (scopes : Scopes α) (id : ScopeId) : Decidable (scopes.Made id) :=
  inferInstanceAs (Decidable (_ < _))

/-- Every parent was made before its children. -/
def ParentsFirst (scopes : Scopes α) : Prop :=
  ∀ id parent, scopes.parent? id = some parent → parent.index < id.index

/-- A scope is found exactly when it has been made. -/
theorem get?_eq_none_iff {scopes : Scopes α} {id : ScopeId} :
    scopes.get? id = none ↔ ¬ scopes.Made id := by
  simp [get?, Made]

/-- The global scope is there from the start. -/
theorem made_initial : (initial : Scopes α).Made global := by
  simp [Made, initial, global]

/-- A program begins with no name bound. -/
@[simp] theorem local?_initial (id : ScopeId) (name : String) :
    (initial : Scopes α).local? id name = none := by
  -- There is only one scope, and it is empty.
  obtain ⟨index⟩ := id
  cases index <;> simp [initial, local?, get?]

/-- The scope in which a program begins has no parent. -/
@[simp] theorem parent?_initial (id : ScopeId) : (initial : Scopes α).parent? id = none := by
  obtain ⟨index⟩ := id
  cases index <;> simp [initial, parent?, get?]

/-- Binding makes no scope. -/
@[simp] theorem size_bind (scopes : Scopes α) (id : ScopeId) (name : String) (v : α) :
    (scopes.bind id name v).made.size = scopes.made.size := by
  simp [bind]

/-- Binding makes no scope. -/
@[simp] theorem made_bind {scopes : Scopes α} {id other : ScopeId} {name : String} {v : α} :
    (scopes.bind id name v).Made other ↔ scopes.Made other := by
  simp [Made]

/-- A scope after binding a name: the one bound in has the name added. -/
theorem get?_bind (scopes : Scopes α) (id other : ScopeId) (name : String) (v : α) :
    (scopes.bind id name v).get? other =
      if other = id then
        (scopes.get? other).map fun scope => { scope with bindings := scope.bindings.insert name v }
      else scopes.get? other := by
  -- Two identities are the same exactly when their numbers are.
  have same : (id.index = other.index) ↔ other = id := by
    cases id; cases other; simp [eq_comm]
  simp only [get?, bind, Array.getElem?_modify, same]

/-- Binding leaves every parent as it is. -/
@[simp] theorem parent?_bind (scopes : Scopes α) (id other : ScopeId) (name : String) (v : α) :
    (scopes.bind id name v).parent? other = scopes.parent? other := by
  simp only [parent?, get?_bind]
  split
  · cases scopes.get? other <;> simp
  · rfl

/-- Binding changes one name of one scope. -/
theorem local?_bind (scopes : Scopes α) (id other : ScopeId) (name key : String) (v : α) :
    (scopes.bind id name v).local? other key =
      if other = id ∧ key = name ∧ scopes.Made id then some v else scopes.local? other key := by
  -- Only the scope that is written is different, and there only the name.
  by_cases there : other = id
  · subst other
    by_cases made : scopes.Made id
    · -- The scope exists, so its bindings gain the name.
      obtain ⟨scope, found⟩ : ∃ scope, scopes.get? id = some scope :=
        Option.ne_none_iff_exists'.mp fun missing => get?_eq_none_iff.mp missing made
      -- The binding is found under its name, and the others under theirs.
      by_cases same : key = name
      · subst key
        simp [local?, get?_bind, found, made]
      · simp [local?, get?_bind, found, made, same, Std.TreeMap.getElem?_insert, Ne.symm same]
    · simp [local?, get?_bind, get?_eq_none_iff.mpr made, made]
  · simp [local?, get?_bind, there]

/-- Binding a name to a good value leaves all values good. -/
theorem forall_bind {good : α → Prop} {scopes : Scopes α}
    (all : ∀ id name v, scopes.local? id name = some v → good v) (id : ScopeId) (name : String)
    {v : α} (fine : good v) :
    ∀ other key t, (scopes.bind id name v).local? other key = some t → good t := by
  -- Only the name that is bound has another value than before.
  intro other key t found
  rw [local?_bind] at found
  split at found
  · cases found
    exact fine
  · exact all other key t found

/-- Binding names to good values leaves all values good. -/
theorem forall_bindAll {good : α → Prop} {scopes : Scopes α}
    (all : ∀ id name v, scopes.local? id name = some v → good v) (id : ScopeId)
    {bindings : List (String × α)} (fine : ∀ b ∈ bindings, good b.2) :
    ∀ other key t, (scopes.bindAll id bindings).local? other key = some t → good t := by
  induction bindings generalizing scopes with
  | nil => exact all
  | cons b rest ih =>
    exact ih (forall_bind all id b.1 (fine b (by simp))) fun b member => fine b (by simp [member])

/-- Binding names in one scope leaves the others as they are. -/
theorem local?_bindAll_of_ne {scopes : Scopes α} {id other : ScopeId} (apart : other ≠ id)
    (bindings : List (String × α)) (name : String) :
    (scopes.bindAll id bindings).local? other name = scopes.local? other name := by
  induction bindings generalizing scopes with
  | nil => rfl
  | cons b rest ih =>
    have first : (scopes.bind id b.1 b.2).local? other name = scopes.local? other name := by
      rw [local?_bind, if_neg fun same => apart same.1]
    exact ih.trans first

/-- Extending adds one scope. -/
@[simp] theorem size_extend (scopes : Scopes α) (parent : Option ScopeId) :
    (scopes.extend parent).made.size = scopes.made.size + 1 := by
  simp [extend]

/-- A scope after extending: the new one is the last. -/
theorem get?_extend (scopes : Scopes α) (parent : Option ScopeId) (id : ScopeId) :
    (scopes.extend parent).get? id =
      if id = scopes.next then some ⟨parent, {}⟩ else scopes.get? id := by
  have same : (id.index = scopes.made.size) ↔ id = scopes.next := by
    cases id; simp [next]
  simp only [get?, extend, Array.getElem?_push, same]

/-- The scope that will be made next has not been made yet. -/
theorem not_made_next (scopes : Scopes α) : ¬ scopes.Made scopes.next := by
  simp [Made, next]

/-- Extending makes the next scope. -/
theorem made_extend_next (scopes : Scopes α) (parent : Option ScopeId) :
    (scopes.extend parent).Made scopes.next := by
  simp [Made, next]

/-- Scopes that were made stay made when another one is. -/
theorem Made.extend {scopes : Scopes α} {id : ScopeId} (made : scopes.Made id)
    (parent : Option ScopeId) : (scopes.extend parent).Made id := by
  simp only [Made, size_extend] at made ⊢
  omega

/-- A scope that was made is not the one made next. -/
theorem Made.ne_next {scopes : Scopes α} {id : ScopeId} (made : scopes.Made id) :
    id ≠ scopes.next := by
  rintro rfl
  exact not_made_next scopes made

/-- A new scope has the parent it was given, and the others keep theirs. -/
theorem parent?_extend (scopes : Scopes α) (parent : Option ScopeId) (id : ScopeId) :
    (scopes.extend parent).parent? id =
      if id = scopes.next then parent else scopes.parent? id := by
  simp only [parent?, get?_extend]
  split <;> simp

/-- A new scope binds nothing, and the others bind what they did. -/
@[simp] theorem local?_extend (scopes : Scopes α) (parent : Option ScopeId) (id : ScopeId)
    (name : String) : (scopes.extend parent).local? id name = scopes.local? id name := by
  simp only [local?, get?_extend]
  split
  · subst id
    simp [get?_eq_none_iff.mpr (not_made_next scopes)]
  · rfl

/-- A chain depends on the parents alone. -/
theorem chainUpTo_congr {β : Type} {scopes : Scopes α} {others : Scopes β}
    (same : ∀ id, scopes.parent? id = others.parent? id) (count : Nat) :
    ∀ id, scopes.chainUpTo count id = others.chainUpTo count id := by
  -- One link is the same on both sides, and the rest of the chain is shorter.
  induction count with
  | zero => intro id; rfl
  | succ count ih =>
    intro id
    simp only [chainUpTo, same id]
    cases others.parent? id with
    | none => rfl
    | some parent => simp [ih parent]

/-- The chain of a scope depends on the parents alone. -/
theorem chain_congr {β : Type} {scopes : Scopes α} {others : Scopes β}
    (same : ∀ id, scopes.parent? id = others.parent? id) (id : ScopeId) :
    scopes.chain id = others.chain id :=
  chainUpTo_congr same _ id

/-- The outermost scope of a chain depends on the parents alone. -/
theorem root_congr {β : Type} {scopes : Scopes α} {others : Scopes β}
    (same : ∀ id, scopes.parent? id = others.parent? id) (id : ScopeId) :
    scopes.root id = others.root id := by
  simp [root, chain_congr same]

/-- A chain that is followed far enough ends in a scope without a parent. -/
theorem chainUpTo_getLastD {scopes : Scopes α} (ordered : scopes.ParentsFirst) :
    ∀ count id, id.index < count → scopes.Made id → ∀ fallback,
      scopes.Made ((scopes.chainUpTo count id).getLastD fallback) ∧
        scopes.parent? ((scopes.chainUpTo count id).getLastD fallback) = none := by
  -- Each link leads to a smaller identity, so the count outlasts the chain.
  intro count
  induction count with
  | zero => intro id below; omega
  | succ count ih =>
    intro id below made fallback
    cases link : scopes.parent? id with
    -- The scope is the last of its chain, and it has been made.
    | none => simpa [chainUpTo, link] using made
    | some parent =>
      -- The parent is earlier, so less is left to count down from.
      have earlier := ordered id parent link
      have parentMade : scopes.Made parent := Nat.lt_trans earlier made
      simp only [chainUpTo, link, List.getLastD_cons]
      exact ih parent (by omega) parentMade id

/-- The outermost scope of a chain has been made and has no parent. -/
theorem root_outermost {scopes : Scopes α} (ordered : scopes.ParentsFirst) {id : ScopeId}
    (made : scopes.Made id) :
    scopes.Made (scopes.root id) ∧ scopes.parent? (scopes.root id) = none :=
  chainUpTo_getLastD ordered _ id (by omega) made id

/-- The global scope is alone in its chain. -/
theorem chain_global (scopes : Scopes α) : scopes.chain global = [global] := by
  -- The global scope is made first, so its chain has no room for another scope.
  show scopes.chainUpTo (0 + 1) global = [global]
  rw [chainUpTo]
  cases scopes.parent? global <;> rfl

/-- The global scope is the outermost of its chain. -/
theorem root_global (scopes : Scopes α) : scopes.root global = global := by
  rw [root, chain_global]
  rfl

/--
One collection of scopes comes from another by making scopes and by writing names in scopes.

The list has one entry for each name written, the latest first.
-/
inductive Written : List (ScopeId × String) → Scopes α → Scopes α → Prop where
  | nil (scopes : Scopes α) : Written [] scopes scopes
  | bind {writes : List (ScopeId × String)} {before after : Scopes α}
      (earlier : Written writes before after) (id : ScopeId) (name : String) (v : α) :
      Written ((id, name) :: writes) before (after.bind id name v)
  | extend {writes : List (ScopeId × String)} {before after : Scopes α}
      (earlier : Written writes before after) (parent : Option ScopeId) :
      Written writes before (after.extend parent)

/-- What is written in two stretches is written in one. -/
theorem Written.trans {writes more : List (ScopeId × String)} {first second third : Scopes α}
    (early : Written writes first second) (late : Written more second third) :
    Written (more ++ writes) first third := by
  -- The later stretch is rebuilt on top of the earlier one.
  induction late with
  | nil => exact early
  | bind _ id name v ih => exact (ih early).bind id name v
  | extend _ parent ih => exact (ih early).extend parent

/-- Scopes that were made stay made. -/
theorem Written.made {writes : List (ScopeId × String)} {before after : Scopes α}
    (written : Written writes before after) {id : ScopeId} (made : before.Made id) :
    after.Made id := by
  induction written with
  | nil => exact made
  | bind _ id name v ih => exact made_bind.mpr (ih made)
  | extend _ parent ih => exact (ih made).extend parent

/-- Scopes that were made keep their parents. -/
theorem Written.parent? {writes : List (ScopeId × String)} {before after : Scopes α}
    (written : Written writes before after) {id : ScopeId} (made : before.Made id) :
    after.parent? id = before.parent? id := by
  induction written with
  | nil => rfl
  | bind _ id name v ih => rw [parent?_bind, ih made]
  | extend earlier parent ih =>
    rw [parent?_extend, if_neg (earlier.made made).ne_next, ih made]

/-- A name that is not written in a scope is bound there as it was. -/
theorem Written.local? {writes : List (ScopeId × String)} {before after : Scopes α}
    (written : Written writes before after) {id : ScopeId} {name : String}
    (unwritten : (id, name) ∉ writes) : after.local? id name = before.local? id name := by
  -- A write elsewhere leaves what is bound here; the rest is by the writes before it.
  induction written with
  | nil => rfl
  | bind _ other key v ih =>
    simp only [List.mem_cons, Prod.mk.injEq, not_or, not_and] at unwritten
    rw [local?_bind, if_neg, ih unwritten.2]
    rintro ⟨rfl, rfl, _⟩
    exact unwritten.1 rfl rfl
  | extend _ parent ih => rw [local?_extend, ih unwritten]

/-- A chain consists of scopes that were made, so writing leaves it as it is. -/
theorem Written.chainUpTo {writes : List (ScopeId × String)} {before after : Scopes α}
    (written : Written writes before after) (ordered : before.ParentsFirst) (count : Nat) :
    ∀ id, before.Made id → after.chainUpTo count id = before.chainUpTo count id := by
  -- Parents are never written, so each link is the same.
  induction count with
  | zero => intro id _; rfl
  | succ count ih =>
    intro id made
    simp only [Scopes.chainUpTo, written.parent? made]
    cases link : before.parent? id with
    | none => rfl
    | some parent => simp [ih parent (Nat.lt_trans (ordered id parent link) made)]

/-- A name is seen as before when it is bound as before all along the chain. -/
theorem Written.lookup? {writes : List (ScopeId × String)} {before after : Scopes α}
    (written : Written writes before after) (ordered : before.ParentsFirst) {id : ScopeId}
    (made : before.Made id) {name : String}
    (same : ∀ s ∈ before.chain id, after.local? s name = before.local? s name) :
    after.lookup? id name = before.lookup? id name := by
  have chain : after.chain id = before.chain id := written.chainUpTo ordered _ id made
  rw [Scopes.lookup?, Scopes.lookup?, chain]
  -- Each scope of the chain answers as it did.
  generalize before.chain id = links at same
  induction links with
  | nil => rfl
  | cons s rest ih =>
    rw [List.findSome?_cons, List.findSome?_cons, same s (by simp),
      ih fun other member => same other (by simp [member])]

end QLisp.Scopes
