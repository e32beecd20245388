import QLisp.Proofs.Scope

/-!
Chains of scopes, link by link.

A chain is followed as far as an identity is large, so its definition counts. Here it is read as one
would draw it: a scope, then the chain of its parent.
-/

namespace QLisp.Scopes

variable {α : Type} {scopes scopes' : Scopes α} {s : ScopeId} {back : List ScopeId}
  {top : Option ScopeId}

/-- A chain that is followed far enough is the same however much further it is followed. -/
theorem chainUpTo_of_lt (ordered : scopes.ParentsFirst) (count : Nat) :
    ∀ more s, s.index < count → s.index < more → scopes.chainUpTo count s = scopes.chainUpTo more s := by
  -- The induction is on one of the counts; each link leads to a smaller identity.
  induction count with
  | zero => intro more s below; omega
  | succ count ih =>
    intro more s below enough
    obtain ⟨more, rfl⟩ : ∃ less, more = less + 1 := ⟨more - 1, by omega⟩
    simp only [chainUpTo]
    cases link : scopes.parent? s with
    | none => rfl
    | some parent =>
      -- The scope that it leads to was made earlier, so fewer links are left than either count allows.
      have earlier := ordered s parent link
      simp only
      rw [ih more parent (by omega) (by omega)]

/-- A chain is a scope followed by the chain of its parent. -/
theorem chain_eq (ordered : scopes.ParentsFirst) (s : ScopeId) :
    scopes.chain s = s :: ((scopes.parent? s).elim [] scopes.chain) := by
  rw [chain, chainUpTo]
  cases link : scopes.parent? s with
  | none => rfl
  | some parent =>
    have earlier := ordered s parent link
    simp only [Option.elim_some, chain]
    rw [chainUpTo_of_lt ordered s.index (parent.index + 1) parent earlier (by omega)]

/-- A name means what the scope itself says, and otherwise what it means in the parent. -/
theorem lookup?_eq (ordered : scopes.ParentsFirst) (s : ScopeId) (name : String) :
    scopes.lookup? s name =
      (scopes.local? s name).or ((scopes.parent? s).bind (scopes.lookup? · name)) := by
  rw [lookup?, chain_eq ordered, List.findSome?_cons]
  cases scopes.local? s name with
  | some v => rfl
  | none => cases scopes.parent? s <;> rfl

/-- The outermost scope of a chain is that of the parent, if there is one. -/
theorem root_eq (ordered : scopes.ParentsFirst) (s : ScopeId) :
    scopes.root s = (scopes.parent? s).elim s scopes.root := by
  rw [root, chain_eq ordered, List.getLastD_cons]
  cases scopes.parent? s with
  | none => rfl
  | some parent =>
    -- The chain of the parent is not empty, so its last scope does not depend on the one before.
    rw [Option.elim_some, Option.elim_some, root, chain_eq ordered parent, List.getLastD_cons,
      List.getLastD_cons]

/-- A scope has been made after another one was exactly when it had been or is the new one. -/
theorem made_extend {parent : Option ScopeId} :
    (scopes.extend parent).Made s ↔ scopes.Made s ∨ s = scopes.next := by
  obtain ⟨index⟩ := s
  simp only [Made, size_extend, next, ScopeId.mk.injEq]
  omega

/-- Binding names makes no scope. -/
@[simp] theorem size_bindAll (scopes : Scopes α) (id : ScopeId) (bindings : List (String × α)) :
    (scopes.bindAll id bindings).made.size = scopes.made.size := by
  induction bindings generalizing scopes with
  | nil => rfl
  | cons b rest ih => exact (ih (scopes.bind id b.1 b.2)).trans (size_bind scopes id b.1 b.2)

/-- Names may be bound in two goes. -/
theorem bindAll_append (scopes : Scopes α) (id : ScopeId) (first second : List (String × α)) :
    scopes.bindAll id (first ++ second) = (scopes.bindAll id first).bindAll id second :=
  List.foldl_append

/-- Binding names leaves every parent as it is. -/
@[simp] theorem parent?_bindAll (scopes : Scopes α) (id other : ScopeId)
    (bindings : List (String × α)) :
    (scopes.bindAll id bindings).parent? other = scopes.parent? other := by
  induction bindings generalizing scopes with
  | nil => rfl
  | cons b rest ih => exact (ih (scopes.bind id b.1 b.2)).trans (parent?_bind scopes id other b.1 b.2)

/-- A scope that has not been made binds nothing. -/
theorem local?_of_not_made (unmade : ¬ scopes.Made s) (name : String) : scopes.local? s name = none := by
  rw [local?, get?_eq_none_iff.mpr unmade]
  rfl

/-- A new scope below one that has been made is made after it. -/
theorem ParentsFirst.extend (ordered : scopes.ParentsFirst) (made : scopes.Made s) :
    (scopes.extend (some s)).ParentsFirst := by
  -- Only the new scope has got a parent, and that had been made.
  intro id parent link
  rw [parent?_extend] at link
  split at link
  · rename_i new
    cases link
    rw [new]
    exact made
  · exact ordered id parent link

/-- Scopes that bind a name in the same way show the same. -/
theorem findSome?_local?_congr {ids : List ScopeId} {name : String}
    (same : ∀ b ∈ ids, scopes'.local? b name = scopes.local? b name) :
    ids.findSome? (scopes'.local? · name) = ids.findSome? (scopes.local? · name) := by
  induction ids with
  | nil => rfl
  | cons b rest ih =>
    rw [List.findSome?_cons, List.findSome?_cons, same b List.mem_cons_self,
      ih fun other member => same other (List.mem_cons_of_mem b member)]

/-- A scope leads through some of its ancestors, in order, to the one above them, if there is one. -/
def Climbs (scopes : Scopes α) : ScopeId → List ScopeId → Option ScopeId → Prop
  | s, [], top => scopes.parent? s = top
  | s, b :: back, top => scopes.parent? s = some b ∧ scopes.Climbs b back top

namespace Climbs

/-- A name means what the first of the scopes that binds it says, and otherwise what it means above. -/
theorem lookup? (ordered : scopes.ParentsFirst) (climbs : scopes.Climbs s back top) (name : String) :
    scopes.lookup? s name =
      ((s :: back).findSome? (scopes.local? · name)).or (top.bind (scopes.lookup? · name)) := by
  -- By induction on the scopes on the way, each of which hides those above it.
  induction back generalizing s with
  | nil =>
    obtain rfl : scopes.parent? s = top := climbs
    rw [lookup?_eq ordered, List.findSome?_cons, List.findSome?_nil]
    cases scopes.local? s name <;> rfl
  | cons b back ih =>
    obtain ⟨link, rest⟩ := climbs
    rw [lookup?_eq ordered, link, List.findSome?_cons]
    -- A binding of this scope hides the others; without one the search goes on.
    cases scopes.local? s name with
    | some v => rfl
    | none => exact ih rest

/-- The outermost scope is that of the scope above. -/
theorem root {p : ScopeId} (ordered : scopes.ParentsFirst) (climbs : scopes.Climbs s back (some p)) :
    scopes.root s = scopes.root p := by
  -- By induction on the scopes on the way: the chain goes on from the last scope on the way as it
  -- does from the one above it.
  induction back generalizing s with
  | nil =>
    have link : scopes.parent? s = some p := climbs
    rw [root_eq ordered, link]
    rfl
  | cons b back ih =>
    obtain ⟨link, rest⟩ := climbs
    rw [root_eq ordered, link]
    exact ih rest

/-- The scopes on the way are made before the first, and so is the one above them. -/
theorem below (ordered : scopes.ParentsFirst) (climbs : scopes.Climbs s back top) :
    (∀ b ∈ back, b.index < s.index) ∧ ∀ p ∈ top, p.index < s.index := by
  -- By induction on the scopes on the way; a parent is always made before its child.
  induction back generalizing s with
  | nil => exact ⟨by simp, fun p above => ordered s p (climbs.trans above)⟩
  | cons b back ih =>
    obtain ⟨link, rest⟩ := climbs
    have first := ordered s b link
    obtain ⟨others, last⟩ := ih rest
    refine ⟨fun c member => ?_, fun p above => Nat.lt_trans (last p above) first⟩
    rcases List.mem_cons.mp member with rfl | inside
    · exact first
    · exact Nat.lt_trans (others c inside) first

/-- The way is the same where the scopes up to the first have the same parents. -/
theorem congr (ordered : scopes.ParentsFirst) (climbs : scopes.Climbs s back top)
    (same : ∀ b : ScopeId, b.index ≤ s.index → scopes'.parent? b = scopes.parent? b) :
    scopes'.Climbs s back top := by
  induction back generalizing s with
  | nil => exact (same s (Nat.le_refl _)).trans climbs
  | cons b back ih =>
    obtain ⟨link, rest⟩ := climbs
    have first := ordered s b link
    exact ⟨(same s (Nat.le_refl _)).trans link, ih rest fun c under => same c (by omega)⟩

end Climbs
end QLisp.Scopes
