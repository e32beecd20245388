import QLisp.Proofs.Program.Lists

/-!
Taking a list apart.

`take` and `drop` go through a list and count a number down by one at each element. They stop at the same
element, where the number is not above zero any more or the list ends, so together they give the whole
list. Whatever the number is, the list is finite, and elements are never evaluated.
-/

namespace QLisp

open Library Run

namespace Number

/-- A number counts off no more elements: it is not above zero, or is no number at all. -/
def isSpent (n : Number) : Bool :=
  n.order (.ofInt 0) ≠ .gt

/-- How many elements a number counts off a list, going down by one at each. -/
def counted (n : Number) : List Value → Nat
  | [] => 0
  | _ :: rest => if n.isSpent then 0 else (n.sub (.ofInt 1)).counted rest + 1

end Number

variable {ev : Nat → Evaluator} [Stepwise ev] {w : World Value} {scope : ScopeId} {s joiner : ScopeId}
  {v : Value} {items : List Value} {n : Number} {k enough : Nat}

namespace Number

/-- An integer below 2^53 is spent when it is zero. -/
theorem isSpent_iff (equal : n.equal (ofInt k)) (small : k < 2 ^ 53) : n.isSpent ↔ k = 0 := by
  rw [isSpent, decide_eq_true_iff, ne_eq, order_zero equal small, Nat.pos_iff_ne_zero, not_not]

/-- An integer below 2^53 is the same as itself. -/
theorem equal_ofInt (small : k < 2 ^ 53) : (ofInt k).equal (ofInt k) := by
  simp [equal, (signedUnits_ofInt small).2.1]

/-- An integer below 2^53 counts off as many elements as it says, if there are so many. -/
theorem counted_ofInt (small : k < 2 ^ 53) : (ofInt k).counted items = min k items.length := by
  -- The induction is on the elements.
  induction items generalizing k with
  | nil => simp [counted]
  | cons v rest ih =>
    rw [counted]
    cases k with
    | zero => rw [if_pos ((isSpent_iff (equal_ofInt small) small).mpr rfl), Nat.zero_min]
    | succ k =>
      rw [if_neg (mt (isSpent_iff (equal_ofInt small) small).mp (Nat.succ_ne_zero k)), sub_one small,
        ih (by omega), List.length_cons]
      omega

/-- A number that is the same as such an integer counts off as many. -/
theorem counted_eq (equal : n.equal (ofInt k)) (small : k < 2 ^ 53) :
    n.counted items = min k items.length := by
  rcases Nat.eq_zero_or_pos k with rfl | positive
  · -- The number may be a negative zero.
    cases items with
    | nil => rfl
    | cons v rest => rw [counted, if_pos ((isSpent_iff equal small).mpr rfl), Nat.zero_min]
  · rw [eq_ofInt equal positive small, counted_ofInt small]

end Number

namespace Run

/-- The name of a number computes one less. -/
theorem computes_lessOne {name : String} (count : Computes ev enough scope (.symbol name) w (.number n)) :
    Computes ev (enough + 1) scope (lessOne (.symbol name)) w (.number (n.sub (.ofInt 1))) :=
  .call (.cons (computes_primitive _) (.cons count (.cons (.of_still fun _ => evaluates_number _)
    computesAll_nil))) rfl (.of_still fun _ => .of_eq fun _ => rfl)

/-- The conditional on a count being used up or a list being empty computes the branch for the two. -/
theorem computes_onDone {done other : List Value}
    (count : Computes ev (enough + 1) scope (.symbol "n") w (.number n))
    (list : Computes ev (enough + 1) scope (.symbol "l") w (.qexpr items))
    (nil : Computes ev (enough + 1) scope (.symbol "nil") w (.qexpr []))
    (branch : Computes ev (enough + 3) scope
      (.sexpr (if n.isSpent || items.isEmpty then done else other)) w v) :
    Computes ev (enough + 4) scope (.sexpr (onDone done other)) w v := by
  -- The count is compared with zero and the list with the empty one, and both tests are evaluated.
  have spent : Computes ev (enough + 2) scope
      (.sexpr [.primitive .lessEq, .symbol "n", .number (.ofInt 0)]) w (.bool n.isSpent) :=
    .call (.cons (computes_primitive _) (.cons count (.cons (.of_still fun _ => evaluates_number _)
      computesAll_nil))) rfl (.of_still fun _ => .of_eq fun _ => rfl)
  have test : Computes ev (enough + 3) scope (.sexpr [.primitive .or,
      .sexpr [.primitive .lessEq, .symbol "n", .number (.ofInt 0)],
      .sexpr [.primitive .equal, .symbol "l", .symbol "nil"]]) w
      (.bool (n.isSpent || items.isEmpty)) := by
    refine .call (.cons (computes_primitive _) (.cons spent (.cons (computes_isEmpty list nil)
      computesAll_nil))) rfl (.of_still fun _ => .of_eq fun _ => ?_)
    -- The truth of the disjunction is that of the two tests.
    cases n.isSpent <;> cases items <;> rfl
  refine .call (.cons (computes_primitive _) (.cons test (.cons (computes_qexpr _)
    (.cons (computes_qexpr _) computesAll_nil)))) rfl (returns_cond ?_ branch)
  cases n.isSpent || items.isEmpty <;> rfl

end Run

/-- `take` returns as many of the first elements as a number counts off. -/
theorem returns_take (items : List Value) : ∀ {n : Number} {w : World Value} {scope : ScopeId},
    w.Equipped → w.Provides take s → w.Provides append joiner →
    Returns ev (3 * items.length + 8) scope (take.closure s) [.number n, .qexpr items] w
      (.qexpr (items.take (n.counted items))) := by
  -- The induction is on the list.
  induction items with
  | nil =>
    intro n w scope equipped provides _
    refine returns_function equipped provides (by decide) rfl fun u own grown serves => ?_
    have nil {n : Nat} : Computes ev n own (.symbol "nil") u (.qexpr []) := serves.computes_nil (by decide)
    -- Nothing is taken from the empty list.
    refine computes_onDone (serves.computes rfl (by decide)) (serves.computes rfl (by decide)) nil ?_
    rw [List.isEmpty_nil, Bool.or_true, if_pos rfl, List.take_nil]
    exact ((nil (n := 0)).lone rfl (computes_qexpr _)).mono (by decide)
  | cons v rest ih =>
    intro n w scope equipped provides joins
    refine returns_function equipped provides (by decide) rfl fun u own grown serves => ?_
    have nil {n : Nat} : Computes ev n own (.symbol "nil") u (.qexpr []) := serves.computes_nil (by decide)
    have count {k : Nat} : Computes ev k own (.symbol "n") u (.number n) :=
      serves.computes rfl (by decide)
    have list {n : Nat} : Computes ev n own (.symbol "l") u (.qexpr (v :: rest)) :=
      serves.computes rfl (by decide)
    refine computes_onDone count list nil ?_
    -- The list is not empty, so the count alone decides.
    rw [List.isEmpty_cons, Bool.or_false, Number.counted]
    -- A count that is used up takes nothing, whatever is left of the list.
    by_cases spent : n.isSpent
    · rw [if_pos spent, if_pos spent, List.take_zero]
      exact ((nil (n := 0)).lone rfl (computes_qexpr _)).mono (by omega)
    · rw [if_neg spent, if_neg spent, List.take_succ_cons]
      have there := provides.grown equipped grown
      have joined := joins.grown equipped grown
      -- One element less is left to take from one less, so the others are the induction's.
      have shorter : Computes ev (3 * rest.length + 9) own
          (.sexpr [.symbol "take", lessOne (.symbol "n"), tailOf "l"]) u
          (.qexpr (rest.take ((n.sub (.ofInt 1)).counted rest))) :=
        .call (.cons (serves.computes_function there (by decide) (by decide))
          (.cons (computes_lessOne count) (.cons (computes_tailOf list) computesAll_nil))) rfl
          (ih serves.equipped there joined)
      -- The first element is joined to those.
      exact .call (.cons (serves.computes_function joined (by decide) (by decide))
        (.cons (computes_headOf list) (.cons shorter computesAll_nil))) rfl
        ((returns_append serves.equipped joined [v] _).mono (by omega))

/-- `drop` returns the other elements. -/
theorem returns_drop (items : List Value) : ∀ {n : Number} {w : World Value} {scope : ScopeId},
    w.Equipped → w.Provides drop s →
    Returns ev (3 * items.length + 4) scope (drop.closure s) [.number n, .qexpr items] w
      (.qexpr (items.drop (n.counted items))) := by
  -- The induction is on the list.
  induction items with
  | nil =>
    intro n w scope equipped provides
    refine returns_function equipped provides (by decide) rfl fun u own grown serves => ?_
    have list {n : Nat} : Computes ev n own (.symbol "l") u (.qexpr []) := serves.computes rfl (by decide)
    -- Nothing is left of the empty list.
    refine computes_onDone (serves.computes rfl (by decide)) list (serves.computes_nil (by decide)) ?_
    rw [List.isEmpty_nil, Bool.or_true, if_pos rfl, List.drop_nil]
    exact ((list (n := 0)).lone rfl (computes_qexpr _)).mono (by decide)
  | cons v rest ih =>
    intro n w scope equipped provides
    refine returns_function equipped provides (by decide) rfl fun u own grown serves => ?_
    have count {k : Nat} : Computes ev k own (.symbol "n") u (.number n) :=
      serves.computes rfl (by decide)
    have list {n : Nat} : Computes ev n own (.symbol "l") u (.qexpr (v :: rest)) :=
      serves.computes rfl (by decide)
    refine computes_onDone count list (serves.computes_nil (by decide)) ?_
    rw [List.isEmpty_cons, Bool.or_false, Number.counted]
    -- A count that is used up leaves the list as it is.
    by_cases spent : n.isSpent
    · rw [if_pos spent, if_pos spent, List.drop_zero]
      exact ((list (n := 0)).lone rfl (computes_qexpr _)).mono (by omega)
    · rw [if_neg spent, if_neg spent, List.drop_succ_cons]
      have there := provides.grown equipped grown
      -- One element less is left out of one less, so the rest is the induction's.
      exact .call (.cons (serves.computes_function there (by decide) (by decide))
        (.cons (computes_lessOne count) (.cons (computes_tailOf list) computesAll_nil))) rfl
        ((ih serves.equipped there).mono (by rw [List.length_cons]; omega))

/-- `split` returns what `take` and `drop` do. -/
theorem returns_split {taker dropper : ScopeId} (equipped : w.Equipped) (provides : w.Provides split s)
    (takes : w.Provides take taker) (drops : w.Provides drop dropper) (joins : w.Provides append joiner)
    (n : Number) (items : List Value) :
    Returns ev (3 * items.length + 10) scope (split.closure s) [.number n, .qexpr items] w
      (.qexpr [.qexpr (items.take (n.counted items)), .qexpr (items.drop (n.counted items))]) := by
  refine returns_function equipped provides (by decide) rfl fun u own grown serves => ?_
  have count {k : Nat} : Computes ev k own (.symbol "n") u (.number n) := serves.computes rfl (by decide)
  have list {n : Nat} : Computes ev n own (.symbol "l") u (.qexpr items) := serves.computes rfl (by decide)
  -- Both halves are computed by calls in the scope of `split`, which joins them.
  have first : Computes ev (3 * items.length + 9) own
      (.sexpr [.symbol "take", .symbol "n", .symbol "l"]) u (.qexpr (items.take (n.counted items))) :=
    .call (.cons (serves.computes_function (takes.grown equipped grown) (by decide) (by decide))
      (.cons count (.cons list computesAll_nil))) rfl
      (returns_take items serves.equipped (takes.grown equipped grown) (joins.grown equipped grown))
  -- `drop` gets as much room, though it needs less.
  have second : Computes ev (3 * items.length + 9) own
      (.sexpr [.symbol "drop", .symbol "n", .symbol "l"]) u (.qexpr (items.drop (n.counted items))) :=
    .call (.cons (serves.computes_function (drops.grown equipped grown) (by decide) (by decide))
      (.cons count (.cons list computesAll_nil))) rfl
      ((returns_drop items serves.equipped (drops.grown equipped grown)).mono (by omega))
  -- The list of both is made where they have been computed.
  exact .call (.cons (computes_primitive _) (.cons first (.cons second computesAll_nil))) rfl
    (.of_still fun _ => .of_eq fun _ => rfl)

/-- A number and a list stand for themselves. -/
theorem normal_counting (n : Number) (items : List Value) :
    ∀ t ∈ [Value.number n, .qexpr items], t.isNormal := by
  simp [Value.isNormal, Value.qexpr]

namespace World.Knows

/-- A call of `take` computes the first elements. -/
theorem take (knows : w.Knows scope) (n : Number) (items : List Value) :
    Computes ev (3 * items.length + 9) scope (.sexpr [.symbol "take", .number n, .qexpr items]) w
      (.qexpr (items.take (n.counted items))) := by
  obtain ⟨joiner, joins, _⟩ := knows.provides Library.append (by simp [entries])
  exact knows.call Library.take (by simp [entries]) (normal_counting n items) fun s provides =>
    returns_take items knows.equipped provides joins

/-- A call of `drop` computes the others. -/
theorem drop (knows : w.Knows scope) (n : Number) (items : List Value) :
    Computes ev (3 * items.length + 5) scope (.sexpr [.symbol "drop", .number n, .qexpr items]) w
      (.qexpr (items.drop (n.counted items))) :=
  knows.call Library.drop (by simp [entries]) (normal_counting n items) fun s provides =>
    returns_drop items knows.equipped provides

/-- A call of `split` computes both. -/
theorem split (knows : w.Knows scope) (n : Number) (items : List Value) :
    Computes ev (3 * items.length + 11) scope (.sexpr [.symbol "split", .number n, .qexpr items]) w
      (.qexpr [.qexpr (items.take (n.counted items)), .qexpr (items.drop (n.counted items))]) := by
  obtain ⟨joiner, joins, _⟩ := knows.provides Library.append (by simp [entries])
  obtain ⟨taker, takes, _⟩ := knows.provides Library.take (by simp [entries])
  obtain ⟨dropper, drops, _⟩ := knows.provides Library.drop (by simp [entries])
  exact knows.call Library.split (by simp [entries]) (normal_counting n items) fun s provides =>
    returns_split knows.equipped provides takes drops joins n items

end World.Knows
end QLisp
