import QLisp.Proofs.Number.Whole
import QLisp.Proofs.Program.Computing

/-!
The list functions of the library.

What `append`, `len`, `elem` and `reverse` return is computed by induction on the list, for lists of any
elements. Elements are never evaluated, since lists are only ever the values of names.
-/

namespace QLisp

open Library Run

variable {ev : Nat → Evaluator} [Stepwise ev] {w : World Value} {scope : ScopeId} {f : Function}
  {s : ScopeId} {v x : Value} {a b items : List Value} {n : Nat}

/-- `append` returns both lists in one, also when one is empty. -/
theorem returns_append (equipped : w.Equipped) (provides : w.Provides append s) (a b : List Value) :
    Returns ev 5 scope (append.closure s) [.qexpr a, .qexpr b] w (.qexpr (a ++ b)) := by
  refine returns_function equipped provides (by decide) rfl fun u own grown serves => ?_
  -- The names in the body mean the arguments.
  have first {n : Nat} : Computes ev n own (.symbol "a") u (.qexpr a) := serves.computes rfl (by decide)
  have second {n : Nat} : Computes ev n own (.symbol "b") u (.qexpr b) := serves.computes rfl (by decide)
  have nil {n : Nat} : Computes ev n own (.symbol "nil") u (.qexpr []) := serves.computes_nil (by decide)
  -- Both lists are looked at for being empty before they are joined.
  refine computes_onEmpty first nil ?_
  cases a with
  -- An empty list joined to another gives the other.
  | nil => exact ((second (n := 0)).lone rfl (computes_qexpr b)).mono (by decide)
  | cons v rest =>
    refine computes_onEmpty second nil ?_
    cases b with
    | nil =>
      rw [List.append_nil]
      exact ((first (n := 0)).lone rfl (computes_qexpr _)).mono (by decide)
    | cons v' rest' =>
      refine .call (.cons (computes_primitive _) (.cons first (.cons second computesAll_nil))) rfl
        (.of_still fun _ => ?_)
      -- Two lists that are not empty are put together by the operation.
      have joined : Primitive.join.concatenate [.qexpr (v :: rest), .qexpr (v' :: rest')] =
          .ok (.qexpr (v :: rest ++ v' :: rest')) := by
        show Except.ok (Value.qexpr [v :: rest, v' :: rest'].flatten) = _
        simp
      exact .of_eq fun _ => congrArg (fun result => (Value.ofExcept result, _)) joined

/-- `len` returns the number of elements, as long as it is a number without rounding. -/
theorem returns_len (items : List Value) : ∀ {w : World Value} {scope : ScopeId}, w.Equipped →
    w.Provides len s → items.length ≤ 2 ^ 53 →
    Returns ev (3 * items.length + 3) scope (len.closure s) [.qexpr items] w
      (.number (.ofInt items.length)) := by
  -- The induction is on the list.
  induction items with
  | nil =>
    -- The empty list has length zero.
    intro w scope equipped provides _
    refine returns_function equipped provides (by decide) rfl fun u own grown serves => ?_
    refine computes_onEmpty (serves.computes rfl (by decide)) (serves.computes_nil (by decide)) ?_
    -- The number in the body is evaluated twice, and stays what it is.
    have zero {n : Nat} : Computes ev n own (.number (.ofInt 0)) u (.number (.ofInt 0)) :=
      .of_still fun _ => evaluates_number _
    exact ((zero (n := 0)).lone rfl zero).mono (by decide)
  | cons v rest ih =>
    intro w scope equipped provides small
    rw [List.length_cons] at small
    refine returns_function equipped provides (by decide) rfl fun u own grown serves => ?_
    have list {n : Nat} : Computes ev n own (.symbol "l") u (.qexpr (v :: rest)) :=
      serves.computes rfl (by decide)
    refine computes_onEmpty list (serves.computes_nil (by decide)) ?_
    have there := provides.grown equipped grown
    -- The tail is counted by another call of `len`, and one is added to that.
    have shorter : Computes ev (3 * rest.length + 4) own (.sexpr [.symbol "len", tailOf "l"]) u
        (.number (.ofInt rest.length)) :=
      .call (.cons (serves.computes_function there (by decide) (by decide))
        (.cons (computes_tailOf list) computesAll_nil)) rfl (ih serves.equipped there (by omega))
    refine .call (.cons (computes_primitive _) (.cons (.of_still fun _ => evaluates_number _)
      (.cons shorter computesAll_nil))) rfl (.of_still fun _ => ?_)
    -- Counting further adds one, as long as the number is exact.
    rw [List.length_cons, ← Number.add_one (by omega)]
    exact .of_eq fun _ => rfl

/-- `elem` returns whether some element is the same as a value. -/
theorem returns_elem (fine : x.isError = false) (items : List Value) :
    ∀ {w : World Value} {scope : ScopeId}, w.Equipped → w.Provides elem s →
    Returns ev (3 * items.length + 3) scope (elem.closure s) [x, .qexpr items] w
      (.bool (items.any (x.same ·))) := by
  -- The induction is on the list.
  induction items with
  | nil =>
    intro w scope equipped provides
    refine returns_function equipped provides (by decide) rfl fun u own grown serves => ?_
    refine computes_onEmpty (serves.computes rfl (by decide)) (serves.computes_nil (by decide)) ?_
    -- Nothing is in the empty list.
    have no {n : Nat} : Computes ev n own (.bool false) u (.bool false) :=
      .of_still fun _ => evaluates_bool _
    exact ((no (n := 0)).lone rfl no).mono (by decide)
  | cons v rest ih =>
    intro w scope equipped provides
    refine returns_function equipped provides (by decide) rfl fun u own grown serves => ?_
    have there := provides.grown equipped grown
    have value {n : Nat} : Computes ev n own (.symbol "x") u x := serves.computes rfl (by decide)
    have list {n : Nat} : Computes ev n own (.symbol "l") u (.qexpr (v :: rest)) :=
      serves.computes rfl (by decide)
    refine computes_onEmpty list (serves.computes_nil (by decide)) ?_
    -- The value and the first element are compared as lists of one element.
    have wrapped : Computes ev 1 own (.sexpr [.primitive .list, .symbol "x"]) u (.qexpr [x]) :=
      .call (.cons (computes_primitive _) (.cons value computesAll_nil)) (by simp [fine])
        (.of_still fun _ => .of_eq fun _ => rfl)
    have test : Computes ev 2 own (.sexpr [.primitive .equal, .sexpr [.primitive .list, .symbol "x"],
        .sexpr [.primitive .head, .symbol "l"]]) u (.bool (x.same v)) := by
      refine .call (.cons (computes_primitive _) (.cons wrapped
        (.cons (computes_headOf list) computesAll_nil))) rfl (.of_still fun _ => ?_)
      have same : (Value.qexpr [x]).same (.qexpr [v]) = x.same v := by
        simp [Value.qexpr, Value.same, Value.sameAll]
      rw [← same]
      exact applies_equal _ _
    -- Otherwise it is asked whether the value is among the others.
    have branch : Computes ev (3 * rest.length + 4) own
        (.sexpr (if x.same v then [.bool true] else [.symbol "elem", .symbol "x", tailOf "l"])) u
        (.bool ((v :: rest).any (x.same ·))) := by
      rw [List.any_cons]
      -- The answer is known at the first element that is the same; the others are not looked at.
      by_cases same : x.same v
      · have yes {n : Nat} : Computes ev n own (.bool true) u (.bool true) :=
          .of_still fun _ => evaluates_bool _
        rw [if_pos same, same, Bool.true_or]
        exact ((yes (n := 0)).lone rfl yes).mono (by omega)
      · rw [if_neg same, Bool.eq_false_iff.mpr same, Bool.false_or]
        exact .call (.cons (serves.computes_function there (by decide) (by decide))
          (.cons value (.cons (computes_tailOf list) computesAll_nil))) (by simp [fine])
          (ih serves.equipped there)
    -- The test needs less room than the branch may.
    have roomy : Computes ev (3 * rest.length + 4) own _ u _ := test.mono (by omega)
    refine .call (.cons (computes_primitive _) (.cons roomy (.cons (computes_qexpr _)
      (.cons (computes_qexpr _) computesAll_nil)))) rfl (returns_cond ?_ branch)
    cases x.same v <;> rfl

/-- `reverse` returns the list the other way round. -/
theorem returns_reverse {joiner : ScopeId} (items : List Value) :
    ∀ {w : World Value} {scope : ScopeId}, w.Equipped → w.Provides reverse s →
    w.Provides append joiner →
    Returns ev (3 * items.length + 7) scope (reverse.closure s) [.qexpr items] w
      (.qexpr items.reverse) := by
  -- The induction is on the list.
  induction items with
  | nil =>
    intro w scope equipped provides _
    refine returns_function equipped provides (by decide) rfl fun u own grown serves => ?_
    -- The empty list turned round is itself.
    have nil {n : Nat} : Computes ev n own (.symbol "nil") u (.qexpr []) := serves.computes_nil (by decide)
    refine computes_onEmpty (serves.computes rfl (by decide)) nil ?_
    exact ((nil (n := 0)).lone rfl (computes_qexpr _)).mono (by decide)
  | cons v rest ih =>
    intro w scope equipped provides joins
    refine returns_function equipped provides (by decide) rfl fun u own grown serves => ?_
    have there := provides.grown equipped grown
    have joined := joins.grown equipped grown
    have list {n : Nat} : Computes ev n own (.symbol "l") u (.qexpr (v :: rest)) :=
      serves.computes rfl (by decide)
    refine computes_onEmpty list (serves.computes_nil (by decide)) ?_
    -- The tail is turned round first, and the first element is put after it.
    have shorter : Computes ev (3 * rest.length + 8) own (.sexpr [.symbol "reverse", tailOf "l"]) u
        (.qexpr rest.reverse) :=
      .call (.cons (serves.computes_function there (by decide) (by decide))
        (.cons (computes_tailOf list) computesAll_nil)) rfl (ih serves.equipped there joined)
    rw [List.reverse_cons]
    exact .call (.cons (serves.computes_function joined (by decide) (by decide))
      (.cons shorter (.cons (computes_headOf list) computesAll_nil))) rfl
      ((returns_append serves.equipped joined _ _).mono (by omega))

namespace World.Knows

/-- A call of `append` computes the concatenation. -/
theorem append (knows : w.Knows scope) (a b : List Value) :
    Computes ev 6 scope (.sexpr [.symbol "append", .qexpr a, .qexpr b]) w (.qexpr (a ++ b)) := by
  refine knows.call Library.append (by simp [entries]) (by simp [Value.isNormal, Value.qexpr]) ?_
  exact fun s provides => returns_append knows.equipped provides a b

/-- A call of `reverse` computes the list the other way round. -/
theorem reverse (knows : w.Knows scope) {t : Value}
    (computes : Computes ev n scope t w (.qexpr items)) (roomy : 3 * items.length + 7 ≤ n) :
    Computes ev (n + 1) scope (.sexpr [.symbol "reverse", t]) w (.qexpr items.reverse) := by
  obtain ⟨s, provides, named⟩ := knows.computes Library.reverse (by simp [entries])
  obtain ⟨joiner, joins, _⟩ := knows.computes Library.append (by simp [entries])
  exact .call (.cons (named ev _) (.cons computes computesAll_nil)) rfl
    ((returns_reverse items knows.equipped provides joins).mono roomy)

/-- A call of `len` computes the number of elements. -/
theorem len (knows : w.Knows scope) (small : items.length ≤ 2 ^ 53) :
    Computes ev (3 * items.length + 4) scope (.sexpr [.symbol "len", .qexpr items]) w
      (.number (.ofInt items.length)) := by
  refine knows.call Library.len (by simp [entries]) (List.forall_mem_singleton.mpr rfl) ?_
  exact fun s provides => returns_len items knows.equipped provides small

/-- A call of `elem` computes whether some element is the same as a normal value. -/
theorem elem (knows : w.Knows scope) (normal : x.isNormal) (items : List Value) :
    Computes ev (3 * items.length + 4) scope (.sexpr [.symbol "elem", x, .qexpr items]) w
      (.bool (items.any (x.same ·))) := by
  refine knows.call Library.elem (by simp [entries])
    (List.forall_mem_cons.mpr ⟨normal, List.forall_mem_singleton.mpr rfl⟩) ?_
  exact fun s provides => returns_elem (Value.isError_of_isNormal normal) items knows.equipped provides

end World.Knows
end QLisp
