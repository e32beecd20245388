import QLisp.Proofs.BigStep
import QLisp.Proofs.Framing
import QLisp.Proofs.Resuming
import QLisp.Proofs.Settling

/-!
Calls of a function, one after the other.

A function may be called on the elements of a list in turn, or on the result so far and the elements in
turn. Scopes that are made between the calls make no difference to what the calls do.
-/

namespace QLisp

namespace Value

variable {rel : FailureRel} {link : ScopeRel} {v v' : Value}

/-- Values that are related to quoted lists of symbols are such lists. -/
theorem Related.isNames (related : Related rel link v v') : v.isNames = v'.isNames := by
  cases related with
  | @list kind items items' inside =>
    cases kind with
    | sexpr => rfl
    | qexpr =>
      -- A quoted list is one of names when each of its elements is a symbol.
      show items.all (·.kind = .symbol) = items'.all (·.kind = .symbol)
      have each := relatedAll_iff.mp inside
      -- Only the kinds of the elements count, and those are the same.
      induction each with
      | nil => rfl
      | cons head _ ih =>
        cases inside with
        | cons _ tail => rw [List.all_cons, List.all_cons, head.kind, ih tail]
  | _ => rfl

/-- Values that are related to quoted lists are such lists. -/
theorem Related.isQuoted (related : Related rel link v v') : v.isQuoted = v'.isQuoted := by
  cases related with
  | list kind inside => cases kind <;> rfl
  | _ => rfl

/-- Values that are related to normal ones are normal. -/
theorem Related.isNormal (related : Related rel link v v') : v.isNormal = v'.isNormal := by
  cases related with
  | lambda formal bodied _ =>
    show (_ && _) = (_ && _)
    rw [formal.isNames, bodied.isQuoted]
  | list kind inside =>
    -- A list in brackets is normal when it is empty, and both are or neither is.
    cases kind with
    | sexpr => cases inside <;> rfl
    | qexpr => rfl
  | _ => rfl

end Value

namespace Run

variable {base u u' u₁ x : World Value} {c : Comparison} {room : Nat} {scope : ScopeId} {f z t : Value}
  {l vs rest first : List Value}

/--
A function is called on the elements of a list in turn, whatever the calls before have given.

In between, scopes may be made.
-/
inductive Visits (room : Nat) (scope : ScopeId) (f : Value) :
    List Value → World Value → List Value → World Value → Prop where
  /-- No element is left. -/
  | none {u x : World Value} (grown : u.Grown x) : Visits room scope f [] u [] x
  /-- The function is called on the first element, and then on the others. -/
  | next {u u₁ u₂ x : World Value} {e v : Value} {rest vs : List Value} (grown : u.Grown u₁)
      (called : call (eval room) scope f [e] u₁ = (v, u₂))
      (others : Visits room scope f rest u₂ vs x) : Visits room scope f (e :: rest) u (v :: vs) x

/--
A function is called on the result so far and the elements of a list in turn, until it gives an error.

In between, scopes may be made.
-/
inductive Combines (room : Nat) (scope : ScopeId) (f : Value) :
    Value → List Value → World Value → Value → World Value → Prop where
  /-- No element is left. -/
  | none {u x : World Value} (z : Value) (grown : u.Grown x) : Combines room scope f z [] u z x
  /-- The first call gives an error, and there are no others. -/
  | stop {u u₁ u₂ x : World Value} {z e v : Value} (rest : List Value) (grown : u.Grown u₁)
      (called : call (eval room) scope f [z, e] u₁ = (v, u₂)) (failed : v.isError)
      (after : u₂.Grown x) : Combines room scope f z (e :: rest) u v x
  /-- The first call gives a value, with which the others go on. -/
  | next {u u₁ u₂ x : World Value} {z e v t : Value} {rest : List Value} (grown : u.Grown u₁)
      (called : call (eval room) scope f [z, e] u₁ = (v, u₂)) (fine : v.isError = false)
      (others : Combines room scope f v rest u₂ t x) : Combines room scope f z (e :: rest) u t x

/-- Scopes may also be made at the end. -/
theorem Visits.grown (visits : Visits room scope f l u vs u₁) (grown : u₁.Grown x) :
    Visits room scope f l u vs x := by
  induction visits with
  | none before => exact .none (before.trans grown)
  | next before called _ ih => exact .next before called (ih grown)

/-- There are as many results as elements. -/
theorem Visits.length (visits : Visits room scope f l u vs x) : vs.length = l.length := by
  induction visits with
  | none => rfl
  | next _ _ _ ih => rw [List.length_cons, List.length_cons, ih]

/-- Evaluates a call on the result so far and each element in turn, until one gives an error. -/
def combine (ev : Evaluator) (scope : ScopeId) (f : Value) : Value → List Value → Run Value
  | z, [] => return z
  | z, e :: rest => do
    let v ← ev scope (.sexpr [f, z, e])
    if v.isError then return v
    combine ev scope f v rest

/-- The first call tells whether others follow. -/
theorem combine_cons (ev : Evaluator) (scope : ScopeId) (f z e : Value) (rest : List Value)
    (w : World Value) : combine ev scope f z (e :: rest) w =
      let first := ev scope (.sexpr [f, z, e]) w
      if first.1.isError then first else combine ev scope f first.1 rest first.2 := by
  show (if (ev scope (.sexpr [f, z, e]) w).1.isError then pure (ev scope (.sexpr [f, z, e]) w).1
    else combine ev scope f (ev scope (.sexpr [f, z, e]) w).1 rest : Run Value)
      (ev scope (.sexpr [f, z, e]) w).2 = _
  by_cases failed : (ev scope (.sexpr [f, z, e]) w).1.isError
  · simp only [if_pos failed]
    rfl
  · simp only [if_neg failed]

/-! ### Calls as expressions -/

/-- A list of normal values in round brackets is a call. -/
theorem eval_application {operator argument : Value}
    (normal : ∀ v ∈ operator :: argument :: rest, v.isNormal) (positive : 0 < room) :
    eval (room + 1) scope (.sexpr (operator :: argument :: rest)) u =
      call (eval room) scope operator (argument :: rest) u := by
  refine reduce_call (evaluatesAll_normal normal room positive) (List.find?_eq_none.mpr fun v member => ?_)
  simp [Value.isError_of_isNormal (normal v member)]

/-! ### Calls in worlds that started as one -/

/-- Calls on the elements of a list do what evaluating them as expressions does. -/
theorem Visits.abreast (visits : Visits room scope f l u vs x) (positive : 0 < room)
    (function : f.isNormal ∧ Closed base.scopes f) (made : base.scopes.Made scope)
    (elements : ∀ e ∈ l, e.isNormal ∧ Closed base.scopes e) (abreast : base.Abreast c u u') :
    let outcome := each (eval (room + 1)) scope (l.map fun e => .sexpr [f, e]) u'
    ∃ c', base.Abreast c' x outcome.2 ∧ c.Wider u c' x ∧
      List.Forall₂ (c'.values x.scopes) vs outcome.1 := by
  -- The induction is on the calls; the comparison changes with each of them.
  induction visits generalizing c u' with
  | none grown =>
    obtain ⟨c', abreast', wider⟩ := abreast.grown grown
    exact ⟨c', abreast', wider, .nil⟩
  | @next u u₁ u₂ x e v rest vs grown called others ih =>
    -- The element is normal and closed, so it corresponds to itself.
    obtain ⟨normal, closed⟩ := elements e List.mem_cons_self
    obtain ⟨c₁, abreast₁, wider₁⟩ := abreast.grown grown
    -- The call is made on both sides, with values that correspond.
    obtain ⟨abreast₂, wider₂, values⟩ := abreast₁.call function.2 made
      (.cons (abreast₁.closed closed) .nil) room
    rw [called] at abreast₂ wider₂ values
    obtain ⟨c', abreast', wider', results⟩ := ih (fun e member => elements e (List.mem_cons_of_mem _ member))
      abreast₂
    -- An application is evaluated by the call, since everything in it is normal.
    have first : eval (room + 1) scope (.sexpr [f, e]) u' = call (eval room) scope f [e] u' :=
      eval_application (by simp [function.1, normal]) positive
    rw [List.map_cons, each_cons, first]
    exact ⟨c', abreast', wider₁.trans (wider₂.trans wider'), .cons (wider'.value values) results⟩

/-- What combining on one side gives is what combining on the other side does. -/
theorem Combines.abreast (combines : Combines room scope f z l u t x) (positive : 0 < room)
    (function : f.Regular ∧ f.isNormal ∧ Closed base.scopes f) (made : base.scopes.Made scope)
    (elements : ∀ e ∈ l, e.Regular ∧ e.isNormal ∧ Closed base.scopes e) (tidy : u'.Tidy) {z' : Value}
    (start : z'.Regular ∧ z'.isNormal) (values : c.values u.scopes z z')
    (abreast : base.Abreast c u u') :
    let outcome := combine (eval (room + 1)) scope f z' l u'
    ∃ c', base.Abreast c' x outcome.2 ∧ c'.values x.scopes t outcome.1 ∧ outcome.1.Settled := by
  -- What a call gives is normal or an error, so the next one is given what it has to be given.
  have step {z' e : Value} {u' : World Value} (tidy : u'.Tidy) (start : z'.Regular ∧ z'.isNormal)
      (element : e.Regular ∧ e.isNormal ∧ Closed base.scopes e) :
      eval (room + 1) scope (.sexpr [f, z', e]) u' = call (eval room) scope f [z', e] u' ∧
        (call (eval room) scope f [z', e] u').2.Tidy ∧ (call (eval room) scope f [z', e] u').1.Settled := by
    -- The evaluator and the one that tells of its calls go the same way.
    have keeps : Keeps u' (call (eval room) scope f [z', e])
        (call (evalVia call room) scope f [z', e]) Value.Settled :=
      keeps_call (settles_eval agrees_call room) tidy function.1 (by simp [start, element])
    exact ⟨eval_application (by simp [function, start, element]) positive, keeps.tidy, keeps.good⟩
  -- The induction is on the calls that were combined, which are made on both sides.
  induction combines generalizing c u' z' with
  | none z grown =>
    obtain ⟨c', abreast', wider⟩ := abreast.grown grown
    exact ⟨c', abreast', wider.value values, start.1, .inl start.2⟩
  | @stop u u₁ u₂ x z e v rest grown called failed after =>
    obtain ⟨c₁, abreast₁, wider₁⟩ := abreast.grown grown
    -- The call is made on the other side with values that correspond.
    obtain ⟨abreast₂, _, result⟩ := abreast₁.call function.2.2 made (.cons (wider₁.value values)
      (.cons (abreast₁.closed (elements e List.mem_cons_self).2.2) .nil)) room
    rw [called] at abreast₂ result
    obtain ⟨first, _, settled⟩ := step tidy start (elements e List.mem_cons_self)
    obtain ⟨c', abreast', wider'⟩ := abreast₂.grown after
    -- The failure is the result, so the other elements are not combined.
    have ends : combine (eval (room + 1)) scope f z' (e :: rest) u' =
        call (eval room) scope f [z', e] u' := by
      rw [combine_cons, first, if_pos (result.isError ▸ failed)]
    rw [ends]
    exact ⟨c', abreast', wider'.value result, settled⟩
  | @next u u₁ u₂ x z e v t rest grown called fine others ih =>
    obtain ⟨c₁, abreast₁, wider₁⟩ := abreast.grown grown
    obtain ⟨abreast₂, _, result⟩ := abreast₁.call function.2.2 made (.cons (wider₁.value values)
      (.cons (abreast₁.closed (elements e List.mem_cons_self).2.2) .nil)) room
    rw [called] at abreast₂ result
    obtain ⟨first, tidy₂, settled⟩ := step tidy start (elements e List.mem_cons_self)
    have good : (call (eval room) scope f [z', e] u').1.isError = false := result.isError ▸ fine
    rw [combine_cons, first, if_neg (by simp [good])]
    -- It is no error, so it is normal and the induction goes on with it.
    refine ih (fun e member => elements e (List.mem_cons_of_mem _ member)) tidy₂ ?_ result abreast₂
    exact ⟨settled.regular, settled.final.resolve_right (by simp [good])⟩

end Run
end QLisp
