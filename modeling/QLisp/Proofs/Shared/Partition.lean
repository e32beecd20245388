import QLisp.Proofs.Program.Partition
import QLisp.Proofs.Shared.Library

/-!
Taking a list apart, in place.

What `take`, `drop` and `split` compute on values their calls evaluate to, while the names of the library
mean what they did at first.
-/

namespace QLisp.Shared

open Library Run

variable {m : Machine} {files : Files}

/--
`take`, `drop` and `split` take a list apart, whatever the number.

After any requests to a session, let the names of the library be bound globally as they were at first
and mean that in a scope. Then, unless a reduction is refused, what `take` and `drop` give for a number
and a list of any elements is together the list, and `split` gives the list of the two. The number may be
negative, have a fraction, be larger than the list or than any integer that is exact, be infinite, or be
none at all. If it is an integer from zero up to 2^53, as many elements are taken, or all. The elements
are not evaluated: nothing is printed, no file is asked for, and no scope that there was changes.
-/
theorem partition_functions (files : Files) (requests : List Request) :
    ∃ m, requests.forM Act.perform (Machine.standard files) = .ok () m ∧
      ∀ (depth : Nat) (scope : ScopeId), m.world.scopes.Made scope → m.KeepsLibrary files scope →
        let here := { m with depth := depth }
        let Finds := fun t v => t.Obeys here.lives → here.HasRoom scope t → here.Finds scope t v
        ∀ n l, ∃ a b, a ++ b = l ∧
          Finds (.sexpr [.symbol "take", .number n, .qexpr l]) (.qexpr a) ∧
          Finds (.sexpr [.symbol "drop", .number n, .qexpr l]) (.qexpr b) ∧
          Finds (.sexpr [.symbol "split", .number n, .qexpr l]) (.qexpr [.qexpr a, .qexpr b]) ∧
          ∀ k < 2 ^ 53, n.equal (.ofInt (k : Nat)) → a.length = min k l.length := by
  -- The functions are computed in the world that the machine mirrors.
  obtain ⟨m, store, w, ran, mirrors, _, _, known⟩ := session_knows files requests
  refine ⟨m, ran, fun depth scope made keeps => ?_⟩
  intro here Finds n l
  have knows := known scope made keeps
  have mirrored : Mirrors True (fun _ => True) store here w := mirrors.atDepth _
  have finds {t v : Value} {enough : Nat} (computes : Computes eval enough scope t w v) : Finds t v :=
    fun lives allowed => mirrored.finds made lives allowed computes
  refine ⟨l.take (n.counted l), l.drop (n.counted l), List.take_append_drop _ _, finds (knows.take n l),
    finds (knows.drop n l), finds (knows.split n l), fun k small equal => ?_⟩
  -- A number that is equal to an integer counts off as many elements.
  rw [Number.counted_eq equal small, List.length_take, Nat.min_eq_left (Nat.min_le_right _ _)]

/-- Two elements are taken of a symbol, an expression that would fail and an error, and none by no number. -/
theorem partition_functions_mixed :
    let l : List Value := [.symbol "a", .sexpr [.symbol "b"], .error .divisionByZero]
    let call (name : String) (n : Number) : Value := .sexpr [.symbol name, .number n, .qexpr l]
    ∃ m, [Request.limit 50].forM Act.perform (Machine.standard fun _ => .error .missing) = .ok () m ∧
      let Finds := Machine.Finds { m with depth := 0 } Scopes.global
      (∃ a b, a ++ b = l ∧ a.length = 2 ∧ Finds (call "take" (.ofInt 2)) (.qexpr a) ∧
        Finds (call "drop" (.ofInt 2)) (.qexpr b) ∧
        Finds (call "split" (.ofInt 2)) (.qexpr [.qexpr a, .qexpr b])) ∧
      ∃ a b, a ++ b = l ∧ Finds (call "take" .nan) (.qexpr a) ∧ Finds (call "drop" .nan) (.qexpr b) ∧
        Finds (call "split" .nan) (.qexpr [.qexpr a, .qexpr b]) := by
  intro l call
  let files : Files := fun _ => .error .missing
  obtain ⟨m, ran, right⟩ := partition_functions files [.limit 50]
  obtain ⟨store, w, mirrors, _, knows, keeps, limit⟩ := limit_keeps (by decide) (by decide) ran
  -- No function is in the expressions, and there is room for more reductions than they need.
  have idle := mirrors.atDepth 0
  have lives (name : String) (n : Number) : (call name n).Obeys (Machine.lives { m with depth := 0 }) := by
    simp [Value.Obeys, Value.ObeyAll, Value.sexpr, Value.qexpr, l, call]
  have room {name : String} {n : Number} {v : Value} {k : Nat} (few : k ≤ 50)
      (computes : ∀ (ev : Nat → QLisp.Evaluator) [Stepwise ev],
        Computes ev k Scopes.global (call name n) w v) :
      Machine.HasRoom { m with depth := 0 } Scopes.global (call name n) :=
    idle.hasRoom mirrors.global (lives name n) (limit ▸ few) computes
  -- The two numbers are looked at in turn.
  have parts (n : Number) := right 0 Scopes.global mirrors.global keeps n l
  refine ⟨m, ran, ?_, ?_⟩
  -- With a count of two, both halves and the list of them are computed.
  · obtain ⟨a, b, whole, taken, dropped, both, count⟩ := parts (.ofInt 2)
    refine ⟨a, b, whole, count 2 (by decide) (Number.equal_ofInt (by decide)), ?_, ?_, ?_⟩
    · exact taken (lives _ _) (room (by decide) fun ev _ => knows.take _ l)
    · exact dropped (lives _ _) (room (by decide) fun ev _ => knows.drop _ l)
    · exact both (lives _ _) (room (by decide) fun ev _ => knows.split _ l)
  · obtain ⟨a, b, whole, taken, dropped, both, _⟩ := parts .nan
    refine ⟨a, b, whole, ?_, ?_, ?_⟩
    · exact taken (lives _ _) (room (by decide) fun ev _ => knows.take _ l)
    · exact dropped (lives _ _) (room (by decide) fun ev _ => knows.drop _ l)
    · exact both (lives _ _) (room (by decide) fun ev _ => knows.split _ l)

end QLisp.Shared
