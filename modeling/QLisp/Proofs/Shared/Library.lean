import QLisp.Proofs.Program.Lists
import QLisp.Proofs.Shared.Refusal
import QLisp.Proofs.Shared.Session

/-!
The library in place.

While the names of the library mean what they did at first, calls of its functions evaluate to what the
functions compute on values. Nothing that there was is changed by a computation, and nothing is printed.
-/

namespace QLisp.Shared

open Library Run

variable {mine store : CellId → Prop} {m m' : Machine} {w w' : World Value} {scope s : ScopeId}
  {t v x : Value} {f : Function} {enough n : Nat} {a b items : List Value} {files : Files}

/-- The names of the library are bound globally as they were at first, and mean that in a scope. -/
def Machine.KeepsLibrary (files : Files) (m : Machine) (scope : ScopeId) : Prop :=
  ∀ name ∈ Library.names,
    m.binding? Scopes.global name = (Machine.standard files).binding? Scopes.global name ∧
      m.meaning? scope name = (Machine.standard files).binding? Scopes.global name

/--
An expression evaluates to a value.

It prints nothing and asks for no file, and every scope that there was stays as it is.
-/
def Machine.Finds (m : Machine) (scope : ScopeId) (t result : Value) : Prop :=
  ∃ v m', Act.evaluateFresh scope t m = .ok v m' ∧ m'.heap.view v = result ∧
    m'.world.output = m.world.output ∧ m'.world.asked = m.world.asked ∧ m.Frames (fun _ => False) m'

/-- A machine that mirrors a world that has grown has the scopes that there were as they were. -/
theorem Mirrors.frames_grown {mine' store' : CellId → Prop} (mirrors : Mirrors True mine store m w)
    (mirrors' : Mirrors True mine' store' m' w') (grown : w.Grown w') : m.Frames (fun _ => False) m' where
  made _ made := mirrors'.made.mp (grown.made (mirrors.made.mpr made))
  parents id made := by
    rw [mirrors.parent?, mirrors'.parent?]
    exact grown.kept.parent? id (mirrors.made.mpr made)
  bindings id made _ name := by
    rw [mirrors.binding?, mirrors'.binding?]
    exact grown.kept.local? id name (mirrors.made.mpr made)

/-- Where there is room, an expression evaluates to what it evaluates to with room enough. -/
theorem Mirrors.evaluates (mirrors : Mirrors True (fun _ => True) store m w)
    (made : m.world.scopes.Made scope) (lives : t.Obeys m.lives) (allowed : m.HasRoom scope t)
    (evaluates : Evaluates eval enough scope t w v w') :
    ∃ result m' store', Act.evaluateFresh scope t m = .ok result m' ∧ m'.heap.view result = v ∧
      Mirrors True (fun _ => True) store' m' w' ∧ m'.depth = m.depth := by
  obtain ⟨path, result, m', store', ran, quiet, mirrors', moves, ids, holds, free⟩ :=
    mirrors.quiet made lives allowed
  rw [evaluates.noting quiet] at mirrors' holds
  exact ⟨result, m', store', ran, (free.stands holds).view, mirrors', moves.depth⟩

/-- Where there is room, an expression evaluates to what it computes. -/
theorem Mirrors.finds (mirrors : Mirrors True (fun _ => True) store m w)
    (made : m.world.scopes.Made scope) (lives : t.Obeys m.lives) (allowed : m.HasRoom scope t)
    (computes : Computes eval enough scope t w v) : m.Finds scope t v := by
  obtain ⟨w', grown, evaluates⟩ := computes w (.refl w)
  obtain ⟨result, m', _, ran, view, mirrors', _⟩ := mirrors.evaluates made lives allowed evaluates
  refine ⟨result, m', ran, view, ?_, ?_, mirrors.frames_grown mirrors' grown⟩
  · rw [mirrors.output, mirrors'.output, grown.output]
  · rw [mirrors.asked, mirrors'.asked, grown.asked]

/-- A machine has room for what evaluates with as much, however it does so. -/
theorem Mirrors.hasRoom_of_evaluates (mirrors : Mirrors True mine store m w)
    (made : m.world.scopes.Made scope) (lives : t.Obeys m.lives) (roomy : enough ≤ m.world.limit - m.depth)
    {paths : List Text.Bytes} (evaluates : ∀ (ev : Nat → QLisp.Evaluator) [Stepwise ev],
      ∃ v w', w'.asked = paths ∧ Evaluates ev enough scope t w v w') : m.HasRoom scope t := by
  intro path asked
  -- Either evaluation asks for the same paths.
  obtain ⟨_, _, _, ran, mirrors', _, _⟩ := (Act.follows_evaluateFresh mirrors made lives).ok
  obtain ⟨_, _, _, noting, mirrors₁, _, _⟩ :=
    (Act.follows_evaluateFreshWarned mirrors made lives path).ok
  obtain ⟨v, w', same, plain⟩ := evaluates eval
  obtain ⟨v₁, w₁, same₁, noted⟩ := evaluates (evalNoting path)
  have here : eval (m.world.limit - m.depth) scope t w = (v, w') := plain _ roomy
  have there : evalNoting path (m.world.limit - m.depth) scope t w = (v₁, w₁) := noted _ roomy
  rw [Act.after, noting, mirrors₁.asked, there, same₁] at asked
  rwa [Act.after, ran, mirrors'.asked, here, same]

/-- A machine has room for what is computed with as much. -/
theorem Mirrors.hasRoom (mirrors : Mirrors True mine store m w) (made : m.world.scopes.Made scope)
    (lives : t.Obeys m.lives) (roomy : enough ≤ m.world.limit - m.depth)
    (computes : ∀ (ev : Nat → QLisp.Evaluator) [Stepwise ev], Computes ev enough scope t w v) :
    m.HasRoom scope t :=
  mirrors.hasRoom_of_evaluates made lives roomy fun ev _ =>
    let ⟨w', grown, evaluates⟩ := computes ev w (.refl w)
    ⟨v, w', grown.asked, evaluates⟩

/-- What the library binds in the machine that a program starts on is what it binds in its world. -/
theorem standard_binding? (files : Files) (id : ScopeId) (name : String) :
    (Machine.standard files).binding? id name = (World.standard files).scopes.local? id name := by
  obtain ⟨_, _, mirrors, _⟩ := mirrors_standard files
  exact mirrors.binding? id name

/-- Where the names of the library mean what they did, the library is known. -/
theorem Machine.KeepsLibrary.knows (keeps : m.KeepsLibrary files scope)
    (made : m.world.scopes.Made scope) (mirrors : Mirrors True mine store m w) (rooted : w.Rooted)
    (spares : (World.standard files).scopes.Spares (· = Scopes.global) w.scopes) : w.Knows scope where
  equipped := by
    refine World.Furnished.equipped ?_ rooted
    -- The names of the library are bound in the global scope as they were in the standard world.
    refine (World.furnished_standard files).kept (World.rooted_standard files).ordered spares.below
      fun name member => ?_
    rw [← mirrors.binding?, (keeps name member).1, standard_binding?]
  made := mirrors.made.mpr made
  sees name member := by
    rw [← mirrors.meaning?, (keeps name member).2, ← (keeps name member).1, mirrors.binding?]

/-- After any requests to a session the library is known wherever its names mean what they did. -/
theorem session_knows (files : Files) (requests : List Request) :
    ∃ m store w, requests.forM Act.perform (Machine.standard files) = .ok () m ∧
      Mirrors True (fun _ => True) store m w ∧ w.Rooted ∧ w.Tidy ∧
      ∀ scope, m.world.scopes.Made scope → m.KeepsLibrary files scope → w.Knows scope := by
  obtain ⟨m, store, ran, mirrors⟩ := session_mirrors files requests
  have rooted := (World.rooted_standard files).session requests
  have tidy := (World.tidy_standard files).session requests
  have spares := (World.rooted_standard files).spares_session requests
  exact ⟨m, store, _, ran, mirrors, rooted, tidy, fun scope made keeps =>
    keeps.knows made mirrors rooted spares⟩

/--
The list functions of the library are right about lists of any elements.

After any requests to a session, let the names of the library be bound globally as they were at first
and mean that in a scope. Then, unless a reduction is refused, `append` gives the concatenation of two
lists, `reverse` gives a list the other way round, so that the list itself is given when it is reversed
twice, `len` gives the number of elements below 2^53, and `elem` tells whether an element is the same as
a normal value. The elements may be anything, and are not evaluated: nothing is printed, no file is
asked for, and no scope that there was changes.
-/
theorem list_functions (files : Files) (requests : List Request) :
    ∃ m, requests.forM Act.perform (Machine.standard files) = .ok () m ∧
      ∀ (depth : Nat) (scope : ScopeId), m.world.scopes.Made scope → m.KeepsLibrary files scope →
        let here := { m with depth := depth }
        let Finds := fun t v => t.Obeys here.lives → here.HasRoom scope t → here.Finds scope t v
        (∀ a b, Finds (.sexpr [.symbol "append", .qexpr a, .qexpr b]) (.qexpr (a ++ b))) ∧
        (∀ l, Finds (.sexpr [.symbol "reverse", .qexpr l]) (.qexpr l.reverse)) ∧
        (∀ l, Finds (.sexpr [.symbol "reverse", .sexpr [.symbol "reverse", .qexpr l]]) (.qexpr l)) ∧
        (∀ l, l.length < 2 ^ 53 →
          Finds (.sexpr [.symbol "len", .qexpr l]) (.number (.ofInt l.length))) ∧
        ∀ x l, x.isNormal → Finds (.sexpr [.symbol "elem", x, .qexpr l]) (.bool (l.any (x.same ·))) := by
  -- The functions are computed in the world that the machine mirrors.
  obtain ⟨m, store, w, ran, mirrors, _, _, known⟩ := session_knows files requests
  refine ⟨m, ran, fun depth scope made keeps => ?_⟩
  intro here Finds
  have knows := known scope made keeps
  have mirrored : Mirrors True (fun _ => True) store here w := mirrors.atDepth _
  have finds {t v : Value} {enough : Nat} (computes : Computes eval enough scope t w v) : Finds t v :=
    fun lives allowed => mirrored.finds made lives allowed computes
  have reversed (l : List Value) : Computes eval (3 * l.length + 8) scope
      (.sexpr [.symbol "reverse", .qexpr l]) w (.qexpr l.reverse) :=
    knows.reverse (computes_qexpr l) (Nat.le_refl _)
  refine ⟨fun a b => finds (knows.append a b), fun l => finds (reversed l), fun l => ?_,
    fun l small => finds (knows.len small.le), fun x l normal => finds (knows.elem normal l)⟩
  -- The list that is reversed once is a list again, of the same length.
  have twice := knows.reverse (reversed l) (by simp)
  rw [List.reverse_reverse] at twice
  exact finds twice

/-- With nothing but a limit set, the library is in place. -/
theorem limit_keeps (positive : 0 < n) (few : n ≤ World.noLimit)
    (ran : [Request.limit n].forM Act.perform (Machine.standard files) = .ok () m) :
    ∃ store w, Mirrors True (fun _ => True) store m w ∧ w.Rooted ∧ w.Knows Scopes.global ∧
      m.KeepsLibrary files Scopes.global ∧ m.world.limit = n := by
  obtain ⟨m', store, w, ran', mirrors, rooted, _, knows⟩ := session_knows files [.limit n]
  obtain rfl : m = m' := by
    injection ran.symm.trans ran'
  -- Setting a limit leaves every binding as it was.
  obtain ⟨limit, same⟩ := limit_ran positive few ran
  have keeps : m.KeepsLibrary files Scopes.global := by
    refine fun name _ => ⟨same _ name, ?_⟩
    rw [← same, mirrors.meaning?, mirrors.binding?, rooted.lookup?_global]
  exact ⟨store, w, mirrors, rooted, knows _ mirrors.global keeps, keeps, limit⟩

/-- A list of a symbol, an expression that would fail, and an error. -/
theorem list_functions_mixed :
    let l : List Value := [.symbol "a", .sexpr [.symbol "b"], .error .divisionByZero]
    ∃ m, [Request.limit 50].forM Act.perform (Machine.standard fun _ => .error .missing) = .ok () m ∧
      let Finds := Machine.Finds { m with depth := 0 } Scopes.global
      Finds (.sexpr [.symbol "append", .qexpr l, .qexpr []]) (.qexpr l) ∧
      Finds (.sexpr [.symbol "reverse", .qexpr l]) (.qexpr l.reverse) ∧
      Finds (.sexpr [.symbol "reverse", .sexpr [.symbol "reverse", .qexpr l]]) (.qexpr l) ∧
      Finds (.sexpr [.symbol "len", .qexpr l]) (.number (.ofInt 3)) ∧
      Finds (.sexpr [.symbol "elem", .string (Text.encode "a"), .qexpr l]) (.bool false) := by
  intro l
  let files : Files := fun _ => .error .missing
  obtain ⟨m, ran, right⟩ := list_functions files [.limit 50]
  -- The session sets a limit and leaves the library in place.
  obtain ⟨store, w, mirrors, _, knows, keeps, limit⟩ := limit_keeps (by decide) (by decide) ran
  obtain ⟨append, reverse, twice, len, elem⟩ := right 0 Scopes.global mirrors.global keeps
  -- No function is in the expressions, and there is room for more reductions than they need.
  have idle := mirrors.atDepth 0
  have finds {t result : Value} {n : Nat} (lives : t.Obeys (Machine.lives { m with depth := 0 }))
      (few : n ≤ 50) (computes : ∀ (ev : Nat → QLisp.Evaluator) [Stepwise ev],
        Computes ev n Scopes.global t w result)
      (right : t.Obeys (Machine.lives { m with depth := 0 }) →
        Machine.HasRoom { m with depth := 0 } Scopes.global t →
          Machine.Finds { m with depth := 0 } Scopes.global t result) :
      Machine.Finds { m with depth := 0 } Scopes.global t result :=
    right lives (idle.hasRoom mirrors.global lives (limit ▸ few) computes)
  -- A list is reversed within a number of reductions that its length gives.
  have reversed (ev : Nat → QLisp.Evaluator) [Stepwise ev] : Computes ev 17 Scopes.global
      (.sexpr [.symbol "reverse", .qexpr l]) w (.qexpr l.reverse) :=
    knows.reverse (computes_qexpr l) (by decide)
  refine ⟨m, ran, finds ?_ (by decide) (fun ev _ => knows.append l []) (append l []),
    finds ?_ (by decide) reversed (reverse l),
    finds ?_ (by decide) (fun ev _ => knows.reverse (reversed ev) (by decide)) (twice l),
    finds ?_ (by decide) (fun ev _ => knows.len (by decide)) (len l (by decide)),
    finds ?_ (by decide) (fun ev _ => knows.elem rfl l) (elem (.string (Text.encode "a")) l rfl)⟩
  -- The scopes of functions in the expressions have been made, as there are no functions in them.
  all_goals simp [Value.Obeys, Value.ObeyAll, Value.sexpr, Value.qexpr, l]

end QLisp.Shared
