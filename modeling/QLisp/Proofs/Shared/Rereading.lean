import QLisp.Proofs.Shared.NormalForms
import QLisp.Proofs.Value.Spelling

/-!
Printed values read back, in a session.

What is printed for a function is not the function but the expression that makes it. Read again and
evaluated in any scope it makes the same function, which closes over that scope.
-/

namespace QLisp

namespace Value

/-- A function of some named formals with a quoted body. -/
def function (names : List String) (items : List Value) (scope : Option ScopeId) : Value :=
  .lambda (.qexpr (names.map .symbol)) (.qexpr items) scope

/-- The expression that makes such a function. -/
def maker (names : List String) (items : List Value) : Value :=
  .sexpr [.primitive .lambda, .qexpr (names.map .symbol), .qexpr items]

variable {names : List String} {items : List Value}

/-- The expression that makes a function is plain when the names are names and the body is plain. -/
theorem plain_maker (nameable : ∀ name ∈ names, Nameable name) (plain : (qexpr items).Plain) :
    (maker names items).Plain := by
  have formals : (qexpr (names.map .symbol)).Plain := by
    refine .list .qexpr fun v member => ?_
    obtain ⟨name, inside, rfl⟩ := List.mem_map.mp member
    exact .symbol (nameable name inside)
  refine .list .sexpr fun v member => ?_
  simp only [List.mem_cons, List.not_mem_nil, or_false] at member
  -- The list holds the operation, the formals and the body.
  rcases member with rfl | rfl | rfl
  · exact .operation .lambda
  · exact formals
  · exact plain

/-- The expression that makes a function is legible when the body is. -/
theorem legible_maker (legible : (qexpr items).Legible) : (maker names items).Legible := by
  -- Formals are symbols, which have no text inside.
  have formals : (qexpr (names.map .symbol)).strings = [] := by
    show stringsAll (names.map .symbol) = []
    induction names with
    | nil => rfl
    | cons name rest ih => exact ih
  intro bytes member
  have shape : (maker names items).strings =
      [] ++ ((qexpr (names.map .symbol)).strings ++ ((qexpr items).strings ++ [])) := rfl
  rw [shape, formals, List.append_nil] at member
  exact legible bytes member

/-- A function is printed as the expression that makes it. -/
theorem render_function (scope : Option ScopeId) :
    (function names items scope).render = (maker names items).render := by
  have opening : Text.encode "(\\ " = Text.encode "(" ++ (Text.encode "\\" ++ Text.encode " ") := by
    decide
  rw [render, function, spell, opening, List.append_assoc, List.append_assoc]
  rfl

/-- Functions of the same formals with the same plain body are the same. -/
theorem same_function (plain : (qexpr items).Plain) (scope scope' : Option ScopeId) :
    (function names items scope).same (function names items scope') := by
  -- The formals are the same symbols, and the body is the same as itself.
  have formals : (qexpr (names.map .symbol)).same (qexpr (names.map .symbol)) := by
    have inner : sameAll (names.map .symbol) (names.map .symbol) := by
      induction names with
      | nil => rfl
      | cons name rest ih => simpa [sameAll, same] using ih
    simpa [qexpr, same] using inner
  rw [function, function, same, formals, plain.same_self]
  rfl

end Value

namespace Run

/-- Symbols are the names that they were made of. -/
theorem symbolNames_map (p : Primitive) (names : List String) :
    p.symbolNames (.qexpr (names.map .symbol)) = .ok names := by
  show (names.map Value.symbol).mapM _ = _
  induction names with
  | nil => rfl
  | cons name rest ih =>
    rw [List.map_cons, List.mapM_cons, ih]
    rfl

/-- Evaluating the expression that makes a function makes it, in the scope of the evaluation. -/
theorem eval_maker (room : Nat) (scope : ScopeId) (names : List String) (items : List Value)
    (w : World Value) :
    eval (room + 1) scope (.maker names items) w = (.function names items (some scope), w) := by
  -- The operation and the two quoted lists stand for themselves.
  have parts : eval (room + 1) scope (.maker names items) w =
      applyPrimitive (eval room) scope .lambda [.qexpr (names.map .symbol), .qexpr items] w := by
    cases room <;> rfl
  have found : Primitive.lambda.functionParts [.qexpr (names.map .symbol), .qexpr items] =
      .ok (.qexpr (names.map .symbol), .qexpr items) := by
    rw [Primitive.functionParts, symbolNames_map]
    rfl
  rw [parts, applyPrimitive, found]
  rfl

end Run

namespace Shared

/-- The expression that makes a function is evaluated in place, with reductions in progress or none. -/
theorem Mirrors.evaluates_maker {mine store : CellId → Prop} {m : Machine} {w : World Value}
    (mirrors : Mirrors True mine store m w) {scope : ScopeId} (made : m.world.scopes.Made scope)
    {depth : Nat} (allowed : depth < m.world.limit) {names : List String} {items : List Value}
    (obeys : ∀ rule, (Value.maker names items).Obeys rule) :
    ∃ v m', (do Act.evaluate scope (← ListOp.place (.maker names items)) : Act Handle)
        { m with depth := depth } = .ok v m' ∧
      m'.heap.view v = .function names items (some scope) := by
  have nested := mirrors.atDepth depth
  have ready : Ready m.world.limit depth { m with depth := depth } scope := ⟨made, rfl, rfl⟩
  -- There is room for one reduction, and the expression needs no more.
  obtain ⟨room, left⟩ : ∃ room, m.world.limit - depth = room + 1 :=
    ⟨m.world.limit - depth - 1, by omega⟩
  -- Placing and evaluating the expression is followed by evaluating its value.
  have follows : Act.Follows True mine store { m with depth := depth } w
      (do Act.evaluate scope (← ListOp.place (.maker names items)) : Act Handle)
      (Run.eval (room + 1) scope (.maker names items)) (Yields True mine) := by
    refine .place nested (obeys _) fun v h' _ mirrors yields => ?_
    have simulates := Act.simulates_evalVia Act.follow_call left mirrors ready.edit yields
    rw [Act.evalVia_call, Run.evalVia_call] at simulates
    refine simulates.congr ?_
    rw [Act.evaluate_run, ← left]
  obtain ⟨v, m', _, evaluated, _, _, ids, holds, free⟩ := follows.ok
  refine ⟨v, m', evaluated, ?_⟩
  rw [(free.stands holds).view, Run.eval_maker]

/--
Printed values read back.

A value that is built from finite numbers, symbols, strings, truth values, operations and lists is
printed as one form. It reads back as the value with every string replaced by an error that is no text
or holds a character without an escape known to the reader, and so as the value itself just when there
is no such string. A function of some names with such a body is printed as an expression. After any
requests to a session, and with any number of reductions in progress that the limit allows to be one
more, this expression evaluates in every scope to a function that is the same as the one printed.
-/
theorem printed_values_read_back :
    (∀ v : Value, v.Plain → ∃ v',
      (Form.parse v.render).map (Form.toValues Primitive.all) = .ok [v'] ∧
        v.Rereads v' ∧ (v' = v ↔ v.Legible)) ∧
    ∀ (names : List String) (items : List Value) (captured : Option ScopeId),
      (∀ name ∈ names, Value.Nameable name) → (Value.qexpr items).Plain →
      (Value.qexpr items).Legible → ∃ expression,
        (Form.parse (Value.function names items captured).render).map
          (Form.toValues Primitive.all) = .ok [expression] ∧
        ∀ (files : Files) (requests : List Request), ∃ m,
          requests.forM Act.perform (Machine.standard files) = .ok () m ∧
          ∀ scope, m.world.scopes.Made scope → ∀ depth < m.world.limit,
            ∃ v m', (do Act.evaluate scope (← ListOp.place expression) : Act Handle)
                { m with depth := depth } = .ok v m' ∧
              m'.heap.view v = .function names items (some scope) ∧
              (Value.function names items captured).same (m'.heap.view v) := by
  -- What is printed of a function is the expression that makes one.
  refine ⟨fun v plain => plain.reads_back, fun names items captured nameable plain legible => ?_⟩
  obtain ⟨v', read, _, same⟩ := (Value.plain_maker nameable plain).reads_back
  obtain rfl := same.mpr (Value.legible_maker legible)
  rw [← Value.render_function captured] at read
  refine ⟨_, read, fun files requests => ?_⟩
  obtain ⟨_, store, mirrors, idle⟩ := mirrors_standard files
  obtain ⟨m, store, ran, mirrors, _⟩ := mirrors.session requests idle
  refine ⟨m, ran, fun scope made depth allowed => ?_⟩
  -- What is read from a text holds no function that would need a scope.
  have obeys : ∀ rule, (Value.maker names items).Obeys rule := by
    cases parsed : Form.parse (Value.function names items captured).render with
    | error e => simp [parsed, Except.map] at read
    | ok forms =>
      rw [parsed] at read
      have whole : Form.toValues Primitive.all forms = [Value.maker names items] := Except.ok.inj read
      exact fun rule => Form.obeys_of_mem_toValues (whole ▸ List.mem_singleton_self _)
  -- The expression gives a function with the same parts, in the scope where it is evaluated.
  obtain ⟨v, m', evaluated, seen⟩ := mirrors.evaluates_maker made allowed obeys
  exact ⟨v, m', evaluated, seen, seen ▸ Value.same_function plain captured (some scope)⟩

/-- The list `{0 "a\n" + x}` reads back as it is, and so does what is printed for a function with it. -/
theorem printed_values_read_back_mixed :
    let v := Value.qexpr
      [.number .zero, .string (Text.encode "a\n"), .primitive .add, .symbol "x"]
    (Form.parse v.render).map (Form.toValues Primitive.all) = .ok [v] ∧
    ∃ expression, (Form.parse (Value.function ["x"] v.items none).render).map
      (Form.toValues Primitive.all) = .ok [expression] := by
  intro v
  -- The name is one symbol when it is read.
  have lexed : Token.classify .start "x".toList = .symbol "x" := by decide +kernel
  -- Each of the values reads back, the text because it has only letters and a newline.
  have plain : v.Plain := by
    refine .list .qexpr fun u member => ?_
    simp only [List.mem_cons, List.not_mem_nil, or_false] at member
    rcases member with rfl | rfl | rfl | rfl
    · exact .number (x := .zero) (by decide +kernel)
    · exact .string _
    · exact .operation .add
    · exact .symbol lexed
  have legible : v.Legible := by
    intro bytes member
    obtain rfl := List.mem_singleton.mp member
    refine ⟨"a\n", rfl, fun c inside => ?_⟩
    have known : c = 'a' ∨ c = '\n' := by simpa using inside
    rcases known with rfl | rfl
    · exact .inl (by decide +kernel)
    · exact .inr (.inl rfl)
  have nameable : ∀ name ∈ ["x"], Value.Nameable name := by
    intro name member
    obtain rfl := List.mem_singleton.mp member
    exact lexed
  -- All of it is legible, so what is read is the value itself.
  obtain ⟨v', read, _, same⟩ := printed_values_read_back.1 v plain
  obtain ⟨expression, made, _⟩ := printed_values_read_back.2 ["x"] v.items none nameable plain legible
  rw [same.mpr legible] at read
  exact ⟨read, expression, made⟩

/--
A string of one byte that belongs to no character does not read back, although the replacement
character, as which such a byte counts, is printable.
-/
theorem printed_values_read_back_stray :
    let v := Value.string [0xFF]
    v.Plain ∧ (∀ r ∈ Text.runes [0xFF], Text.isPrintable r.value) ∧
      (Form.parse v.render).map (Form.toValues Primitive.all) = .ok [.error (.malformedSource
        (Text.encode "1:1: unknown escape sequence \\x in string"))] := by
  refine ⟨.string _, ?_, ?_⟩
  -- A stray byte is legible nowhere.
  · intro r member
    obtain rfl : r = .stray 0xFF := List.mem_singleton.mp member
    decide +kernel
  · -- The text that is printed is read by the parser, up to the values of its forms.
    have text : (Value.string [0xFF]).render = Text.encode "\"\\xff\"" := by decide +kernel
    have read : Form.parse (Text.encode "\"\\xff\"") = .ok [.atom .start (.malformed
        "1:1: unknown escape sequence \\x in string")] := by
      rw [Form.parse_encode]
      rfl
    rw [text, read]
    rfl

end Shared
end QLisp
