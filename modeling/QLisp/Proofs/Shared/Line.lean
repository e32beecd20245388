import QLisp.Proofs.Foreign
import QLisp.Proofs.Shared.Limit
import QLisp.Proofs.Shared.NormalForms

/-!
A line and its text.

A line is evaluated as one list in round brackets. It gives what its text gives between brackets,
apart from the places in diagnostics. A line with one expression also gives what the expression gives
on its own: this is evaluated once more, one reduction deeper, and neither can be told from the result.
-/

namespace QLisp.Shared

variable {mine store : CellId → Prop} {m m' : Machine} {w : World Value} {bytes : Text.Bytes}
  {forms : List Form} {form : Form}

/-- A handle that stands for a value is an answer with one element. -/
theorem Yields.single {proper : Prop} {v : Handle} {t : Value}
    (yields : Yields proper mine store m v t) : YieldsAll proper mine store m [v] [t] := by
  obtain ⟨ids, holds, free⟩ := yields
  exact ⟨ids ++ [], .cons holds .nil, by simpa using free⟩

/-- An answer to a source that has one value is one handle, which is seen as that value. -/
theorem Act.Answers.single {proper : Prop} {answer : Except SourceError (List Handle)} {t : Value}
    (answers : Act.Answers proper mine store m answer (.ok [t])) :
    ∃ v, answer = .ok [v] ∧ m.heap.view v = t := by
  cases answer with
  | error e => exact answers.elim
  | ok handles =>
    have views : handles.map m.heap.view = [t] := YieldsAll.views answers
    obtain ⟨v, rest, rfl, view, none⟩ := List.map_eq_cons_iff.mp views
    obtain rfl := List.map_eq_nil_iff.mp none
    exact ⟨v, rfl, view⟩

namespace Act

/-- The expressions of a line are placed as one list in round brackets, and that is evaluated. -/
theorem evaluateSourceBy_line (ev : Evaluator) (read : Form.parse bytes = .ok forms) :
    evaluateSourceBy ev (.line bytes) = (do
      let v ← ListOp.place (.sexpr (Form.toValues Primitive.all forms))
      return .ok [← ev Scopes.global v] : Act _) := by
  have known : Run.readSource (α := Handle) (.line bytes) =
      pure (.ok [.sexpr (Form.toValues Primitive.all forms)]) := by
    rw [Run.readSource, Form.parseLine, read]
    rfl
  have reads : ∀ result, (inWorld (pure result) >>= evaluateRead ev : Act _) =
    evaluateRead ev result := fun _ => rfl
  rw [evaluateSourceBy, known, reads, evaluateRead]
  simp [each]

/-- A line is placed in a list that has a container of its own, whatever evaluates it. -/
theorem line_placed (mirrors : Mirrors True mine store m w) (read : Form.parse bytes = .ok forms) :
    ∃ h' id ids, Mirrors True mine store { m with heap := h' } w ∧
      Moves mine store m store { m with heap := h' } ∧
      Arguments True mine store { m with heap := h' } id (Form.toValues Primitive.all forms) ids ∧
      ∀ ev : Evaluator, evaluateSourceBy ev (.line bytes) m =
        (do return .ok [← ev Scopes.global (.list .sexpr id)] : Act _) { m with heap := h' } := by
  obtain ⟨v, h', placed, edits, _, holds, free⟩ :=
    place_ok mirrors ((Form.list .start .sexpr forms).obeys_toValue Primitive.all)
  -- A list that is placed properly has a container.
  obtain ⟨id, ids, rfl, rfl, inside⟩ | ⟨improper, _⟩ := holds.eq_list
  case inr => exact absurd trivial improper
  have other : ∀ c ∈ ([] : List CellId), mine c ∧ ¬ store c := by simp
  refine ⟨h', id, ids, mirrors.edit edits other, .of_edits edits other mirrors.stored,
    ⟨inside, free⟩, fun ev => ?_⟩
  rw [evaluateSourceBy_line ev read]
  exact bind_ok (lift_ok placed) _

/-- A list that may not be reduced sounds the alarm at once. -/
theorem evaluateWarned_refused (fault : Fault) (scope : ScopeId) (id : CellId)
    (full : m.world.limit ≤ m.depth) :
    evaluateWarned (throw fault) scope (.list .sexpr id) m = .error fault m := by
  have none : m.world.limit - m.depth = 0 := by omega
  have alarmed : warn (throw fault) (.list .sexpr id) m = .error fault m := by
    have sounds : reducible (.list .sexpr id) ∧ m.world.limit ≤ m.depth := ⟨rfl, full⟩
    rw [warn_run, if_pos sounds]
    rfl
  show evalWarned (throw fault) (m.world.limit - m.depth) scope (.list .sexpr id) m = _
  rw [none]
  exact bind_error alarmed _

/-- A list is reduced one deeper than without a reduction in progress, and with less room. -/
theorem parallel_brackets (fault : Fault) (limit depth : Nat) (scope : ScopeId) (id : CellId) :
    Parallel ⟨limit, depth⟩ ⟨limit, depth⟩ (· = fault)
      (evalWarned (throw fault) (limit - depth) scope (.list .sexpr id))
      (reduce (eval (limit - depth)) scope id) := by
  -- Without room no reduction is allowed; with some, one is used up for the list itself.
  cases left : limit - depth with
  | zero =>
    refine parallel_unrefused fault _ fun allowed => ?_
    have more : depth < limit := allowed rfl
    omega
  | succ room =>
    refine parallel_unrefused fault _ fun allowed m => ?_
    have more : depth < limit := allowed rfl
    have less : limit - (depth + 1) = room := by omega
    have roomier : limit - (depth + 1) ≤ limit - depth := by omega
    -- Both sides have entered the list, or stand before it with one reduction more.
    have inner : ∀ scope v, Parallel (Gauge.deeper ⟨limit, depth⟩) ⟨limit, depth⟩ (· = fault)
        (evalWarned (throw fault) (limit - (depth + 1)) scope v) (eval (limit - depth) scope v) :=
      parallel_evalWarned fault roomier
    rw [less, left] at inner
    have entered : evalWith (reduce (evalWarned (throw fault) room) scope) scope (.list .sexpr id)
        (m.gauged ⟨limit, depth⟩) = nested _ (m.gauged ⟨limit, depth⟩) := guarded_allowed more
    rw [entered]
    exact parallel_nested_left (parallel_reduce inner scope id) m

/-- A list that is reduced without an alarm gives what it gives with the whole limit as its room. -/
theorem reduce_of_unrefused {fault : Fault} {scope : ScopeId} {id : CellId} {v : Handle}
    (idle : m.depth = 0)
    (ran : evaluateWarned (throw fault) scope (.list .sexpr id) m = .ok v m') :
    0 < m.world.limit ∧ reduce (eval m.world.limit) scope id m = .ok v m' := by
  -- Unless the limit is zero the list is reduced, and its elements have the whole limit as their
  -- room.
  constructor
  -- With no room left the warning would have stopped the run.
  · by_contra none
    have full : m.world.limit ≤ m.depth := by omega
    rw [evaluateWarned_refused fault scope id full] at ran
    cases ran
  · have side := parallel_brackets fault m.world.limit 0 scope id m
    have gauged : m.gauged ⟨m.world.limit, 0⟩ = m := by
      rw [← idle]
      rfl
    have here : evaluateWarned (throw fault) scope (.list .sexpr id) m =
        evalWarned (throw fault) (m.world.limit - 0) scope (.list .sexpr id) m := by
      rw [← idle]
      rfl
    -- In step with the reduction of the list, the run has reduced it.
    rw [gauged, ← here, ran] at side
    obtain ⟨same, reduced⟩ := side
    rwa [← same, Machine.gauged_gauge] at reduced

/-- A line with one expression follows the text with that one, if no reduction is refused. -/
theorem follows_line (mirrors : Mirrors True mine store m w) (idle : m.depth = 0) (tidy : w.Tidy)
    (read : Form.parse bytes = .ok [form])
    (unreached : ∀ alarm, evaluateSourceBy (evaluateWarned alarm) (.line bytes) m =
      evaluateSource (.line bytes) m) :
    Follows True mine store m w (evaluateSource (.line bytes)) (Run.evaluateSource (.text bytes))
      (Answers True mine) := by
  have ready : Ready m.world.limit 0 m Scopes.global := ⟨mirrors.global, rfl, idle⟩
  obtain ⟨answer, m₁, _, ended, _⟩ := (follows_evaluateSource mirrors ready (.line bytes)).ok
  obtain ⟨h', id, ids, mirrors', moves, list, placed⟩ := line_placed mirrors read
  rw [← unreached (throw .unending), placed] at ended
  cases warned : evaluateWarned (throw .unending) Scopes.global (.list .sexpr id)
      { m with heap := h' } with
  -- A fault of the warned run would be one of the line, which has ended.
  | error fault m₂ =>
    rw [bind_error warned] at ended
    cases ended
  | ok u m₂ =>
    have idle' : ({ m with heap := h' } : Machine).depth = 0 := idle
    obtain ⟨positive, reduced⟩ := reduce_of_unrefused idle' warned
    -- In place the line does what reducing its list with the whole limit does.
    have line : evaluateSource (.line bytes) m =
        (do return .ok [← reduce (eval m.world.limit) Scopes.global id] : Act _)
          { m with heap := h' } := by
      rw [← unreached (throw .unending), placed, bind_ok warned, bind_ok reduced]
    -- Of values the text does what reducing a list with its only expression does.
    have text := Run.evaluateSource_brackets tidy (mirrors.limit ▸ positive) read
    rw [← mirrors.limit] at text
    have sim : Simulates True m.world.limit 0 (evalVia call m.world.limit)
        (Run.evalVia Run.call m.world.limit) :=
      simulates_evalVia follow_call (Nat.sub_zero m.world.limit)
    rw [evalVia_call, Run.evalVia_call] at sim
    -- Reducing the list is followed on its value.
    have reduces := follows_reduceVia follow_call sim mirrors' ready.edit list
    have follows : Follows True mine store { m with heap := h' } w
        (do return .ok [← reduce (eval m.world.limit) Scopes.global id] : Act _)
        (do return .ok [← Run.reduce (Run.eval m.world.limit) Scopes.global
          [form.toValue Primitive.all]] : Run _) (Answers True mine) :=
      reduces.bind fun _ _ _ mirrors _ yields => follows_pure mirrors yields.single
    obtain ⟨a, m', store', ran, mirrors'', moves', good⟩ := follows.ok
    exact .congrRun (.inl ⟨a, m', store', line.trans ran, mirrors'', moves.trans moves', good⟩) text

/-- A lone element that stands for itself is what its list is reduced to, whatever evaluates it. -/
theorem reduce_constant {id : CellId} {v : Handle} (made : m.heap.Made id)
    (lone : m.heap.items id = [v]) (fine : ¬ v.isError) (scope : ScopeId) :
    ∃ m', ∀ ev : Evaluator, (∀ m, ev scope v m = .ok v m) → reduce ev scope id m = .ok v m' := by
  -- The only slot holds the element, before and after it is evaluated.
  have inside : 0 < (m.heap.items id).length := by simp [lone]
  have slot : m.heap.slot (m.heap.span id) 0 = v := by
    rw [ListOp.slot_present inside, lone]
    rfl
  -- The element is put back into its slot, is no error, and is taken out in the end.
  obtain ⟨items, span, _⟩ := ListOp.put_present made inside v
  generalize filled : m.heap.put (m.heap.span id) 0 v = h at items span
  rw [lone, List.set_cons_zero] at items
  have slot' : h.slot (m.heap.span id) 0 = v := by
    rw [← span, ListOp.slot_present (by simp [items]), items]
    rfl
  have searched : findError? (m.heap.span id) 0 1 h = .ok none h := by
    show (if (h.slot (m.heap.span id) 0).isError then pure (some 0)
      else pure none : ListOp (Option Nat)) h = _
    rw [slot', if_neg fine]
    rfl
  have first : (h.items id)[0]? = some v := by
    rw [items]
    rfl
  obtain ⟨h', taken, _⟩ := ListOp.take_ok first .sexpr
  refine ⟨{ m with heap := h' }, fun ev stands => ?_⟩
  have evaluated : evalSlots ev scope (m.heap.span id) 0 1 m = .ok () { m with heap := h } := by
    have read : ListOp.slot (m.heap.span id) 0 m.heap = .ok v m.heap := by
      rw [← slot]
      rfl
    rw [evalSlots, bind_ok (lift_ok read), bind_ok (stands _), ← filled]
    rfl
  -- Reading the span and the elements changes nothing, and there is one slot.
  have spanned : ListOp.span id m.heap = .ok (m.heap.span id) m.heap := rfl
  have count : (m.heap.span id).length = 1 := congrArg List.length lone
  have whole : ListOp.items id h = .ok [v] h := by
    rw [← items]
    rfl
  rw [reduce, bind_ok (lift_ok spanned), count, bind_ok evaluated, bind_ok (lift_ok searched)]
  simp only
  rw [bind_ok (lift_ok whole)]
  simp only
  rw [bind_ok (lift_ok taken)]
  exact stands _

/-- A line with nothing but a quoted list reaches no limit that allows a reduction. -/
theorem unreached_quoted (mirrors : Mirrors True mine store m w) (idle : m.depth = 0)
    (allowed : 0 < m.world.limit) (read : Form.parse bytes = .ok [form]) {items : List Value}
    (quoted : form.toValue Primitive.all = .qexpr items) (alarm : Act Unit) :
    evaluateSourceBy (evaluateWarned alarm) (.line bytes) m = evaluateSource (.line bytes) m := by
  -- The line is placed in a list, whose only element is the quoted list.
  obtain ⟨h', id, ids, _, _, list, placed⟩ := line_placed mirrors read
  have inside := list.inside
  rw [Form.toValues, quoted] at inside
  obtain ⟨v, vs, _, _, lone, _, head, tail⟩ := inside.eq_cons
  obtain ⟨rfl, _⟩ := tail.eq_nil
  -- A quoted list that a value holds stands on a container.
  obtain ⟨id', _, rfl, rfl, _⟩ | ⟨improper, _⟩ := head.eq_list
  case inr => exact absurd trivial improper
  -- The list is reduced to its element, with the warning and without it.
  obtain ⟨m', reduces⟩ := reduce_constant (m := { m with heap := h', depth := m.depth + 1 })
    list.made lone (by simp [Handle.isError, Handle.kind]) Scopes.global
  -- The list itself is one reduction, which the limit allows.
  have more : ({ m with heap := h' } : Machine).depth < m.world.limit := idle ▸ allowed
  obtain ⟨room, left⟩ : ∃ room, m.world.limit - m.depth = room + 1 :=
    ⟨m.world.limit - m.depth - 1, by omega⟩
  have entered : ∀ ev : Evaluator, (∀ m, ev Scopes.global (.list .qexpr id') m = .ok (.list .qexpr id') m) →
      guarded (reduce ev Scopes.global id) { m with heap := h' } =
        .ok (.list .qexpr id') { m' with depth := m'.depth - 1 } := by
    intro ev stands
    rw [guarded_allowed more]
    exact nested_ok (reduces ev stands)
  have plain : evaluate Scopes.global (.list .sexpr id) { m with heap := h' } =
      .ok (.list .qexpr id') { m' with depth := m'.depth - 1 } := by
    show eval (m.world.limit - m.depth) Scopes.global (.list .sexpr id) _ = _
    -- With a level left the list is entered, and its element stands for itself.
    rw [left]
    exact entered (eval room) fun m => by cases room <;> rfl
  have warned : evaluateWarned alarm Scopes.global (.list .sexpr id) { m with heap := h' } =
      .ok (.list .qexpr id') { m' with depth := m'.depth - 1 } := by
    have quiet : warn alarm (.list .sexpr id) { m with heap := h' } = .ok () { m with heap := h' } := by
      -- The warning finds that the limit allows it, so nothing is stopped.
      rw [warn_run, if_neg fun refused => Nat.not_le.mpr more refused.2]
      rfl
    show evalWarned alarm (m.world.limit - m.depth) Scopes.global (.list .sexpr id) _ = _
    rw [left]
    refine (bind_ok quiet _).trans ?_
    exact entered (evalWarned alarm room) fun m => by cases room <;> rfl
  rw [evaluateSource_eq, placed, placed, bind_ok plain, bind_ok warned]

end Act

/-- Two machines show the same since a third, but for failures that are related. -/
structure Machine.ShowAlike (rel : FailureRel) (m m₁ m₂ : Machine) : Prop where
  /-- Texts that are alike have been printed. -/
  output : ∃ text text', m₁.world.output = m.world.output ++ text ∧
    m₂.world.output = m.world.output ++ text' ∧ Text.Alike rel text text'
  /-- The same files have been asked for. -/
  asked : m₁.world.asked = m₂.world.asked
  /-- The same scopes have been made. -/
  made (id : ScopeId) : m₁.world.scopes.Made id ↔ m₂.world.scopes.Made id
  /-- The scopes have the same parents. -/
  parent? (id : ScopeId) : m₁.world.scopes.parent? id = m₂.world.scopes.parent? id
  /-- They bind the same names, to values that are alike. -/
  bound (id : ScopeId) (name : String) :
    Option.Rel (Value.Alike rel) (m₁.binding? id name) (m₂.binding? id name)

/-- Machines show what the worlds that they mirror do. -/
theorem Machine.showAlike_of_world {rel rel' : FailureRel} {faithful : rel.Faithful}
    {store₁ store₂ : CellId → Prop} {m₁ m₂ : Machine} {w₁ w₂ : World Value}
    (mirrors₁ : Mirrors True mine store₁ m₁ w₁) (mirrors₂ : Mirrors True mine store₂ m₂ w₂)
    (related : w₁.Related (.upTo rel faithful w) w₂) (before : m.world.output = w.output)
    (weaker : ∀ e e', rel e e' → rel' e e') : m.ShowAlike rel' m₁ m₂ where
  -- What is printed since the start differs by related failures only.
  output := by
    obtain ⟨text, text', printed, printed', same⟩ := related.output
    rw [mirrors₁.output, mirrors₂.output, before]
    exact ⟨text, text', printed, printed', same.mono weaker⟩
  asked := by
    obtain ⟨paths, asked, asked'⟩ := related.asked
    rw [mirrors₁.asked, mirrors₂.asked, asked, asked']
    rfl
  -- The scopes are those of the worlds, made alike and below alike.
  made id := by rw [← mirrors₁.made, ← mirrors₂.made, related.made rfl]
  parent? id := by rw [mirrors₁.parent?, mirrors₂.parent?, related.parent?_self fun _ _ => rfl]
  bound id name := by
    -- Scopes are the same on both sides, so each binds what corresponds.
    have values := related.bound_self (s := id) (fun _ _ => rfl) name
    rw [mirrors₁.binding?, mirrors₂.binding?]
    generalize w₁.scopes.local? id name = found at values
    generalize w₂.scopes.local? id name = found' at values
    cases values with
    | none => exact .none
    | some values => exact .some ((values.alike fun _ _ linked => linked.1).mono weaker)

/-- A line gives what its text between brackets does, if no failure has the message of a diagnostic. -/
theorem Mirrors.line_enclosed (mirrors : Mirrors True mine store m w) (idle : m.depth = 0)
    (rooted : w.Rooted) (read : Form.parse bytes = .ok forms)
    (bound : ∀ id name v, m.binding? id name = some v → ∀ e ∈ v.failures, e.Foreign bytes)
    (loaded : ∀ path contents, m.world.files path = .ok contents →
      ∀ e ∈ Text.diagnostics (withoutInterpreterLine contents), e.Foreign bytes) :
    ∃ v m₁ v' m₂, Act.evaluateSource (.line bytes) m = .ok (.ok [v]) m₁ ∧
      Act.evaluateSource (.text (Text.enclosed bytes)) m = .ok (.ok [v']) m₂ ∧
      Value.Alike (Failure.Enclosed bytes) (m₁.heap.view v) (m₂.heap.view v') ∧
      m.ShowAlike (Failure.Enclosed bytes) m₁ m₂ := by
  have ready : Ready m.world.limit 0 m Scopes.global := ⟨mirrors.global, rfl, idle⟩
  -- The world corresponds to itself, so a line and its text between brackets resemble one another.
  have related : w.Related (.upTo (Failure.Told (Text.diagnostics bytes)
      (Text.diagnostics (Text.enclosed bytes))) Failure.faithful_told w) w := by
    refine rooted.related (fun id name v found e member => ?_)
      (Files.steady_of_diagnostics fun path contents found e member => ?_)
    -- What is bound, or may be loaded, does not name a place of the line.
    · rw [← mirrors.binding?] at found
      obtain ⟨apart, apart'⟩ := bound id name v found e member
      exact Failure.told_self apart apart'
    · rw [← mirrors.files] at found
      obtain ⟨apart, apart'⟩ := loaded path contents found e member
      exact Failure.told_self apart apart'
  -- Both texts are answered with one value each, and the answers are followed in place.
  have resembles := Run.resembles_enclosed related read (Form.alike_enclosed read)
  obtain ⟨t, t', answer, answer', values⟩ := resembles.good
  obtain ⟨_, m₁, _, ran, mirrors₁, _, good⟩ :=
    (Act.follows_evaluateSource mirrors ready (.line bytes)).ok
  obtain ⟨_, m₂, _, ran', mirrors₂, _, good'⟩ :=
    (Act.follows_evaluateSource mirrors ready (.text (Text.enclosed bytes))).ok
  rw [answer] at good
  rw [answer'] at good'
  -- Each text has one value, since the line is enclosed in a list.
  obtain ⟨v, rfl, rfl⟩ := good.single
  obtain ⟨v', rfl, rfl⟩ := good'.single
  have told : ∀ e e', Failure.Told (Text.diagnostics bytes)
    (Text.diagnostics (Text.enclosed bytes)) e e' → Failure.Enclosed bytes e e' :=
    fun _ _ related => related.enclosed
  exact ⟨v, m₁, v', m₂, ran, ran', (values.alike fun _ _ linked => linked.1).mono told,
    Machine.showAlike_of_world mirrors₁ mirrors₂ resembles.world mirrors.output told⟩

/-- A line with one expression gives what the text with it does, if no reduction is refused. -/
theorem Mirrors.line_lone (mirrors : Mirrors True mine store m w) (idle : m.depth = 0)
    (tidy : w.Tidy) (read : Form.parse bytes = .ok [form])
    (unreached : ∀ alarm, Act.evaluateSourceBy (Act.evaluateWarned alarm) (.line bytes) m =
      Act.evaluateSource (.line bytes) m) :
    ∃ v m₁ v' m₂, Act.evaluateSource (.line bytes) m = .ok (.ok [v]) m₁ ∧
      Act.evaluateSource (.text bytes) m = .ok (.ok [v']) m₂ ∧
      m₁.heap.view v = m₂.heap.view v' ∧ m₁.world.output = m₂.world.output ∧
      m₁.world.asked = m₂.world.asked ∧
      (∀ id, m₁.world.scopes.Made id ↔ m₂.world.scopes.Made id) ∧
      (∀ id, m₁.world.scopes.parent? id = m₂.world.scopes.parent? id) ∧
      ∀ id name, m₁.binding? id name = m₂.binding? id name := by
  have ready : Ready m.world.limit 0 m Scopes.global := ⟨mirrors.global, rfl, idle⟩
  -- Both follow the text on values, so they mirror one world.
  obtain ⟨_, m₁, _, ran, mirrors₁, _, good⟩ := (Act.follows_line mirrors idle tidy read unreached).ok
  obtain ⟨_, m₂, _, ran', mirrors₂, _, good'⟩ :=
    (Act.follows_evaluateSource mirrors ready (.text bytes)).ok
  have answer : (Run.evaluateSource (.text bytes) w).1 =
      .ok [(Run.evaluate Scopes.global (form.toValue Primitive.all) w).1] := by
    rw [Run.evaluateSource_lone read]
    rfl
  rw [answer] at good good'
  -- Each run answers with one value, and both are those of the form.
  obtain ⟨v, rfl, view⟩ := good.single
  obtain ⟨v', rfl, view'⟩ := good'.single
  refine ⟨v, m₁, v', m₂, ran, ran', view.trans view'.symm, mirrors₁.output.trans mirrors₂.output.symm,
    mirrors₁.asked.trans mirrors₂.asked.symm, fun id => mirrors₁.made.symm.trans mirrors₂.made,
    fun id => (mirrors₁.parent? id).trans (mirrors₂.parent? id).symm, fun id name => ?_⟩
  rw [mirrors₁.binding?, mirrors₂.binding?]

/-- The machine that a program starts on has the limit of a fresh one. -/
theorem Machine.limit_standard (files : Files) :
    (Machine.standard files).world.limit = World.defaultLimit := by
  -- Evaluating the library leaves the limit as it is.
  obtain ⟨store, mirrors⟩ : ∃ store, Mirrors True (fun _ => True) store
    (Machine.withPrimitives files) (World.withPrimitives files) := mirrors_withPrimitives files
  have ready : Ready World.defaultLimit 0 (Machine.withPrimitives files) Scopes.global :=
    ⟨mirrors.global, rfl, rfl⟩
  obtain ⟨results, m', _, ran, _, moves, _⟩ := (Act.follows_each Act.simulates_evaluate mirrors ready
    fun t member _ => Library.obeys_expression t member).ok
  have here : Machine.standard files = m' := by rw [Machine.standard, Act.after, ran]
  rw [here, moves.limit]
  rfl

/-- The diagnostic of the token `#a` at a place. -/
def invalidHash (place : Position) : Failure :=
  .diagnostic place ("invalid symbol " ++ Text.quoted "#a")

/-- A definition with a quoted token that means nothing is read with its diagnostic. -/
theorem read_definition : ∃ form, Form.parse (Text.encode "(def {x} {#a})") = .ok [form] ∧
    form.toValue Primitive.all = .sexpr [.primitive .define, .qexpr [.symbol "x"],
      .qexpr [.error (invalidHash ⟨10, 1, 11⟩)]] := by
  refine ⟨.list ⟨0, 1, 1⟩ .sexpr [.atom ⟨1, 1, 2⟩ (.reserved Primitive.define.name),
    .list ⟨5, 1, 6⟩ .qexpr [.atom ⟨6, 1, 7⟩ (.symbol "x")],
    .list ⟨9, 1, 10⟩ .qexpr [.atom ⟨10, 1, 11⟩ (Token.malformed ⟨10, 1, 11⟩
      ("invalid symbol " ++ Text.quoted "#a"))]], ?_, rfl⟩
  rw [Form.parse_encode]
  rfl

/-- A quoted token that means nothing is read with its diagnostic, and one column on in brackets. -/
theorem read_quoted : ∃ form, Form.parse (Text.encode "{#a}") = .ok [form] ∧
    form.toValue Primitive.all = .qexpr [.error (invalidHash ⟨1, 1, 2⟩)] ∧
    form.enclosed.toValue Primitive.all = .qexpr [.error (invalidHash ⟨2, 1, 3⟩)] := by
  refine ⟨.list ⟨0, 1, 1⟩ .qexpr [.atom ⟨1, 1, 2⟩ (Token.malformed ⟨1, 1, 2⟩
    ("invalid symbol " ++ Text.quoted "#a"))], ?_, rfl, ?_⟩
  · rw [Form.parse_encode]
    rfl
  · simp only [List.map_cons, List.map_nil, Form.enclosed, Atom.enclosed_malformed]
    rfl

/-- The diagnostics of a quoted token that means nothing, on its own and in brackets. -/
theorem diagnostics_quoted : Text.diagnostics (Text.encode "{#a}") = [invalidHash ⟨1, 1, 2⟩] ∧
    Text.diagnostics (Text.enclosed (Text.encode "{#a}")) = [invalidHash ⟨2, 1, 3⟩] := by
  obtain ⟨form, read, quoted, enclosed⟩ := read_quoted
  constructor
  · rw [Text.diagnostics, read]
    simp only [Form.toValues, quoted]
    rfl
  · rw [Text.diagnostics, Form.parse_enclosed read]
    simp only [Form.toValues, Form.toValue, List.map_cons, List.map_nil, enclosed]
    rfl

/-- The diagnostic of another column is not one of those of the quoted token. -/
theorem foreign_invalidHash {place : Position} (first : place.column ≠ 2) (second : place.column ≠ 3) :
    (invalidHash place).Foreign (Text.encode "{#a}") := by
  rw [Failure.Foreign, diagnostics_quoted.1, diagnostics_quoted.2]
  simp [invalidHash, Failure.diagnostic_inj, first, second]

/-- A file with a token that means nothing has the diagnostic of its first column. -/
theorem diagnostics_file :
    Text.diagnostics (withoutInterpreterLine (Text.encode "#a")) = [invalidHash ⟨0, 1, 1⟩] := by
  have whole : withoutInterpreterLine (Text.encode "#a") = Text.encode "#a" := rfl
  rw [whole, Text.diagnostics, Form.parse_encode]
  rfl

/-- A call of `load` is read as what it is. -/
theorem read_load : Form.parse (Text.encode "load \"a\"") =
    .ok [.atom ⟨0, 1, 1⟩ (.reserved Primitive.load.name), .atom ⟨5, 1, 6⟩ (.string "a")] := by
  rw [Form.parse_encode]
  rfl

/-- The failures of the definition of a quoted token that means nothing, and of loading a file. -/
theorem failures_requests (files : Files) :
    (Request.evaluate (.text (Text.encode "(def {x} {#a})"))).failures files =
      [invalidHash ⟨10, 1, 11⟩] ∧
    (Request.evaluate (.line (Text.encode "load \"a\""))).failures files = [] := by
  obtain ⟨form, read, means⟩ := read_definition
  constructor
  · rw [Request.failures, Source.failures, Source.read, Run.readText, read]
    simp [Except.map, Except.mapError, Form.toValues, means, Value.sexpr, Value.qexpr,
      Value.primitive, Value.failuresAll, Value.failures]
  · have known : Vocabulary.meaning? Primitive.all Primitive.load.name = some .load :=
      Primitive.load.ofName?_name
    rw [Request.failures, Source.failures, Source.read, Form.parseLine, read_load]
    simp [Except.map, Except.mapError, Form.toValues, Form.toValue, Atom.toValue, known,
      Value.primitive, Value.failuresAll, Value.failures]

/-- Requests that end with a limit leave that limit. -/
theorem limit_session (requests : List Request) (setting : Int) (w : World Value) :
    (Run.after ((requests ++ [Request.limit setting]).forM Request.perform) w).limit =
      World.limitOf setting := by
  rw [List.forM_eq_forM, List.forM_append]
  rfl

/--
A line gives what its text gives between brackets, and a line of one expression what its text gives.

After any requests to a session, a line that can be read gives one value, and so does its text between
brackets with a newline before the closing one. If no failure in a binding, or in what a file holds,
has the message of a diagnostic of the line, there or between brackets, then the two values are the
same, and so is what has been printed, what files have been asked for, and what scopes there are with
their parents and bindings. Only diagnostics of the line give the places that their tokens have between
brackets.

A line with a single expression gives the same value as the text with it, and leaves the same, provided
that no reduction is refused: sounding an alarm when one is makes no difference.
-/
theorem line_agrees_text (files : Files) (requests : List Request) {bytes : Text.Bytes}
    {forms : List Form} (read : Form.parse bytes = .ok forms) :
    ∃ m, requests.forM Act.perform (Machine.standard files) = .ok () m ∧
      ((∀ id name v, m.binding? id name = some v → ∀ e ∈ v.failures, e.Foreign bytes) →
        (∀ path contents, m.world.files path = .ok contents →
          ∀ e ∈ Text.diagnostics (withoutInterpreterLine contents), e.Foreign bytes) →
        ∃ v m₁ v' m₂, Act.evaluateSource (.line bytes) m = .ok (.ok [v]) m₁ ∧
          Act.evaluateSource (.text (Text.enclosed bytes)) m = .ok (.ok [v']) m₂ ∧
          Value.Alike (Failure.Enclosed bytes) (m₁.heap.view v) (m₂.heap.view v') ∧
          m.ShowAlike (Failure.Enclosed bytes) m₁ m₂) ∧
      ∀ form, forms = [form] →
        (∀ alarm, Act.evaluateSourceBy (Act.evaluateWarned alarm) (.line bytes) m =
          Act.evaluateSource (.line bytes) m) →
        ∃ v m₁ v' m₂, Act.evaluateSource (.line bytes) m = .ok (.ok [v]) m₁ ∧
          Act.evaluateSource (.text bytes) m = .ok (.ok [v']) m₂ ∧
          m₁.heap.view v = m₂.heap.view v' ∧ m₁.world.output = m₂.world.output ∧
          m₁.world.asked = m₂.world.asked ∧
          (∀ id, m₁.world.scopes.Made id ↔ m₂.world.scopes.Made id) ∧
          (∀ id, m₁.world.scopes.parent? id = m₂.world.scopes.parent? id) ∧
          ∀ id name, m₁.binding? id name = m₂.binding? id name := by
  obtain ⟨_, _, mirrors, idle⟩ := mirrors_standard files
  obtain ⟨m, store, ran, mirrors, idle⟩ := mirrors.session requests idle
  have tidy := (World.tidy_standard files).session requests
  have rooted := (World.rooted_standard files).session requests
  refine ⟨m, ran, mirrors.line_enclosed idle rooted read, ?_⟩
  rintro form rfl unreached
  exact mirrors.line_lone idle tidy read unreached

/--
The line `{#a}`, whose token means nothing.

Before it, a name is bound to a list with a like token, and a file with another one is loaded. Both
tokens are elsewhere than that of the line, on its own and between brackets.
-/
theorem line_agrees_text_malformed :
    let bytes := Text.encode "{#a}"
    let files : Files := fun path =>
      if path = Text.encode "a" then .ok (Text.encode "#a") else .error .missing
    let requests := [Request.evaluate (.text (Text.encode "(def {x} {#a})")),
      .evaluate (.line (Text.encode "load \"a\"")), .limit 100]
    Text.diagnostics bytes = [invalidHash ⟨1, 1, 2⟩] ∧
    ∃ m, requests.forM Act.perform (Machine.standard files) = .ok () m ∧
      (∃ v m₁ v' m₂, Act.evaluateSource (.line bytes) m = .ok (.ok [v]) m₁ ∧
        Act.evaluateSource (.text (Text.enclosed bytes)) m = .ok (.ok [v']) m₂ ∧
        Value.Alike (Failure.Enclosed bytes) (m₁.heap.view v) (m₂.heap.view v') ∧
        m.ShowAlike (Failure.Enclosed bytes) m₁ m₂) ∧
      ∃ v m₁ v' m₂, Act.evaluateSource (.line bytes) m = .ok (.ok [v]) m₁ ∧
        Act.evaluateSource (.text bytes) m = .ok (.ok [v']) m₂ ∧
        m₁.heap.view v = m₂.heap.view v' := by
  intro bytes files requests
  obtain ⟨form, read, quoted, _⟩ := read_quoted
  have limited : ∀ w, (Run.after (requests.forM Request.perform) w).limit = World.limitOf 100 :=
    limit_session [.evaluate (.text (Text.encode "(def {x} {#a})")),
      .evaluate (.line (Text.encode "load \"a\""))] 100
  -- The only file has a token in the first column, and the requests one in the eleventh.
  have loaded : ∀ path contents, files path = .ok contents →
      ∀ e ∈ Text.diagnostics (withoutInterpreterLine contents), e.Foreign bytes := by
    intro path contents found e member
    obtain rfl : Text.encode "#a" = contents := by
      by_cases named : path = Text.encode "a" <;> simp_all [files]
    rw [diagnostics_file, List.mem_singleton] at member
    exact member ▸ foreign_invalidHash (by decide) (by decide)
  have brought : ∀ request ∈ requests, ∀ e ∈ request.failures files, e.Foreign bytes := by
    obtain ⟨defined, load⟩ := failures_requests files
    have column : (invalidHash ⟨10, 1, 11⟩).Foreign bytes := foreign_invalidHash (by decide) (by decide)
    simp only [requests, List.forall_mem_cons, defined, load]
    exact ⟨by simpa using column, by simp, by simp [Request.failures], by simp⟩
  clear_value files
  -- What has been shown of all lines is applied to this one.
  obtain ⟨m, ran, enclosed, lone⟩ := line_agrees_text files requests read
  obtain ⟨_, _, mirrors, idle⟩ := mirrors_standard files
  obtain ⟨m', _, ran', mirrors, idle⟩ := mirrors.session requests idle
  obtain rfl : m = m' := by
    rw [ran] at ran'
    exact (EStateM.Result.ok.inj ran').2
  refine ⟨diagnostics_quoted.1, m, ran, enclosed (fun id name v found => ?_) ?_, ?_⟩
  -- Nothing that the requests bound has the place of the token.
  · rw [mirrors.binding?] at found
    exact World.foreign_session loaded brought id name v found
  · rw [mirrors.files, World.files_session]
    exact loaded
  · -- The limit that was set allows a reduction, and the line needs one.
    have allowed : 0 < m.world.limit := by
      rw [mirrors.limit, limited]
      decide
    obtain ⟨v, m₁, v', m₂, line, text, same, _⟩ := lone _ rfl fun alarm =>
      Act.unreached_quoted mirrors idle allowed read quoted alarm
    exact ⟨v, m₁, v', m₂, line, text, same⟩

/-- A source with one value is answered with one handle, which is seen as that value. -/
theorem Mirrors.answers_single (mirrors : Mirrors True mine store m w) (idle : m.depth = 0)
    {source : Source} {t : Value} (answer : (Run.evaluateSource source w).1 = .ok [t]) :
    ∃ v m', Act.evaluateSource source m = .ok (.ok [v]) m' ∧ m'.heap.view v = t := by
  have ready : Ready m.world.limit 0 m Scopes.global := ⟨mirrors.global, rfl, idle⟩
  obtain ⟨_, m', _, ran, _, _, good⟩ := (Act.follows_evaluateSource mirrors ready source).ok
  rw [answer] at good
  obtain ⟨v, rfl, view⟩ := good.single
  exact ⟨v, m', ran, view⟩

/-- A comparison with a quoted token that means nothing is read with its diagnostic. -/
theorem read_comparison : ∃ forms, Form.parse (Text.encode "== x     {#a}") = .ok forms ∧
    Form.toValues Primitive.all forms =
      [.primitive .equal, .symbol "x", .qexpr [.error (invalidHash ⟨10, 1, 11⟩)]] ∧
    Form.toValues Primitive.all (forms.map Form.enclosed) =
      [.primitive .equal, .symbol "x", .qexpr [.error (invalidHash ⟨11, 1, 12⟩)]] := by
  refine ⟨[.atom ⟨0, 1, 1⟩ (.reserved Primitive.equal.name), .atom ⟨3, 1, 4⟩ (.symbol "x"),
    .list ⟨9, 1, 10⟩ .qexpr [.atom ⟨10, 1, 11⟩ (Token.malformed ⟨10, 1, 11⟩
      ("invalid symbol " ++ Text.quoted "#a"))]], ?_, rfl, ?_⟩
  · rw [Form.parse_encode]
    rfl
  · simp only [List.map_cons, List.map_nil, Form.enclosed, Atom.enclosed_malformed]
    rfl

/-- A comparison with a name that is bound to a diagnostic depends on where its token is. -/
theorem Mirrors.compares (mirrors : Mirrors True mine store m w) (idle : m.depth = 0)
    (allowed : 0 < m.world.limit)
    (bound : w.scopes.lookup Scopes.global "x" = .qexpr [.error (invalidHash ⟨10, 1, 11⟩)]) :
    (∃ v m₁, Act.evaluateSource (.line (Text.encode "== x     {#a}")) m = .ok (.ok [v]) m₁ ∧
      m₁.heap.view v = .bool true) ∧
    ∃ v m₂, Act.evaluateSource (.text (Text.enclosed (Text.encode "== x     {#a}"))) m =
        .ok (.ok [v]) m₂ ∧ m₂.heap.view v = .bool false := by
  -- A list that holds a failure is the same as another when the failures are.
  obtain ⟨forms, read, meaning, enclosed⟩ := read_comparison
  have positive : 0 < w.limit := mirrors.limit ▸ allowed
  have errors : ∀ e e' : Failure, (Value.qexpr [.error e]).same (.qexpr [.error e']) = (e == e') := by
    intro e e'
    simp [Value.qexpr, Value.same, Value.sameAll]
  -- The line compares a token with itself, and the text in brackets with one a column further.
  constructor
  · refine mirrors.answers_single idle ?_
    rw [Run.evaluateSource_line read, Run.single_run, meaning, Run.evaluate_equal positive bound,
      errors, beq_self_eq_true]
  · -- Between brackets the token is one column further.
    have apart : invalidHash ⟨10, 1, 11⟩ ≠ invalidHash ⟨11, 1, 12⟩ := by
      rw [invalidHash, invalidHash, ne_eq, Failure.diagnostic_inj]
      rintro ⟨_, column, _⟩
      exact absurd column (by decide)
    have differs := Run.evaluate_equal positive bound [.error (invalidHash ⟨11, 1, 12⟩)]
    rw [errors, beq_false_of_ne apart] at differs
    refine mirrors.answers_single idle ?_
    rw [Run.evaluateSource_lone (Form.parse_enclosed read), Run.single_run, Form.toValue, enclosed]
    exact congrArg (fun v => Except.ok [v]) differs

/-- After the definition the comparison depends on where its token is. -/
theorem Mirrors.compares_defined (mirrors : Mirrors True mine store m w) (idle : m.depth = 0)
    (allowed : 0 < m.world.limit) :
    ∃ m', [Request.evaluate (.text (Text.encode "(def {x} {#a})"))].forM Act.perform m = .ok () m' ∧
      (∃ v m₁, Act.evaluateSource (.line (Text.encode "== x     {#a}")) m' = .ok (.ok [v]) m₁ ∧
        m₁.heap.view v = .bool true) ∧
      ∃ v m₂, Act.evaluateSource (.text (Text.enclosed (Text.encode "== x     {#a}"))) m' =
          .ok (.ok [v]) m₂ ∧ m₂.heap.view v = .bool false := by
  obtain ⟨form, read, means⟩ := read_definition
  have positive : 0 < w.limit := mirrors.limit ▸ allowed
  obtain ⟨m', store', ran, mirrors', idle'⟩ :=
    mirrors.session [.evaluate (.text (Text.encode "(def {x} {#a})"))] idle
  rw [Run.after_define positive read means] at mirrors'
  exact ⟨m', ran, mirrors'.compares idle' (mirrors'.limit ▸ positive)
    (Scopes.lookup_bind_global (mirrors.made.mpr mirrors.global) "x" _)⟩

/--
The two ways to evaluate a line can be told apart by a diagnostic from elsewhere.

A name is bound to an error whose message is the one that a token of the line has, and then the error
of that token is compared with it. Between brackets the token is one column further.
-/
theorem line_disagrees_text :
    let bytes := Text.encode "== x     {#a}"
    let define := Request.evaluate (.text (Text.encode "(def {x} {#a})"))
    (∃ forms, Form.parse bytes = .ok forms) ∧
    ∃ m, [define].forM Act.perform (Machine.standard fun _ => .error .missing) = .ok () m ∧
      (∃ v m₁, Act.evaluateSource (.line bytes) m = .ok (.ok [v]) m₁ ∧
        m₁.heap.view v = .bool true) ∧
      ∃ v m₂, Act.evaluateSource (.text (Text.enclosed bytes)) m = .ok (.ok [v]) m₂ ∧
        m₂.heap.view v = .bool false := by
  obtain ⟨forms, read, _⟩ := read_comparison
  obtain ⟨_, store, mirrors, idle⟩ := mirrors_standard fun _ => .error .missing
  refine ⟨⟨forms, read⟩, mirrors.compares_defined idle ?_⟩
  rw [Machine.limit_standard]
  decide

end QLisp.Shared
