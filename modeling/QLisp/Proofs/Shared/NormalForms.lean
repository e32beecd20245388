import QLisp.Proofs.Settling
import QLisp.Proofs.Shared.Agreement

/-!
Evaluation gives normal forms.

Evaluation in place follows evaluation of values, so it settles what that does. No result shows what
operators were given on the way. To see it an evaluator is made to tell: it prints a text whenever an
operator is given anything but normal arguments, and its output is still the same.
-/

namespace QLisp

/-- Prints a text unless some values are normal, and not none. -/
def Run.tell {α : Type} (text : Text.Bytes) (values : List Value) : RunIn α Unit :=
  unless Value.areArguments values do Run.write text

/-- Applies an operator, telling of its arguments first. -/
def Run.callTelling (text : Text.Bytes) : Run.Caller := fun ev scope operator arguments => do
  Run.tell text arguments
  Run.call ev scope operator arguments

/-- Where the arguments are normal there is nothing to tell. -/
theorem Run.agrees_callTelling (text : Text.Bytes) : (Run.callTelling text).Agrees := by
  intro ev scope operator arguments fine
  rw [callTelling, tell, if_pos fine]
  rfl

namespace Shared

variable {proper : Prop} {mine store : CellId → Prop} {m m' : Machine} {w : World Value}

/-- A container that is seen without elements has none. -/
theorem Heap.items_of_viewItems {h : Heap} {id : CellId}
    (empty : h.viewItems h.containers.size id = []) : h.items id = [] := by
  cases size : h.containers.size with
  | zero =>
    -- No container has been made at all.
    have missing : h.containers[id.index]? = none := Array.getElem?_eq_none (by omega)
    rw [Heap.items, Heap.container, Array.getD_eq_getD_getElem?, missing]
    rfl
  | succ count =>
    rw [size, Heap.viewItems] at empty
    exact List.map_eq_nil_iff.mp empty

namespace Act

/-- Applies an operator, telling of its arguments first. -/
def callTelling (text : Text.Bytes) : Caller := fun ev scope operator arguments => do
  let machine ← get
  inWorld (Run.tell text ((machine.heap.elements arguments).map machine.heap.view))
  call ev scope operator arguments

/-- Evaluates a source, printing a text whenever an operator is given anything but normal arguments. -/
def evaluateTelling (text : Text.Bytes) (source : Source) : Act (Except SourceError (List Handle)) :=
  evaluateSourceBy (evaluateVia (callTelling text)) source

/-- What changes no container may be done before an operator is applied, on both sides. -/
theorem follows_beforeCall {limit depth : Nat} {scope : ScopeId} {ev : Evaluator}
    {ev' : QLisp.Evaluator} {operator : Handle} {operator' : Value} {a : CellId} {ts : List Value}
    {ids ids' : List CellId} {act : Act Unit} {run : Run Unit}
    (first : Follows proper (m.only []) store m w act run fun _ _ _ _ => True)
    (sim : Simulates proper limit depth ev ev') (mirrors : Mirrors proper mine store m w)
    (ready : Ready limit depth m scope)
    (head : Holds m.heap (m.sound proper) operator operator' ids')
    (arguments : Arguments proper mine store m a ts ids)
    (free : Free mine store m.heap (ids' ++ a :: ids)) :
    Follows proper mine store m w (do act; call ev scope operator (.list .sexpr a))
      (do run; Run.call ev' scope operator' ts) (Yields proper mine) := by
  -- The operator and the arguments are still there.
  refine first.bindWithin (mirrors.only [] (by simp)) fun store₁ m₁ _ mirrors₁ moves _ => ?_
  have owned : Free mine store₁ m₁.heap (ids' ++ a :: ids) := moves.free free
  have same : ∀ c ∈ ids' ++ a :: ids, ¬ m.only [] c := Machine.not_only free.made (by simp)
  have items : m₁.heap.items a = m.heap.items a := by
    rw [Heap.items, moves.frame a arguments.made (same a (by simp)), Heap.items]
  refine follows_call sim mirrors₁ (ready.move moves) (moves.holds head free.left.made fun c member =>
    same c (by simp [member])) ⟨?_, owned.right⟩ owned
  rw [items]
  exact moves.holdsAll arguments.inside arguments.inner.made fun c member => same c (by simp [member])

/-- Telling of arguments in place follows telling of their values. -/
theorem follow_callTelling (text : Text.Bytes) :
    Follow proper (callTelling text) (Run.callTelling text) := by
  intro mine store m w limit depth scope ev ev' operator operator' a ts ids ids' sim mirrors ready
    head arguments free
  -- The handles that are given are seen as the values.
  have values : (m.heap.items a).map m.heap.view = ts :=
    YieldsAll.views ⟨ids, arguments.inside, arguments.inner⟩
  have told : Follows proper (m.only []) store m w (inWorld (Run.tell text ts)) (Run.tell text ts)
      fun _ _ _ _ => True := by
    rw [Run.tell, Run.tell]
    -- What is written depends on the values only, and both sides see the same ones.
    cases Value.areArguments ts with
    | true => exact follows_pure (mirrors.narrow []) trivial
    | false => exact follows_write (mirrors.narrow []) text
  have seen : callTelling text ev scope operator (.list .sexpr a) m = (do
      inWorld (Run.tell text ((m.heap.items a).map m.heap.view))
      call ev scope operator (.list .sexpr a) : Act Handle) m := rfl
  refine .congr ?_ seen
  rw [values]
  exact follows_beforeCall told sim mirrors ready head arguments free

/-- Reducing a list without elements gives the list back, and changes nothing. -/
theorem reduce_nil (ev : Evaluator) (scope : ScopeId) {id : CellId} (empty : m.heap.items id = []) :
    reduce ev scope id m = .ok (.list .sexpr id) m := by
  have span : ListOp.span id m.heap = .ok (m.heap.span id) m.heap := rfl
  have none : (m.heap.span id).length = 0 := congrArg List.length empty
  rw [reduce, bind_ok (lift_ok span), none]
  -- No slot is evaluated, and none holds an error.
  have items : ListOp.items id m.heap = .ok [] m.heap := congrArg (EStateM.Result.ok · m.heap) empty
  have clear : findError? (m.heap.span id) 0 0 m.heap = .ok Option.none m.heap := rfl
  rw [evalSlots, pure_bind]
  exact (bind_ok (lift_ok clear) _).trans (bind_ok (lift_ok items) _)

/-- A handle on a value that is final evaluates to itself where the limit allows it. -/
theorem evaluate_final {v : Handle} (final : (m.heap.view v).isNormal ∨ (m.heap.view v).isError)
    (allowed : m.depth < m.world.limit) (scope : ScopeId) : evaluate scope v m = .ok v m := by
  -- Only a list without elements is reduced at all; everything else stands for itself.
  obtain ⟨room, left⟩ : ∃ room, m.world.limit - m.depth = room + 1 :=
    ⟨m.world.limit - m.depth - 1, by omega⟩
  rw [evaluate_run, left, eval]
  have enters : ∀ {act : Act Handle} {u : Handle}, act { m with depth := m.depth + 1 } =
      .ok u { m with depth := m.depth + 1 } → guarded act m = .ok u m := by
    intro act u ran
    -- The reduction is allowed by the limit.
    rw [guarded_run, if_neg (Nat.not_le.mpr allowed), nested_ok ran]
    rfl
  -- A symbol is never final, and of the lists only those in brackets are reduced.
  cases v with
  | symbol name => simp [Heap.view, Heap.viewWith, Value.isNormal, Value.isError, Value.kind] at final
  | list kind id =>
    cases kind with
    | qexpr => rfl
    | sexpr =>
      -- A list that is seen to be empty has no elements, and is reduced to itself.
      have seen : m.heap.viewItems m.heap.containers.size id = [] := by
        simpa [Heap.view, Heap.viewWith, Value.isNormal, Value.isError, Value.kind] using final
      exact enters (reduce_nil _ _ (Heap.items_of_viewItems seen))
  | bareList kind =>
    cases kind with
    | qexpr => rfl
    | sexpr => exact enters rfl
  | _ => rfl

/-- Carries out a request on the machine. -/
def perform : Request → Act Unit
  | .arguments list => setArguments list
  | .limit setting => setLimit setting
  | .evaluate source => do
    let _ ← evaluateSource source

/-- Binding the arguments of the program in place follows binding them. -/
theorem follows_setArguments (mirrors : Mirrors proper mine store m w) (list : List Text.Bytes) :
    Follows proper mine store m w (setArguments list) (Run.setArguments list)
      fun _ _ _ _ => True := by
  -- Strings stand on no container, so the list of them is all that is made.
  have strings : ∀ h : Heap, HoldsAll h (m.sound proper) (list.map .string) (list.map .string) [] := by
    intro h
    induction list with
    | nil => exact .nil
    | cons text rest ih => exact .cons (.atom rfl) ih
  obtain ⟨h', ran, edits, made, items⟩ := ListOp.make_ok m.heap .qexpr (list.map .string)
  -- The list is made first, and then bound in the outermost scope.
  refine .edit ran mirrors edits (by simp) fun mirrors => ?_
  refine .congr ?_ (bind_ok (root_made mirrors.global) _)
  rw [Scopes.root_global]
  refine follows_bind mirrors mirrors.global "argv" ?_
  exact ⟨_, .list (items ▸ strings h'), by simp, by simpa using made⟩

end Act

/-- A request in place leaves a machine that mirrors the world that the request leaves. -/
theorem Mirrors.perform (mirrors : Mirrors True mine store m w) (idle : m.depth = 0)
    (request : Request) : ∃ m' store', Act.perform request m = .ok () m' ∧
      Mirrors True mine store' m' (Run.after request.perform w) ∧ m'.depth = 0 := by
  -- A list is bound, the limit is set, or a source is evaluated.
  cases request with
  | arguments list =>
    obtain ⟨_, m', store', ran, mirrors', moves, _⟩ := (Act.follows_setArguments mirrors list).ok
    exact ⟨m', store', ran, mirrors', moves.depth.trans idle⟩
  | limit setting => exact ⟨_, store, rfl, mirrors.setLimit setting, idle⟩
  | evaluate source =>
    have ready : Ready m.world.limit 0 m Scopes.global := ⟨mirrors.global, rfl, idle⟩
    obtain ⟨_, m', store', ran, mirrors', moves, _⟩ :=
      (Act.follows_evaluateSource mirrors ready source).ok
    exact ⟨m', store', Act.bind_ok ran _, mirrors', moves.depth.trans idle⟩

/-- Requests in place leave a machine that mirrors the world that the requests leave. -/
theorem Mirrors.session (requests : List Request) : ∀ {store m w}, Mirrors True mine store m w →
    m.depth = 0 → ∃ m' store', requests.forM Act.perform m = .ok () m' ∧
      Mirrors True mine store' m' (Run.after (requests.forM Request.perform) w) ∧ m'.depth = 0 := by
  -- The induction is on the requests; each starts on the machine that the last one left.
  induction requests with
  | nil => exact fun mirrors idle => ⟨_, _, rfl, mirrors, idle⟩
  | cons request rest ih =>
    intro store m w mirrors idle
    obtain ⟨m₁, store₁, ran, mirrors₁, idle₁⟩ := mirrors.perform idle request
    obtain ⟨m₂, store₂, ran₂, mirrors₂, idle₂⟩ := ih mirrors₁ idle₁
    exact ⟨m₂, store₂, (Act.bind_ok ran _).trans ran₂, mirrors₂, idle₂⟩

/-- What a source is answered with, seen as values, satisfies what the answer on values does. -/
theorem Act.Answers.all {good : Value → Prop} {answer : Except SourceError (List Handle)}
    {answer' : Except SourceError (List Value)}
    (answers : Act.Answers proper mine store m answer answer')
    (all : ∀ values, answer' = .ok values → ∀ t ∈ values, good t) :
    ∀ handles, answer = .ok handles → ∀ v ∈ handles, good (m.heap.view v) := by
  rintro handles rfl v member
  cases answer' with
  | error e => exact answers.elim
  | ok values =>
    have same : handles.map m.heap.view = values := YieldsAll.views answers
    exact all values rfl _ (same ▸ List.mem_map_of_mem member)

/-- A source is answered with normal values and errors, and operators are given normal arguments. -/
theorem Mirrors.settles_source (mirrors : Mirrors True mine store m w) (idle : m.depth = 0)
    (tidy : w.Tidy) (source : Source) :
    ∃ answer m', Act.evaluateSource source m = .ok answer m' ∧
      (∀ handles, answer = .ok handles → ∀ v ∈ handles,
        (m'.heap.view v).isNormal ∨ (m'.heap.view v).isError) ∧
      ∀ text, ∃ told m'', Act.evaluateTelling text source m = .ok told m'' ∧
        m''.world.output = m'.world.output := by
  have ready : Ready m.world.limit 0 m Scopes.global := ⟨mirrors.global, rfl, idle⟩
  obtain ⟨answer, m', _, evaluated, mirrors', _, good⟩ :=
    (Act.follows_evaluateSource mirrors ready source).ok
  -- Of values the results are normal or errors, as evaluating settles them.
  have final : ∀ values, (Run.evaluateSource source w).1 = .ok values →
      ∀ t ∈ values, t.isNormal ∨ t.isError := fun values given t member =>
    ((Run.keeps_evaluateSource Run.agrees_call tidy source).good values given t member).final
  have seen := good.all final
  refine ⟨answer, m', evaluated, seen, fun text => ?_⟩
  -- Telling in place follows telling of values, where there is nothing to tell.
  obtain ⟨told, m'', _, evaluated', mirrors'', _⟩ := (Act.follows_evaluateSourceBy
    (Act.simulates_evaluateVia (Act.follow_callTelling text)) mirrors ready source).ok
  have keeps := Run.keeps_evaluateSource (Run.agrees_callTelling text) tidy source
  refine ⟨told, m'', evaluated', ?_⟩
  rw [mirrors''.output, keeps.same, mirrors'.output]

/-- A read expression evaluates to a normal value or an error, which evaluates to itself. -/
theorem Mirrors.settles_form (mirrors : Mirrors True mine store m w) (idle : m.depth = 0)
    (tidy : w.Tidy) {scope : ScopeId} (made : m.world.scopes.Made scope) (words : Vocabulary)
    (form : Form) :
    ∃ v m', (do Act.evaluate scope (← ListOp.place (form.toValue words)) : Act Handle) m = .ok v m' ∧
      ((m'.heap.view v).isNormal ∨ (m'.heap.view v).isError) ∧
      ∀ scope' m'', m''.heap.view v = m'.heap.view v → m''.depth < m''.world.limit →
        Act.evaluate scope' v m'' = .ok v m'' := by
  -- Placing the expression and evaluating it is followed on its value.
  have ready : Ready m.world.limit 0 m scope := ⟨made, rfl, idle⟩
  have follows : Act.Follows True mine store m w
      (do Act.evaluate scope (← ListOp.place (form.toValue words)) : Act Handle)
      (Run.evaluate scope (form.toValue words)) (Yields True mine) := by
    refine .place mirrors (form.obeys_toValue words) fun v h' _ mirrors yields => ?_
    exact Act.simulates_evaluate mirrors ready.edit yields
  -- The value that is found is seen in place, and it is final there.
  obtain ⟨v, m', _, evaluated, _, _, ids, holds, free⟩ := follows.ok
  have final := tidy.final scope words form
  rw [← (free.stands holds).view] at final
  refine ⟨v, m', evaluated, final, fun scope' m'' same allowed => ?_⟩
  rw [← same] at final
  exact Act.evaluate_final final allowed scope'

/--
Evaluation gives normal forms.

Any requests to a session are carried out without a fault, and on the machine that they leave all
bindings are seen as normal values. Any further source is answered with normal values and errors, and
on the way operators are given nothing but normal arguments, at least one: an evaluator that prints
some text whenever an operator is given anything else has the same output. Any expression that is
read evaluates to a normal value or an error in every scope. While this is seen as the same value it
evaluates to itself, in every scope and without a change, unless the limit allows no reduction.
-/
theorem normal_forms (files : Files) (requests : List Request) :
    ∃ m, requests.forM Act.perform (Machine.standard files) = .ok () m ∧
      (∀ id name t, m.binding? id name = some t → t.isNormal) ∧
      (∀ source, ∃ answer m', Act.evaluateSource source m = .ok answer m' ∧
        (∀ handles, answer = .ok handles → ∀ v ∈ handles,
          (m'.heap.view v).isNormal ∨ (m'.heap.view v).isError) ∧
        ∀ text, ∃ told m'', Act.evaluateTelling text source m = .ok told m'' ∧
          m''.world.output = m'.world.output) ∧
      ∀ scope, m.world.scopes.Made scope → ∀ (words : Vocabulary) (form : Form),
        ∃ v m', (do Act.evaluate scope (← ListOp.place (form.toValue words)) : Act Handle) m =
            .ok v m' ∧
          ((m'.heap.view v).isNormal ∨ (m'.heap.view v).isError) ∧
          ∀ scope' m'', m''.heap.view v = m'.heap.view v → m''.depth < m''.world.limit →
            Act.evaluate scope' v m'' = .ok v m'' := by
  obtain ⟨_, _, mirrors, idle⟩ := mirrors_standard files
  obtain ⟨m, store, ran, mirrors, idle⟩ := mirrors.session requests idle
  have tidy := (World.tidy_standard files).session requests
  refine ⟨m, ran, fun id name t bound => ?_, mirrors.settles_source idle tidy,
    fun scope made words form => mirrors.settles_form idle tidy made words form⟩
  rw [mirrors.binding?] at bound
  exact (tidy id name t bound).2

end Shared
end QLisp
