import QLisp.Proofs.Formals
import QLisp.Proofs.Shared.FollowList

/-!
Operators that evaluate, and functions, follow their results on values.

Whatever they evaluate is handed to an evaluator that is known to follow one on values. While it
runs, everything that is needed later is on containers that it may not change.
-/

namespace QLisp.Shared

variable {proper : Prop} {mine mine' store store' : CellId → Prop} {m m' : Machine}
  {w : World Value} {a : CellId}
  {ts : List Value} {ids : List CellId} {kind : ListKind} {limit depth : Nat} {scope : ScopeId}

/-- A machine can go on in a scope, with a limit and so many reductions in progress. -/
structure Ready (limit depth : Nat) (m : Machine) (scope : ScopeId) : Prop where
  /-- The scope has been made. -/
  made : m.world.scopes.Made scope
  /-- So many reductions may be in progress. -/
  limit : m.world.limit = limit
  /-- So many reductions are in progress. -/
  depth : m.depth = depth

namespace Ready

/-- A machine stays ready. -/
theorem move (ready : Ready limit depth m scope) (moves : Moves mine store m store' m') :
    Ready limit depth m' scope :=
  ⟨moves.scopes scope ready.made, moves.limit.trans ready.limit, moves.depth.trans ready.depth⟩

/-- Containers do not matter for being ready. -/
theorem edit (ready : Ready limit depth m scope) {h' : Heap} :
    Ready limit depth { m with heap := h' } scope :=
  ⟨ready.made, ready.limit, ready.depth⟩

/-- A machine is ready in any other scope that has been made. -/
theorem within (ready : Ready limit depth m scope) {other : ScopeId}
    (made : m.world.scopes.Made other) : Ready limit depth m other :=
  ⟨made, ready.limit, ready.depth⟩

end Ready

/-- An evaluator follows one on values, given the limit and the reductions in progress. -/
def Simulates (proper : Prop) (limit depth : Nat) (ev : Evaluator) (ev' : QLisp.Evaluator) : Prop :=
  ∀ {mine store : CellId → Prop} {m : Machine} {w : World Value} {scope : ScopeId} {v : Handle}
    {t : Value}, Mirrors proper mine store m w → Ready limit depth m scope →
    Yields proper mine store m v t →
    Act.Follows proper mine store m w (ev scope v) (ev' scope t) (Yields proper mine)

/-- Handles stand for values in order, all on owned containers. -/
def YieldsAll (proper : Prop) (mine store : CellId → Prop) (m : Machine) (vs : List Handle)
    (ts : List Value) : Prop :=
  ∃ ids, HoldsAll m.heap (m.sound proper) vs ts ids ∧ Free mine store m.heap ids

namespace Act

variable {ev : Evaluator} {ev' : QLisp.Evaluator} (p : Primitive)

/-- The list in round brackets with the container of a list is owned like that list. -/
theorem follows_retag (mirrors : Mirrors proper mine store m w) {v : Handle} {t : Value}
    (fits : proper → ∃ items, t = .qexpr items) (yields : Yields proper mine store m v t) :
    Follows proper mine store m w (liftM (ListOp.retag .sexpr v)) (pure (.sexpr t.items))
      fun store' m' u s => store = store' ∧ m = m' ∧ Yields proper mine store m u s := by
  obtain ⟨ids, holds, free⟩ := yields
  -- What has no container cannot be proper.
  have missing : ¬ proper → ListOp.retag .sexpr v m.heap = .error (.notAList v.kind) m.heap →
      Follows proper mine store m w (liftM (ListOp.retag .sexpr v)) (pure (.sexpr t.items))
        fun store' m' u s => store = store' ∧ m = m' ∧ Yields proper mine store m u s :=
    fun improper ran => follows_fault improper (lift_error ran) nofun
  cases holds with
  | atom same =>
    refine missing (fun held => ?_) ?_
    · obtain ⟨items, rfl⟩ := fits held
      cases v <;> cases same
    · cases v <;> cases same <;> rfl
  | lambda =>
    refine missing (fun held => ?_) rfl
    obtain ⟨items, other⟩ := fits held
    cases other
  | list inside =>
    -- A list keeps its container and its elements, and only the tag is another.
    refine .inl ⟨_, m, store, lift_ok rfl, mirrors, .refl mine store m, rfl, rfl, ?_⟩
    exact ⟨_, .list inside, free⟩
  | bareList allowed => exact missing allowed rfl

/-- Evaluating a quoted list as a call follows evaluating its elements as one. -/
theorem follows_quoted (sim : Simulates proper limit depth ev ev')
    (mirrors : Mirrors proper mine store m w)
    (ready : Ready limit depth m scope) {v : Handle} {t : Value}
    (fits : proper → ∃ items, t = .qexpr items) (yields : Yields proper mine store m v t) :
    Follows proper mine store m w (do ev scope (← ListOp.retag .sexpr v))
      (ev' scope (.sexpr t.items))
      (Yields proper mine) := by
  show Follows proper mine store m w _ (pure (.sexpr t.items) >>= ev' scope) _
  refine (follows_retag mirrors fits yields).bind fun store' m' u mirrors _ ⟨same, still, yields⟩ => ?_
  subst same still
  exact sim mirrors ready yields

/-- Evaluating the only argument follows evaluating its value. -/
theorem follows_evaluateOne (sim : Simulates proper limit depth ev ev')
    (mirrors : Mirrors proper mine store m w)
    (ready : Ready limit depth m scope) (arguments : Arguments proper mine store m a ts ids) :
    Follows proper mine store m w (evaluateOne ev scope p (.list kind a))
      (Run.orFail (p.onOne .ok ts) fun t => ev' scope t.unquote) (Yields proper mine) := by
  -- A quoted list is retagged in its own container; other values are evaluated as they are.
  refine follows_count p mirrors arguments 1 (fun wrong => ?_) fun one => ?_
  · rw [onOne_of_ne p wrong]
    rfl
  · obtain ⟨t, rfl⟩ := List.length_eq_one_iff.mp one
    -- The argument is taken off the list, and the list is given up.
    refine .pop mirrors arguments kind fun v h' ids₁ ids₂ _ edits mirrors head _ free => ?_
    have yields : Yields proper mine store { m with heap := h' } v t := ⟨ids₁, head, free.left⟩
    have ready : Ready limit depth { m with heap := h' } scope := ready.edit
    by_cases quoted : t.kind = .list .qexpr
    · -- A quoted list is evaluated as a call.
      rw [if_pos (head.kind.trans quoted)]
      obtain ⟨items, rfl⟩ := Value.eq_list_of_kind quoted
      exact follows_quoted sim mirrors ready (fun _ => ⟨items, rfl⟩) yields
    · rw [if_neg fun other => quoted (head.kind.symm.trans other)]
      -- Any other value is evaluated as it is, so nothing is unquoted.
      have same : t.unquote = t := by
        cases t with
        | list kind items =>
          cases kind with
          | qexpr => exact absurd rfl quoted
          | sexpr => rfl
        | _ => rfl
      show Follows proper mine store _ w (ev scope v) (ev' scope t.unquote) _
      rw [same]
      exact sim mirrors ready yields

/-- Two branches are both required to be quoted before either is taken. -/
theorem expectKind_branches {h : Heap} {rule : HandleRule} {v v' : Handle} {t t' : Value}
    {ids' : List CellId} (left : Holds h rule v t ids) (right : Holds h rule v' t' ids') :
    ([v, v'].forM fun u => expectKind p.name (.list .qexpr) u.kind) =
      (p.quotedItems t >>= fun _ => (p.quotedItems t').map fun _ => ()) := by
  show (expectKind p.name (.list .qexpr) v.kind >>= fun _ =>
    expectKind p.name (.list .qexpr) v'.kind >>= fun _ => pure PUnit.unit) = _
  rw [expectKind_quoted p left, expectKind_quoted p right]
  cases p.quotedItems t with
  | error failure => rfl
  | ok items => cases p.quotedItems t' <;> rfl

/-- Evaluating the branch that a condition selects follows evaluating its value. -/
theorem follows_branch (sim : Simulates proper limit depth ev ev')
    (mirrors : Mirrors proper mine store m w)
    (ready : Ready limit depth m scope) (arguments : Arguments proper mine store m a ts ids) :
    Follows proper mine store m w (branch ev scope p (.list kind a))
      (Run.orFail (p.branch ts) fun items => ev' scope (.sexpr items)) (Yields proper mine) := by
  -- With another number of arguments both fail, with the same number in the failure.
  refine follows_count p mirrors arguments 3 (fun wrong => ?_) fun three => ?_
  · rcases ts with _ | ⟨t, _ | ⟨t', _ | ⟨t'', _ | ⟨_, rest⟩⟩⟩⟩
    · rfl
    · rfl
    · rfl
    · exact absurd rfl wrong
    · rfl
  · rcases ts with _ | ⟨t, _ | ⟨t', _ | ⟨t'', _ | ⟨_, rest⟩⟩⟩⟩ <;> simp at three
    -- The condition is taken off first, and looked at before the branches.
    refine .pop mirrors arguments kind fun v h' ids₁ ids₂ _ edits mirrors head remaining _ => ?_
    have ready : Ready limit depth { m with heap := h' } scope := ready.edit
    refine .congr ?_ (glance_bind _ _)
    rw [head.glance, p.condition_glanced]
    show Follows proper mine store _ w _ (Run.orFail (p.condition t >>= fun chosen =>
      p.quotedItems t' >>= fun first => p.quotedItems t'' >>= fun second =>
        pure (if chosen then first else second)) _) (Yields proper mine)
    rw [orFail_bind]
    refine follows_orFail mirrors fun chosen _ => ?_
    refine .congr ?_ (elements_bind _ _)
    -- The two handles that are left stand for the branches.
    obtain ⟨u, us, ids₃, ids₄, found, rfl, first, tail⟩ := remaining.inside.eq_cons
    obtain ⟨u', us', ids₅, ids₆, rfl, rfl, second, none⟩ := tail.eq_cons
    obtain ⟨rfl, rfl⟩ := none.eq_nil
    rw [show h'.elements (.list kind a) = [u, u'] from found, expectKind_branches p first second]
    -- Both branches have to be quoted lists, also the one that is not taken.
    cases left : p.quotedItems t' with
    | error failure => exact follows_atom mirrors rfl
    | ok items =>
      cases right : p.quotedItems t'' with
      | error failure => exact follows_atom mirrors rfl
      | ok items' =>
        obtain rfl := eq_of_quotedItems p left
        obtain rfl := eq_of_quotedItems p right
        have owned : Free mine store h' (ids₃ ++ ids₅) := by simpa using remaining.inner
        -- The handles of both branches are read at their indices.
        have read : ListOp.element (.list kind a) 0 h' = .ok u h' :=
          ListOp.element_ok (show (h'.items a)[0]? = some u by simp [found])
        have read' : ListOp.element (.list kind a) 1 h' = .ok u' h' :=
          ListOp.element_ok (show (h'.items a)[1]? = some u' by simp [found])
        refine .congr ?_ (bind_ok (lift_ok read') _)
        -- The branch that is not taken is given up with the list.
        cases chosen with
        | true =>
          refine .congr (m := { m with heap := h' }) ?_ (bind_ok (lift_ok read) _)
          exact follows_quoted sim mirrors ready (fun _ => ⟨items, rfl⟩) ⟨ids₃, first, owned.left⟩
        | false =>
          exact follows_quoted sim mirrors ready (fun _ => ⟨items', rfl⟩) ⟨ids₅, second, owned.right⟩

/-- Evaluating expressions in order, each in fresh containers, follows evaluating them. -/
theorem follows_each (sim : Simulates proper limit depth ev ev')
    (mirrors : Mirrors proper mine store m w)
    (ready : Ready limit depth m scope) (plain : ∀ t ∈ ts, ∀ rule, t.Obeys rule) :
    Follows proper mine store m w (each ev scope ts) (Run.each ev' scope ts)
      (YieldsAll proper mine) := by
  -- The induction is on the expressions; a later one may not change the results so far.
  induction ts generalizing mine store m w with
  | nil => exact follows_pure mirrors ⟨[], .nil, .nil⟩
  | cons t rest ih =>
    rw [each, Run.each, List.mapM_cons, List.mapM_cons]
    -- An expression is placed on the heap, and evaluated there.
    have first : Follows proper mine store m w (do ev scope (← ListOp.place t)) (ev' scope t)
        (Yields proper mine) := by
      refine .place mirrors (plain t List.mem_cons_self _) fun v h' _ mirrors yields => ?_
      exact sim mirrors ready.edit yields
    refine first.bind fun store₁ m₁ v mirrors₁ moves ⟨ids₁, head, free₁⟩ => ?_
    have later := ih (mirrors₁.narrow []) (ready.move moves) fun t member =>
      plain t (List.mem_cons_of_mem _ member)
    have wider := mirrors₁.only [] (by simp)
    refine later.bindWithin wider fun store₂ m₂ vs mirrors₂ moves₂ ⟨ids₂, tail, free₂⟩ => ?_
    -- The results are held together, on containers that nobody else has.
    refine follows_pure mirrors₂ ⟨ids₁ ++ ids₂, .cons ?_ tail, ?_⟩
    · exact moves₂.holds head free₁.made (Machine.not_only free₁.made (by simp))
    · exact free₁.later (by simp) free₂ (moves₂.free free₁) wider

/-- The errors among handles are read as the errors among their values. -/
theorem views_errors {vs : List Handle} (yields : YieldsAll proper mine store m vs ts) :
    views (vs.filter (·.isError)) m = .ok (ts.filter (·.isError)) m := by
  obtain ⟨ids, holds, free⟩ := yields
  have enough := length_le_of_made free.once free.made
  -- The handles have the values as their views, and the views are errors when the handles are.
  have values : vs.map m.heap.view = ts := holds.viewWith enough
  have ends : vs.all m.heap.ends = true := holds.endsWith enough
  have kinds : (fun v : Handle => v.isError) = fun v => (m.heap.view v).isError :=
    funext fun v => (m.heap.isError_view v).symm
  have errors : (vs.filter (·.isError)).map m.heap.view = ts.filter (·.isError) := by
    rw [← values, List.filter_map, kinds]
    rfl
  have some : (vs.filter (·.isError)).all m.heap.ends = true := by
    rw [List.all_eq_true] at ends ⊢
    exact fun v member => ends v ((List.mem_filter.mp member).1)
  -- Only the errors are looked at, and they end like all results.
  rw [views_run, if_pos some, errors]

/-- Loading a file follows loading it. -/
theorem follows_load (sim : Simulates proper limit depth ev ev')
    (mirrors : Mirrors proper mine store m w)
    (ready : Ready limit depth m scope) (path : Text.Bytes) :
    Follows proper mine store m w (load ev scope path) (do Run.load ev' (← Run.root scope) path)
      (Yields proper mine) := by
  show Follows proper mine store m w _ (Run.load ev' (w.scopes.root scope) path) (Yields proper mine)
  refine (follows_readFile mirrors path).bind fun store₁ m₁ contents mirrors₁ moves same => ?_
  have outermost : m₁.world.scopes.root scope = w.scopes.root scope := mirrors₁.root scope
  rw [← same]
  -- A file that cannot be opened or read is a failure on both sides.
  cases contents with
  | error fault => exact follows_atom mirrors₁ rfl
  | ok bytes =>
    dsimp only
    cases parsed : Form.parse (withoutInterpreterLine bytes) with
    | error e => exact follows_atom mirrors₁ rfl
    | ok forms =>
      have made := (ready.move moves).made
      -- The outermost scope is the same on both sides, and the file is loaded there.
      refine .congr ?_ (bind_ok (root_made made) _)
      rw [outermost]
      have outer : Ready limit depth m₁ (w.scopes.root scope) :=
        (ready.move moves).within (outermost ▸ (Scopes.root_outermost mirrors₁.ordered made).1)
      -- Forms hold no functions, so they are sound on any machine.
      have plain : ∀ t ∈ Form.toValues Primitive.all forms, ∀ rule, t.Obeys rule :=
        fun t member _ => Form.obeys_of_mem_toValues member
      refine (follows_each sim mirrors₁ outer plain).bind fun store₂ m₂ results mirrors₂ _ yields => ?_
      -- The errors are written as they are seen, and the result is the empty list.
      refine .congr ?_ (bind_ok (views_errors yields) _)
      exact (follows_write mirrors₂ _).bind fun _ _ _ mirrors _ _ => follows_unit mirrors

/-- Loading the file that the only argument names follows loading it. -/
theorem follows_loadNamed (sim : Simulates proper limit depth ev ev')
    (mirrors : Mirrors proper mine store m w)
    (ready : Ready limit depth m scope) (arguments : Arguments proper mine store m a ts ids) :
    Follows proper mine store m w (onOne p (.list kind a) (loadNamed ev scope p))
      (Run.orFail (p.path ts) fun path => do Run.load ev' (← Run.root scope) path)
      (Yields proper mine) := by
  -- A path is the text of the only argument.
  have path : Run.orFail (p.path ts) (fun path => do Run.load ev' (← Run.root scope) path) =
      Run.orFail (p.onOne .ok ts) (fun t =>
        Run.orFail (p.path [t]) fun path => do Run.load ev' (← Run.root scope) path) := by
    rcases ts with _ | ⟨t, _ | ⟨t', rest⟩⟩
    · rfl
    · rfl
    · cases t <;> rfl
  -- So the path is taken off like any only argument.
  rw [path]
  refine follows_onOne p mirrors arguments fun v t holds _ => ?_
  cases holds with
  | atom same =>
    cases v <;> simp only [Handle.atom?, Option.some.injEq, reduceCtorEq] at same <;> subst same
    case string text => exact follows_load sim mirrors ready text
    all_goals exact follows_atom mirrors rfl
  | _ => exact follows_atom mirrors rfl

/-- Evaluating a quoted list in a scope of its own follows doing so with its elements. -/
theorem follows_block (sim : Simulates proper limit depth ev ev')
    (mirrors : Mirrors proper mine store m w)
    (ready : Ready limit depth m scope) (arguments : Arguments proper mine store m a ts ids) :
    Follows proper mine store m w (onOne p (.list kind a) (block ev scope p))
      (Run.orFail (p.onOne .ok ts) fun body => Run.orFail (p.quotedItems body) fun items => do
        ev' (← Run.enter (some scope) []) (.sexpr items)) (Yields proper mine) := by
  refine follows_onOne p mirrors arguments fun v t holds free => ?_
  -- The block has to be a quoted list, which is seen from its handle.
  rw [block, expectKind_quoted p holds, orFail_forget]
  refine follows_orFail mirrors fun items quoted => ?_
  obtain rfl := eq_of_quotedItems p quoted
  show Follows proper mine store m w _ (pure (.sexpr items) >>= fun list =>
    Run.enter (some scope) [] >>= fun own => ev' own list) (Yields proper mine)
  refine (follows_retag mirrors (fun _ => ⟨items, rfl⟩) ⟨ids, holds, free⟩).bind
    fun store' m' u mirrors _ ⟨same, still, yields⟩ => ?_
  subst same still
  -- Making the scope leaves the list as it is.
  have made : ∀ s ∈ some scope, m.world.scopes.Made s := by simpa using ready.made
  have entered := follows_enter (mirrors.narrow []) made
  refine entered.bindWithin (mirrors.only [] (by simp)) fun store₁ m₁ own mirrors₁ moves same => ?_
  rw [← same.1]
  exact sim mirrors₁ ((ready.move moves).within same.2) (yields.keep moves)

/-- Requiring a clause decides as taking its parts does. -/
theorem expectClause_run {h : Heap} {rule : HandleRule} {v : Handle} {t : Value}
    (holds : Holds h rule v t ids) :
    expectClause p v h = .ok ((p.clause t).map fun _ => ()) h := by
  -- A clause is a quoted list of two; whatever else it is, the refusal is the same.
  by_cases quoted : t.kind = .list .qexpr
  · obtain ⟨items, rfl⟩ := Value.eq_list_of_kind quoted
    obtain ⟨inner, inside⟩ := holds.elements
    -- The list is held with as many elements as it has, so the same number is refused.
    have read : expectClause p v h = .ok (expectCount p.name 2 (h.elements v).length) h := by
      rw [expectClause, if_neg (by simpa [holds.kind] using quoted)]
      rfl
    rw [read, inside.length_eq]
    rcases items with _ | ⟨t, _ | ⟨t', _ | ⟨t'', rest⟩⟩⟩ <;> rfl
  · have other : v.kind ≠ .list .qexpr := holds.kind ▸ quoted
    have failed : expectClause p v h = .ok (.error (.wrongType p.name (.list .qexpr) v.kind)) h := by
      rw [expectClause, if_pos other]
      rfl
    rw [failed, holds.kind]
    cases t with
    | list kind items =>
      cases kind with
      | qexpr => exact absurd rfl quoted
      | sexpr => rfl
    | _ => rfl

/-- A clause is a quoted list of two elements. -/
theorem eq_of_clause {t : Value} {parts : Value × Value} (taken : p.clause t = .ok parts) :
    t = .qexpr [parts.1, parts.2] := by
  -- All but a quoted list of two elements is refused.
  cases t with
  | list kind items =>
    cases kind with
    | sexpr => cases taken
    | qexpr =>
      rcases items with _ | ⟨t, _ | ⟨t', _ | ⟨t'', rest⟩⟩⟩
      · cases taken
      · cases taken
      · cases taken
        rfl
      · cases taken
  | _ => cases taken

/--
Taking clauses out of the arguments until one is selected follows going through their values.

A condition may change its own containers only, so the result beside it and the clauses after it
are as they were when it has been evaluated.
-/
theorem follows_selectFrom (sim : Simulates proper limit depth ev ev')
    (mirrors : Mirrors proper mine store m w)
    (ready : Ready limit depth m scope) (arguments : Arguments proper mine store m a ts ids)
    {clauses : List (Value × Value)} (checked : ts.mapM p.clause = .ok clauses) {count : Nat}
    (enough : ts.length < count) :
    Follows proper mine store m w (selectFrom ev scope (.list kind a) count)
      (Run.select ev' scope clauses) (Yields proper mine) := by
  -- The induction is on the clauses that are left; each round takes one off the list.
  induction ts generalizing store m w ids clauses count with
  | nil =>
    cases checked
    obtain ⟨none, _⟩ := arguments.inside.eq_nil
    -- With no clause left, the selection fails on both sides.
    cases count with
    | zero => simp at enough
    | succ count =>
      refine .congr ?_ (elements_bind _ _)
      rw [Heap.elements_list, none]
      exact follows_atom mirrors rfl
  | cons t rest ih =>
    obtain ⟨⟨condition, result⟩, others, taken, checkedRest, rfl⟩ := mapM_cons_ok checked
    obtain rfl := eq_of_clause p taken
    obtain ⟨v, vs, found⟩ := arguments.exists_cons
    cases count with
    | zero => simp at enough
    | succ count =>
      refine .congr ?_ (elements_bind _ _)
      rw [Heap.elements_list, found]
      -- The clause is taken off the list, and the condition off the clause.
      refine .pop mirrors arguments kind fun clause h₁ ids₁ ids₂ _ _ mirrors head remaining free => ?_
      obtain ⟨id, inner, rfl, rfl, inside⟩ := head.eq_filled (by simp)
      -- The clause is a list of its own, with a condition and a result.
      have list : Arguments proper mine store { m with heap := h₁ } id [condition, result] inner :=
        ⟨inside, free.left⟩
      refine .pop mirrors list .qexpr fun test h₂ ids₃ ids₄ same edits mirrors tested left free' => ?_
      subst same
      -- The clause shares no container with those that come after it.
      have apart : ∀ c ∈ a :: ids₂, c ∉ id :: (ids₃ ++ ids₄) := fun c here there =>
        free.disjoint there here
      have others := remaining.edit edits fun c member edited =>
        apart c member (List.mem_singleton.mp edited ▸ List.mem_cons_self)
      have wider := mirrors.only ids₃ free'.left.mine
      have ready₂ : Ready limit depth { m with heap := h₂ } scope := ready.edit
      -- The condition is evaluated, and may change the containers of nothing else.
      refine (sim (mirrors.narrow ids₃) ready₂ ⟨ids₃, tested, free'.left.only⟩).bindWithin wider
        fun store₃ m₃ u mirrors₃ moves yields => ?_
      -- The result of the clause and the clauses after it have not been touched.
      have left₃ := left.move moves (Machine.not_only left.free.made fun c here there =>
        free'.disjoint there here)
      have others₃ := others.move moves (Machine.not_only others.free.made fun c here there =>
        apart c here (List.mem_cons_of_mem _ (List.mem_append_left _ there)))
      have ready₃ := ready₂.move moves
      have ⟨ids₅, holds, _⟩ := yields
      -- A condition that fails is the result; otherwise it selects its own result or goes on.
      by_cases failed : u.isError
      · rw [if_pos failed, if_pos (holds.isError ▸ failed)]
        exact follows_pure mirrors₃ (yields.mono wider)
      · rw [if_neg failed, if_neg (holds.isError ▸ failed)]
        refine .congr ?_ (glance_bind _ _)
        rw [holds.glance, Primitive.condition_glanced]
        refine follows_orFail mirrors₃ fun chosen _ => ?_
        cases chosen with
        | true =>
          refine .pop mirrors₃ left₃ .qexpr fun v h₄ ids₆ _ _ _ mirrors₄ head _ free₄ => ?_
          exact sim mirrors₄ ready₃.edit ⟨ids₆, head, free₄.left⟩
        | false => exact ih mirrors₃ ready₃ others₃ checkedRest (by simpa using enough)

/-- Selecting the first clause whose condition holds follows selecting it among the values. -/
theorem follows_select (sim : Simulates proper limit depth ev ev')
    (mirrors : Mirrors proper mine store m w)
    (ready : Ready limit depth m scope) (arguments : Arguments proper mine store m a ts ids) :
    Follows proper mine store m w (select ev scope p (.list kind a))
      (Run.orFail (ts.mapM p.clause) (Run.select ev' scope)) (Yields proper mine) := by
  have checks := expectAll_run (expectClause_run p) arguments.inside
  refine .congr ?_ (elements_bind _ _)
  refine .congr (m := m) ?_ (bind_ok (lift_ok checks) _)
  rw [orFail_forget, arguments.length kind]
  refine follows_orFail mirrors fun clauses checked => ?_
  exact follows_selectFrom p sim mirrors ready arguments checked
    (Nat.lt_add_of_pos_right (by decide))

/-- Applying a primitive operation in place follows applying it to the values. -/
theorem follows_applyPrimitive (sim : Simulates proper limit depth ev ev')
    (mirrors : Mirrors proper mine store m w)
    (ready : Ready limit depth m scope) (arguments : Arguments proper mine store m a ts ids) :
    Follows proper mine store m w (applyPrimitive ev scope p (.list kind a))
      (Run.applyPrimitive ev' scope p ts) (Yields proper mine) := by
  -- Each operation has a lemma of its own, by what it does with its arguments.
  cases p with
  | add | sub | mul | div | rem => exact follows_arithmetic _ mirrors arguments
  | list => exact follows_list mirrors arguments
  | head => exact follows_head _ mirrors arguments
  | tail => exact follows_tail _ mirrors arguments
  | join => exact follows_concatenate _ mirrors arguments
  | cons => exact follows_putInFront _ mirrors arguments
  | eval => exact follows_evaluateOne _ sim mirrors ready arguments
  | define => exact follows_define _ mirrors ready.made arguments
  | assign => exact follows_assign _ mirrors ready.made arguments
  | lambda => exact follows_makeLambda _ mirrors arguments ready.made
  | equal =>
    exact follows_onTwo _ mirrors arguments fun v v' t t' ids₁ ids₂ left right free =>
      follows_same mirrors left right free.left id
  | unequal =>
    exact follows_onTwo _ mirrors arguments fun v v' t t' ids₁ ids₂ left right free =>
      follows_same mirrors left right free.left not
  | greater | less | greaterEq | lessEq =>
    exact follows_onTwo _ mirrors arguments fun v v' t t' ids₁ ids₂ left right _ =>
      follows_compareOrder _ mirrors left right
  | cond => exact follows_branch _ sim mirrors ready arguments
  | not =>
    exact follows_onOne_pure _ mirrors arguments fun v t holds _ => follows_negation _ mirrors holds
  | and => exact follows_connective _ mirrors arguments _
  | or => exact follows_connective _ mirrors arguments _
  | error =>
    exact follows_onOne_pure _ mirrors arguments fun v t holds _ => follows_raise _ mirrors holds
  | print => exact follows_print mirrors arguments
  | load => exact follows_loadNamed _ sim mirrors ready arguments
  | sequence => exact follows_lastOf mirrors arguments
  | block => exact follows_block _ sim mirrors ready arguments
  | select => exact follows_select _ sim mirrors ready arguments

end Act

end QLisp.Shared
