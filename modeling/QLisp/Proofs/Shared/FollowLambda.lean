import QLisp.Proofs.Shared.FollowCall

/-!
Applying a function in place follows applying it to the values.

The formals are matched with handles and with values at once, as pairs. Binding makes copies, so the
arguments and the body are as they were when the body is evaluated. Nothing is changed but the list of
the arguments, though a function that waits for further ones shares the body of the one applied.
-/

namespace QLisp.Shared

variable {proper : Prop} {mine owned store : CellId → Prop} {m : Machine} {w : World Value} {a : CellId}
  {ts : List Value} {ids : List CellId} {kind : ListKind} {limit depth : Nat} {own scope : ScopeId}

namespace Act

variable {ev : Evaluator} {ev' : QLisp.Evaluator}

/-- Binding a variadic name to the arguments that are left follows binding it to their values. -/
theorem follows_bindRest (mirrors : Mirrors proper mine store m w) (made : m.world.scopes.Made own)
    (arguments : Arguments proper mine store m a ts ids)
    (rest : Option (String × List (Handle × Value)))
    (all : ∀ r ∈ rest, r.2.map Prod.snd = ts) :
    Follows proper (m.only []) store m w
      (bindRest own (.list kind a) (rest.map fun r => (r.1, r.2.map Prod.fst)))
      (Run.bindAll own ((rest.map fun r => (r.1, r.2.map Prod.snd)).toList.map
        fun r => (r.1, .qexpr r.2))) fun _ _ _ _ => True := by
  have narrow := mirrors.narrow []
  -- The name is missing, or no argument is left for it, or some are.
  rcases rest with _ | ⟨name, _ | ⟨pair, pairs⟩⟩
  · exact .inl ⟨(), m, store, rfl, narrow, .refl _ store m, trivial⟩
  · -- No argument is left, and the name is bound to a fresh empty list.
    -- The empty list is made on the heap, where the name is bound to a copy of it.
    obtain ⟨h', ran, edits, there, items⟩ := ListOp.make_ok m.heap .qexpr []
    refine .edit ran narrow edits (by simp) fun mirrors => ?_
    have holds : Holds h' (m.sound proper) (.list .qexpr ⟨m.heap.containers.size⟩) (.qexpr [])
        [⟨m.heap.containers.size⟩] := .list (by rw [items]; exact .nil)
    exact follows_bind mirrors made name ⟨_, holds, by simp, by simpa using there⟩
  -- The list of what is left is read as a quoted list, and bound as a copy.
  · have values : (pair :: pairs).map Prod.snd = ts := all _ rfl
    have holds : Holds m.heap (m.sound proper) (.list .qexpr a) (.qexpr ts) (a :: ids) :=
      .list arguments.inside
    have read : ListOp.retag .qexpr (.list kind a) m.heap = .ok (.list .qexpr a) m.heap := rfl
    refine .congr ?_ (bind_ok (lift_ok read) _)
    show Follows proper (m.only []) store m w (bind own name (.list .qexpr a))
      (Run.bindAll own [(name, .qexpr ((pair :: pairs).map Prod.snd))]) _
    rw [values]
    exact follows_bind narrow made name (arguments.free.stands holds)

/--
Binding names to arguments as they are taken out of their list follows binding them to the values.

The body and the arguments that are left are as they were, on a machine that is ready in the scope.
-/
theorem follows_bindTaken {next : Act Handle} {next' : Run Value} {body : Handle} {body' : Value}
    {ids' : List CellId} (names : List String) (mirrors : Mirrors proper mine store m w)
    (ready : Ready limit depth m own) (bodied : Holds m.heap (m.sound proper) body body' ids')
    (arguments : Arguments proper mine store m a ts ids)
    (free : Free owned store m.heap (ids' ++ a :: ids)) (fewer : names.length ≤ ts.length)
    (later : ∀ store₁ m₁ w₁ ids₁, Mirrors proper mine store₁ m₁ w₁ → Ready limit depth m₁ own →
      (∀ {formals body scope}, (m.sound proper).functions formals body scope →
        (m₁.sound proper).functions formals body scope) →
      Holds m₁.heap (m₁.sound proper) body body' ids' →
      Arguments proper mine store₁ m₁ a (ts.drop names.length) ids₁ →
      Free owned store₁ m₁.heap (ids' ++ a :: ids₁) →
      Follows proper mine store₁ m₁ w₁ next next' (Yields proper owned)) :
    Follows proper mine store m w (bindTaken own (.list kind a) names >>= fun _ => next)
      (Run.bindAll own (names.zip ts) >>= fun _ => next') (Yields proper owned) := by
  -- By induction on the names. One argument is taken and bound; neither changes the body or the
  -- arguments that stay, since the binding is a copy.
  induction names generalizing store m w ts ids with
  | nil => exact later store m w ids mirrors ready id bodied arguments free
  | cons name rest ih =>
    cases ts with
    | nil => simp at fewer
    | cons t ts =>
      -- The argument is taken off the list of arguments, which keeps the others.
      obtain ⟨v, h₁, ids₁, ids₂, ran, edits, rfl, taken, remaining, apart⟩ := arguments.pop kind
      rw [bindTaken, bind_assoc]
      show Follows proper mine store m w _
        (Run.bindAll own [(name, t)] >>= fun _ => Run.bindAll own (rest.zip ts) >>= fun _ => next') _
      refine .step (lift_ok ran) mirrors edits arguments.own fun mirrors₁ => ?_
      -- The body is where it was, since only the list of arguments has been changed.
      have bodied₁ : Holds h₁ (m.sound proper) body body' ids' := bodied.transport
        (fun c member => edits.items (free.left.made c member) fun here =>
          free.disjoint member (List.mem_singleton.mp here ▸ List.mem_cons_self)) fun _ _ _ => id
      have free₁ := (free.edit edits).sublist ((List.Sublist.refl ids').append
        ((List.sublist_append_right ids₁ ids₂).cons_cons a))
      -- The binding makes a copy, on containers that are new.
      have bound := follows_bind (mirrors₁.narrow []) ready.made name (apart.left.stands taken)
      rw [bind_assoc]
      refine bound.bindWithin (mirrors₁.only [] (by simp)) fun store₂ m₂ _ mirrors₂ moves _ => ?_
      -- The induction goes on with the other names, when the first one is bound.
      refine ih mirrors₂ (ready.edit.move moves)
        (moves.holds bodied₁ free₁.left.made (Machine.not_only free₁.left.made (by simp)))
        (remaining.move moves (Machine.not_only remaining.free.made (by simp))) (moves.free free₁)
        (by simpa using fewer) fun store₃ m₃ w₃ ids₃ mirrors₃ ready₃ grown => ?_
      exact later store₃ m₃ w₃ ids₃ mirrors₃ ready₃ fun known => grown (moves.sound known)

/-- Entering the scope of a call and binding the first arguments in it follows doing so with values. -/
theorem follows_entered {next : ScopeId → Act Handle} {next' : ScopeId → Run Value}
    {captured : Option ScopeId} {body : Handle} {body' : Value} {ids' : List CellId}
    (names : List String) (mirrors : Mirrors proper mine store m w) (ready : Ready limit depth m scope)
    (captures : ∀ s ∈ captured, m.world.scopes.Made s)
    (bodied : Holds m.heap (m.sound proper) body body' ids')
    (arguments : Arguments proper mine store m a ts ids)
    (free : Free owned store m.heap (ids' ++ a :: ids)) (fewer : names.length ≤ ts.length)
    (later : ∀ store₁ m₁ w₁ own ids₁, Mirrors proper mine store₁ m₁ w₁ → Ready limit depth m₁ own →
      (∀ {formals body scope}, (m.sound proper).functions formals body scope →
        (m₁.sound proper).functions formals body scope) →
      Holds m₁.heap (m₁.sound proper) body body' ids' →
      Arguments proper mine store₁ m₁ a (ts.drop names.length) ids₁ →
      Free owned store₁ m₁.heap (ids' ++ a :: ids₁) →
      Follows proper mine store₁ m₁ w₁ (next own) (next' own) (Yields proper owned)) :
    Follows proper mine store m w (do
        let own ← enter captured
        bindTaken own (.list kind a) names
        next own)
      (do
        let own ← Run.enter captured (names.zip ts)
        next' own) (Yields proper owned) := by
  show Follows proper mine store m w _ (Run.enter captured [] >>= fun own =>
    Run.bindAll own (names.zip ts) >>= fun _ => next' own) (Yields proper owned)
  refine (follows_enter (mirrors.narrow []) captures).bindWithin (mirrors.only [] (by simp))
    fun store₁ m₁ own mirrors₁ moves₁ ⟨same, made⟩ => ?_
  rw [← same]
  -- The new scope changes no container.
  refine follows_bindTaken names mirrors₁ ((ready.move moves₁).within made)
    (moves₁.holds bodied free.left.made (Machine.not_only free.left.made (by simp)))
    (arguments.move moves₁ (Machine.not_only arguments.free.made (by simp))) (moves₁.free free) fewer
    fun store₂ m₂ w₂ ids₂ mirrors₂ ready₂ grown => ?_
  exact later store₂ m₂ w₂ own ids₂ mirrors₂ ready₂ fun known => grown (moves₁.sound known)

/-- Evaluating a copy of the body of a function follows evaluating its elements as a call. -/
theorem follows_body (sim : Simulates proper limit depth ev ev')
    (mirrors : Mirrors proper mine store m w)
    (ready : Ready limit depth m scope) {body : Handle} {body' : Value}
    (fits : proper → ∃ items, body' = .qexpr items)
    (yields : Yields proper owned store m body body') :
    Follows proper mine store m w (do ev scope (← ListOp.retag .sexpr (← ListOp.copy body)))
      (ev' scope (.sexpr body'.items)) (Yields proper mine) := by
  -- The copy is in new containers, so evaluating it may change them.
  obtain ⟨ids, holds, free⟩ := yields
  have stands := free.stands holds
  obtain ⟨v, h', ran, edits, yields⟩ := place_ok mirrors holds.obeys
  have copied : ListOp.copy body m.heap = .ok v h' := by
    rw [ListOp.copy_run, if_pos stands.ends, stands.view]
    exact ran
  refine .edit copied mirrors edits (by simp) fun mirrors => ?_
  exact follows_quoted sim mirrors ready.edit fits yields

/-- A function that waits for further arguments shares the body of the one that was applied. -/
theorem follows_waiting (mirrors : Mirrors proper mine store m w) {shape body' : Value}
    {body : Handle}
    {captured : Option ScopeId} (fits : (m.sound proper).functions shape body' captured)
    (obeys : shape.Obeys (m.sound proper).functions)
    (bodied : Holds m.heap (m.sound proper) body body' ids) (free : Free owned store m.heap ids)
    (wider : ∀ c, mine c → owned c) :
    Follows proper mine store m w (do return .lambda (← ListOp.place shape) body captured)
      (pure (.lambda shape body' captured)) (Yields proper owned) := by
  -- The formals are placed in containers that nobody has used.
  obtain ⟨v, h', ran, edits, ids', holds, fresh⟩ := place_ok (mirrors.narrow []) obeys
  refine .edit ran mirrors edits (by simp) fun mirrors' => follows_pure mirrors' ?_
  have kept : Holds h' (m.sound proper) body body' ids := bodied.transport
    (fun c member => edits.items (free.made c member) (by simp)) fun _ _ _ fits => fits
  have together := free.later (by simp) fresh (free.edit edits) fun c own =>
    wider c (mirrors.only [] (by simp) c own)
  exact ⟨ids' ++ ids, .lambda fits holds kept, together.perm List.perm_append_comm⟩

/--
Applying a function in place follows applying it to the values.

The function may be owned without permission to change it.
-/
theorem follows_applyLambda (sim : Simulates proper limit depth ev ev')
    (mirrors : Mirrors proper mine store m w)
    (ready : Ready limit depth m scope) {formals body : Handle} {formals' body' : Value}
    {captured : Option ScopeId} {ids' : List CellId}
    (holds : Holds m.heap (m.sound proper) (.lambda formals body captured)
      (.lambda formals' body' captured) ids')
    (arguments : Arguments proper mine store m a ts ids)
    (free : Free owned store m.heap (ids' ++ a :: ids)) (wider : ∀ c, mine c → owned c) :
    Follows proper mine store m w (applyLambda ev formals body captured (.list kind a))
      (Run.applyLambda ev' formals' body' captured ts) (Yields proper owned) := by
  -- A function is no atom, so it is held by its formals and its body.
  cases holds with
  | atom same => simp [Handle.atom?] at same
  | lambda fits formal bodied =>
    rename_i idsF idsB
    -- What is seen of the formals is how they are matched.
    have shape := free.left.left.stands formal
    refine .congr ?_ (view_bind _ _)
    rw [if_pos shape.ends, shape.view]
    refine .congr (m := m) ?_ (elements_bind _ _)
    rw [Heap.elements_list]
    -- The handles and the values are matched with the formals together, as pairs.
    let pairs := (m.heap.items a).zip ts
    have handles : pairs.map Prod.fst = m.heap.items a :=
      List.map_fst_zip (Nat.le_of_eq arguments.inside.length_eq)
    have values : pairs.map Prod.snd = ts :=
      List.map_snd_zip (Nat.le_of_eq arguments.inside.length_eq.symm)
    have matched : matchFormals formals'.items (m.heap.items a) =
        (matchFormals formals'.items pairs).map Prod.fst := by
      rw [← matchFormals_map, handles]
    have matched' : matchFormals formals'.items ts =
        (matchFormals formals'.items pairs).map Prod.snd := by
      rw [← matchFormals_map, values]
    let names := (matchFormals formals'.items pairs).bound.map (·.1)
    have taken : (matchFormals formals'.items (m.heap.items a)).bound.map (·.1) = names := by
      rw [matched, Matched.bound_map, List.map_map]
      rfl
    have bound : (matchFormals formals'.items ts).bound = names.zip ts := by
      rw [bound_eq_zip]
      congr 1
      rw [matched', Matched.bound_map, List.map_map]
      rfl
    have free' : Free owned store m.heap (idsB ++ a :: ids) :=
      free.sublist ((List.sublist_append_right idsF idsB).append (List.Sublist.refl _))
    -- No more names are bound than there are arguments.
    have fewer : names.length ≤ ts.length := by
      have most := length_bound_le formals'.items pairs
      rwa [← values, List.length_map, List.length_map]
    rw [Run.applyLambda]
    simp only [taken, bound]
    -- The arguments are bound in a new scope, as on the other side.
    refine follows_entered names mirrors ready fits.2 bodied arguments free' fewer
      fun store₁ m₁ w₁ own ids₁ mirrors₁ ready₁ grown bodied₁ remaining free₁ => ?_
    have yields : Yields proper owned store₁ m₁ body body' := ⟨idsB, bodied₁, free₁.left⟩
    rw [List.length_map] at remaining
    rw [matched, matched']
    -- How the arguments fit decides what follows their binding.
    cases found : matchFormals formals'.items pairs with
    | full bound rest =>
      -- The variadic name takes exactly the arguments that are left.
      have all : ∀ r ∈ rest, r.2.map Prod.snd = ts.drop bound.length := by
        rintro ⟨name, taken⟩ member
        rw [Option.mem_def.mp member] at found
        rw [rest_matchFormals found, List.map_drop, values]
      rw [found] at remaining
      refine (follows_bindRest mirrors₁ ready₁.made remaining rest all).bindWithin
        (mirrors₁.only [] (by simp))
        fun store₂ m₂ _ mirrors₂ moves _ => ?_
      exact (follows_body sim mirrors₂ (ready₁.move moves) fits.1 (yields.keep moves)).imp
        fun _ _ _ _ yields => yields.mono wider
    | short bound waiting =>
      have fewer : waiting ⊆ formals'.items := (waiting_suffix found).subset
      have obeys := (formal.obeys.withItems fewer).mono fun _ _ _ => grown
      exact follows_waiting mirrors₁ ⟨fits.1, by simpa using ready₁.made⟩ obeys bodied₁ free₁.left
        wider
    | excess bound =>
      -- The number of arguments that is told is the same.
      rw [arguments.inside.length_eq]
      exact follows_pure mirrors₁ (yields_atom rfl)
    | malformed bound => exact follows_pure mirrors₁ (yields_atom rfl)

/--
Applying an operator in place follows applying it to the values.

The operator may be owned without permission to change it.
-/
theorem follows_call_within (sim : Simulates proper limit depth ev ev')
    (mirrors : Mirrors proper mine store m w)
    (ready : Ready limit depth m scope) {operator : Handle} {operator' : Value} {ids' : List CellId}
    (holds : Holds m.heap (m.sound proper) operator operator' ids')
    (arguments : Arguments proper mine store m a ts ids)
    (free : Free owned store m.heap (ids' ++ a :: ids)) (wider : ∀ c, mine c → owned c) :
    Follows proper mine store m w (call ev scope operator (.list kind a))
      (Run.call ev' scope operator' ts) (Yields proper owned) := by
  -- Anything but an operation or a function is refused on both sides.
  have whole := holds
  cases holds with
  | atom same =>
    cases operator <;> simp only [Handle.atom?, Option.some.injEq, reduceCtorEq] at same <;> subst same
    case builtin operation =>
      cases operation with
      | primitive p =>
        exact (follows_applyPrimitive p sim mirrors ready arguments).imp
          fun _ _ _ _ yields => yields.mono wider
      | _ => exact follows_pure mirrors (yields_atom rfl)
    all_goals exact follows_pure mirrors (yields_atom rfl)
  -- A function is followed through its own call.
  | lambda => exact follows_applyLambda sim mirrors ready whole arguments free wider
  | _ => exact follows_pure mirrors (yields_atom rfl)

/-- Applying an operator in place follows applying it to the values. -/
theorem follows_call (sim : Simulates proper limit depth ev ev')
    (mirrors : Mirrors proper mine store m w)
    (ready : Ready limit depth m scope) {operator : Handle} {operator' : Value} {ids' : List CellId}
    (holds : Holds m.heap (m.sound proper) operator operator' ids')
    (arguments : Arguments proper mine store m a ts ids)
    (free : Free mine store m.heap (ids' ++ a :: ids)) :
    Follows proper mine store m w (call ev scope operator (.list kind a))
      (Run.call ev' scope operator' ts) (Yields proper mine) :=
  follows_call_within sim mirrors ready holds arguments free fun _ => id

end Act

end QLisp.Shared
