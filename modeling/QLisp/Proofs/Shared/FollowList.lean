import QLisp.Proofs.Shared.FollowScalar

/-!
Operators that take lists apart, build them or bind them follow their results on values.

The containers of the arguments are reused for the result, and none of them is used twice.
-/

namespace QLisp.Shared

variable {proper : Prop} {mine mine' store : CellId → Prop} {m : Machine} {w : World Value}
  {a : CellId}
  {ts : List Value} {ids : List CellId} {kind : ListKind} (p : Primitive)

/-- Two lists with no container in common are joined into one that owns the containers of both. -/
theorem Arguments.joined {f source : CellId} {xs row : List Value} {ids' inner : List CellId}
    {h' : Heap}
    (target : Arguments proper mine store m f xs ids')
    (other : Arguments proper mine store m source row inner)
    (apart : ∀ c ∈ source :: inner, c ∉ f :: ids') (edits : Edits [f, source] m.heap h')
    (items : h'.items f = m.heap.items f ++ m.heap.items source) :
    Arguments proper mine store { m with heap := h' } f (xs ++ row) (ids' ++ inner) := by
  have here := (List.nodup_cons.mp target.free.once).1
  have there := (List.nodup_cons.mp other.free.once).1
  constructor
  · show HoldsAll h' (m.sound proper) (h'.items f) (xs ++ row) (ids' ++ inner)
    rw [items]
    refine (target.inside.append other.inside).transport (fun c member => ?_) fun _ _ _ fits => fits
    -- Neither of the two containers is inside one of the lists.
    rcases List.mem_append.mp member with first | second
    · refine edits.items (target.inner.made c first) fun edited => ?_
      rcases List.mem_cons.mp edited with rfl | edited
      · exact here first
      · obtain rfl := List.mem_singleton.mp edited
        exact apart c List.mem_cons_self (List.mem_cons_of_mem _ first)
    · refine edits.items (other.inner.made c second) fun edited => ?_
      rcases List.mem_cons.mp edited with rfl | edited
      · exact apart c (List.mem_cons_of_mem _ second) List.mem_cons_self
      · obtain rfl := List.mem_singleton.mp edited
        exact there second
  -- Together they are free, as neither shares a container with the other.
  · show Free mine store h' ((f :: ids') ++ inner)
    refine (target.free.append other.inner fun c first second => ?_).edit edits
    exact apart c (List.mem_cons_of_mem _ second) first

namespace Act

/-- Requiring a quoted list that is not empty decides as it does on the value. -/
theorem expectItems_run {h : Heap} {rule : HandleRule} {v : Handle} {t : Value}
    (holds : Holds h rule v t ids) :
    expectItems p v h = .ok ((p.nonEmptyItems t).map fun _ => ()) h := by
  -- The kind is looked at first, and the number of elements only then.
  have same := holds.kind
  by_cases quoted : t.kind = .list .qexpr
  · obtain ⟨items, rfl⟩ := Value.eq_list_of_kind quoted
    obtain ⟨inner, inside⟩ := holds.elements
    have read : expectItems p v h = (if (h.elements v).isEmpty
        then pure (.error (.emptyList p.name)) else pure (.ok ()) : ListOp _) h := by
      rw [expectItems, if_neg (by simpa [same] using quoted)]
      rfl
    rw [read]
    -- A quoted list is refused only when it is empty.
    cases items with
    | nil =>
      obtain ⟨none, _⟩ := inside.eq_nil
      rw [none]
      rfl
    | cons t rest =>
      obtain ⟨first, others, _, _, found, _⟩ := inside.eq_cons
      rw [found]
      rfl
  · have other : v.kind ≠ .list .qexpr := same ▸ quoted
    have failed : expectItems p v h = .ok (.error (.wrongType p.name (.list .qexpr) v.kind)) h := by
      rw [expectItems, if_pos other]
      rfl
    rw [failed, same]
    -- What is no quoted list is of the wrong type, and then the elements do not matter.
    cases t with
    | list kind items =>
      cases kind with
      | qexpr => exact absurd rfl quoted
      | sexpr => rfl
    | _ => rfl

/-- A requirement on handles in order decides as it does on their values. -/
theorem expectAll_run {α : Type} {h : Heap} {rule : HandleRule}
    {check : Handle → ListOp (Except Failure Unit)} {part : Value → Except Failure α}
    (decides : ∀ {v t ids}, Holds h rule v t ids → check v h = .ok ((part t).map fun _ => ()) h)
    {vs : List Handle} {ts : List Value} {ids : List CellId} (holds : HoldsAll h rule vs ts ids) :
    expectAll check vs h = .ok ((ts.mapM part).map fun _ => ()) h := by
  -- By induction on the values; the first requirement that fails is the outcome.
  induction ts generalizing vs ids with
  | nil =>
    obtain ⟨rfl, _⟩ := holds.eq_nil
    rfl
  | cons t ts ih =>
    -- The first value is held apart from the others.
    obtain ⟨v, us, _, _, rfl, _, head, tail⟩ := holds.eq_cons
    simp only [expectAll, Bind.bind, EStateM.bind, decides head, List.mapM_cons]
    cases part t with
    | error failure => rfl
    | ok found =>
      refine (ih tail).trans ?_
      cases ts.mapM part <;> rfl

/-- What is forgotten of a result does not decide whether there is one. -/
theorem orFail_forget {α : Type} (result : Except Failure α) (next : Act Handle) :
    orFail (result.map fun _ => ()) (fun _ => next) = orFail result fun _ => next := by
  cases result <;> rfl

/-- Only a quoted list that is not empty has elements to work on. -/
theorem eq_of_nonEmptyItems {t : Value} {items : List Value}
    (checked : p.nonEmptyItems t = .ok items) :
    t = .qexpr items ∧ items ≠ [] := by
  -- All but a quoted list with a first element is refused.
  cases t with
  | list kind elements =>
    cases kind with
    | sexpr => simp [Primitive.nonEmptyItems] at checked
    | qexpr =>
      cases elements with
      | nil => simp [Primitive.nonEmptyItems] at checked
      | cons first rest =>
        simp only [Primitive.nonEmptyItems, Except.ok.injEq] at checked
        exact ⟨congrArg _ checked, by simp [← checked]⟩
  | _ => simp [Primitive.nonEmptyItems] at checked

/--
Working in place on a quoted list that is not empty follows working on its elements.

The operation may only leave out elements of the list.
-/
theorem follows_onItems {op : Handle → ListOp Handle} {part : List Value → List Value}
    (works : ∀ {m : Machine} {id : CellId} {t : Value} {rest : List Value} {ids : List CellId},
      m.heap.Made id → HoldsAll m.heap (m.sound proper) (m.heap.items id) (t :: rest) ids →
      ∃ v h' vs ids', op (.list .qexpr id) m.heap = .ok v h' ∧ Edits [id] m.heap h' ∧
        h'.items id = vs ∧ HoldsAll m.heap (m.sound proper) vs (part (t :: rest)) ids' ∧
        ids'.Sublist ids)
    (mirrors : Mirrors proper mine store m w) (arguments : Arguments proper mine store m a ts ids) :
    Follows proper mine store m w (onItems p op (.list kind a))
      (pure (.ofExcept (p.onItems part ts)))
      (Yields proper mine) := by
  refine follows_onOne_pure p mirrors arguments fun v t holds free => ?_
  -- The list is checked to be quoted and not empty.
  refine .congr ?_ (bind_ok (lift_ok (expectItems_run p holds)) _)
  rw [orFail_forget]
  refine follows_map mirrors fun items checked => ?_
  obtain ⟨rfl, present⟩ := eq_of_nonEmptyItems p checked
  obtain ⟨id, inner, rfl, rfl, inside⟩ := holds.eq_filled present
  obtain ⟨first, rest, rfl⟩ := List.exists_cons_of_ne_nil present
  have list : Arguments proper mine store m id (first :: rest) inner := ⟨inside, free⟩
  -- The operation works on the container of the list, and leaves some of its elements.
  obtain ⟨u, h', vs, ids', ran, edits, items, left, fewer⟩ := works list.made inside
  refine .edit ran mirrors edits list.own fun mirrors => follows_pure mirrors ?_
  -- The elements that are left stand on containers that the operation did not touch.
  have outer := (List.nodup_cons.mp free.once).1
  have kept : HoldsAll h' (m.sound proper) (h'.items id) (part (first :: rest)) ids' := by
    rw [items]
    refine left.transport (fun c member => edits.items ?_ fun here => ?_) fun _ _ _ fits => fits
    · exact list.inner.made c (fewer.subset member)
    · exact outer (List.mem_singleton.mp here ▸ fewer.subset member)
  exact ⟨id :: ids', .list kept, (free.edit edits).sublist (fewer.cons_cons id)⟩

/-- Cutting a list behind its first element follows keeping that element. -/
theorem follows_head (mirrors : Mirrors proper mine store m w)
    (arguments : Arguments proper mine store m a ts ids) :
    Follows proper mine store m w (onItems p (ListOp.split · 1) (.list kind a))
      (pure (.ofExcept (p.onItems (·.take 1) ts))) (Yields proper mine) := by
  refine follows_onItems p (fun {m id t rest ids} made inside => ?_) mirrors arguments
  obtain ⟨v, vs, ids₁, ids₂, found, rfl, head, _⟩ := inside.eq_cons
  have enough : 1 ≤ (m.heap.items id).length := by simp [found]
  obtain ⟨u, h', ran, edits, items⟩ := ListOp.split_ok made enough .qexpr
  refine ⟨u, h', [v], ids₁, ran, edits, ?_, head.single, List.sublist_append_left ids₁ ids₂⟩
  rw [items, found]
  rfl

/-- Taking the first element off a list follows keeping the others. -/
theorem follows_tail (mirrors : Mirrors proper mine store m w)
    (arguments : Arguments proper mine store m a ts ids) :
    Follows proper mine store m w (onItems p ListOp.popFront (.list kind a))
      (pure (.ofExcept (p.onItems (·.drop 1) ts))) (Yields proper mine) := by
  refine follows_onItems p (fun {m id t rest ids} made inside => ?_) mirrors arguments
  obtain ⟨v, vs, ids₁, ids₂, found, rfl, _, tail⟩ := inside.eq_cons
  obtain ⟨h', ran, edits, items⟩ := ListOp.popFront_ok made found .qexpr
  exact ⟨v, h', vs, ids₂, ran, edits, items, tail, List.sublist_append_right ids₁ ids₂⟩

/-- A further argument is taken out and joined to the first. -/
theorem joinAll_succ {v : Handle} {vs : List Handle} (found : m.heap.items a = v :: vs)
    (first : Handle) (count : Nat) :
    (liftM (joinAll (.list kind a) first (count + 1)) : Act Handle) m =
      (liftM (ListOp.popFront (.list kind a)) >>= fun other => liftM (ListOp.join first other) >>=
        fun _ => liftM (joinAll (.list kind a) first count) : Act Handle) m := by
  have present : (m.heap.items a).isEmpty = false := by rw [found]; rfl
  have read : joinAll (.list kind a) first (count + 1) m.heap =
      (if (m.heap.items a).isEmpty then pure first else
        ListOp.popFront (.list kind a) >>= fun other => ListOp.join first other >>= fun _ =>
          joinAll (.list kind a) first count : ListOp Handle) m.heap := rfl
  rw [lift_run, read, present, ← lift_run]
  simp only [Bool.false_eq_true, if_false, lift_bind]

/--
Joining arguments in place follows concatenating their elements.

The first argument has been taken out, and its container takes the elements of all the others.
-/
theorem follows_joinAll {f : CellId} {xs : List Value} {ids' : List CellId}
    {rows : List (List Value)}
    {count : Nat} (mirrors : Mirrors proper mine store m w)
    (arguments : Arguments proper mine store m a ts ids)
    (first : Arguments proper mine store m f xs ids') (apart : ∀ c ∈ a :: ids, c ∉ f :: ids')
    (checked : ts.mapM p.nonEmptyItems = .ok rows) (enough : ts.length < count) :
    Follows proper mine store m w (liftM (joinAll (.list kind a) (.list .qexpr f) count))
      (pure (.qexpr (xs ++ rows.flatten))) (Yields proper mine) := by
  -- The induction is on the arguments that are left; each round moves one of them.
  induction ts generalizing m ids xs ids' rows count with
  | nil =>
    cases checked
    obtain ⟨none, _⟩ := arguments.inside.eq_nil
    have done : joinAll (.list kind a) (.list .qexpr f) count m.heap = .ok (.list .qexpr f) m.heap := by
      cases count with
      | zero => simp at enough
      | succ count =>
        show (if (m.heap.items a).isEmpty then pure _ else _ : ListOp Handle) m.heap = _
        rw [none]
        rfl
    -- Without an argument left, the first list has all the elements.
    refine follows_lift done mirrors (.refl [] m.heap) (by simp) ?_
    show Yields proper mine store m (.list .qexpr f) (.qexpr (xs ++ []))
    rw [List.append_nil]
    exact first.yields .qexpr
  | cons t rest ih =>
    obtain ⟨row, others, checkedFirst, checkedRest, rfl⟩ := mapM_cons_ok checked
    obtain ⟨rfl, filled⟩ := eq_of_nonEmptyItems p checkedFirst
    obtain ⟨v, vs, found⟩ := arguments.exists_cons
    cases count with
    | zero => simp at enough
    | succ count =>
      -- The next argument is taken off the list of arguments.
      refine .congr ?_ (joinAll_succ found _ count)
      refine .pop mirrors arguments kind
        fun other h' ids₁ ids₂ same edits mirrors head remaining free => ?_
      subst same
      obtain ⟨source, inner, rfl, rfl, inside⟩ := head.eq_filled filled
      have apartFirst : ∀ c ∈ source :: inner, c ∉ f :: ids' := fun c member =>
        apart c (List.mem_cons_of_mem _ (List.mem_append_left _ member))
      have apartRest : ∀ c ∈ a :: ids₂, c ∉ f :: ids' := fun c member =>
        apart c (((List.sublist_append_right _ ids₂).cons_cons a).subset member)
      -- The list that is joined to has not been touched, and the two are different.
      have target : Arguments proper mine store { m with heap := h' } f xs ids' :=
        first.edit edits fun c member here =>
          apartRest a List.mem_cons_self (List.mem_singleton.mp here ▸ member)
      have different : f ≠ source := fun same =>
        apartFirst source List.mem_cons_self (same ▸ List.mem_cons_self)
      obtain ⟨h'', ran, edits', items⟩ :=
        ListOp.join_ok (h := h') target.made different .qexpr .qexpr
      have joined := target.joined ⟨inside, free.left⟩ apartFirst edits' items
      -- The list that is joined and the list that it is joined to hold none of the arguments left.
      have left := remaining.edit edits' fun c member edited => by
        rcases List.mem_cons.mp edited with rfl | edited
        · exact apartRest c member List.mem_cons_self
        · obtain rfl := List.mem_singleton.mp edited
          exact free.disjoint List.mem_cons_self member
      -- Both containers belong to the call, so it may change them.
      refine .edit ran mirrors edits' (fun c member => ?_) fun mirrors => ?_
      · rcases List.mem_cons.mp member with rfl | member
        · exact target.own c List.mem_cons_self
        · obtain rfl := List.mem_singleton.mp member
          exact ⟨free.left.mine c List.mem_cons_self, free.left.outside c List.mem_cons_self⟩
      · have rows : xs ++ (row :: others).flatten = xs ++ row ++ others.flatten := by simp
        rw [rows]
        -- The induction goes on with the longer list.
        refine ih mirrors left joined (fun c member here => ?_) checkedRest (by simpa using enough)
        rcases List.mem_append.mp (show c ∈ (f :: ids') ++ inner from here) with first | second
        · exact apartRest c member first
        · exact free.disjoint (List.mem_cons_of_mem _ second) member

/-- Concatenating quoted lists in place follows concatenating their elements. -/
theorem follows_concatenate (mirrors : Mirrors proper mine store m w)
    (arguments : Arguments proper mine store m a ts ids) :
    Follows proper mine store m w (concatenate p (.list kind a))
      (pure (.ofExcept (p.concatenate ts)))
      (Yields proper mine) := by
  refine .congr (follows_some p mirrors arguments fun present => ?_) (elements_bind _ _)
  -- Every argument is checked before the first is taken out.
  have checks := expectAll_run (expectItems_run p) arguments.inside
  refine .congr ?_ (bind_ok (lift_ok checks) _)
  rw [orFail_forget]
  refine follows_check mirrors fun rows checked => ?_
  obtain ⟨t, rest, rfl⟩ := List.exists_cons_of_ne_nil present
  obtain ⟨row, others, checkedFirst, checkedRest, rfl⟩ := mapM_cons_ok checked
  obtain ⟨rfl, filled⟩ := eq_of_nonEmptyItems p checkedFirst
  have enough : rest.length < (m.heap.elements (.list kind a)).length + endless := by
    rw [arguments.length kind, List.length_cons]
    omega
  -- The first argument is the list to which all the others are joined.
  refine .pop mirrors arguments kind fun v h' ids₁ ids₂ _ _ mirrors head remaining free => ?_
  obtain ⟨f, inner, rfl, rfl, inside⟩ := head.eq_filled filled
  exact follows_joinAll p mirrors remaining ⟨inside, free.left⟩
    (fun c member here => free.disjoint here member) checkedRest enough

/-- Two arguments taken out of their list are owned apart from each other. -/
theorem follows_popTwo (mirrors : Mirrors proper mine store m w)
    (arguments : Arguments proper mine store m a ts ids) {next : Handle → Handle → Act Handle}
    {run : Run Value}
    (wrong : ts.length ≠ 2 → run = pure (.error (.wrongCount p.name 2 ts.length)))
    (right : ∀ v v' t t' h' ids₁ ids₂, ts = [t, t'] →
      Mirrors proper mine store { m with heap := h' } w →
      Holds h' (m.sound proper) v t ids₁ → Holds h' (m.sound proper) v' t' ids₂ →
      Free mine store h' (ids₁ ++ ids₂) →
      Follows proper mine store { m with heap := h' } w (next v v') run (Yields proper mine)) :
    Follows proper mine store m w (do
      orFail (expectCount p.name 2 (← ListOp.elements (.list kind a)).length) fun _ => do
        let v ← ListOp.popFront (.list kind a)
        let v' ← ListOp.popFront (.list kind a)
        next v v') run (Yields proper mine) := by
  refine follows_count p mirrors arguments 2 wrong fun two => ?_
  rcases ts with _ | ⟨t, _ | ⟨t', _ | ⟨t'', rest⟩⟩⟩ <;> simp at two
  -- The arguments are taken off one after the other.
  refine .pop mirrors arguments kind fun v h₁ ids₁ ids₂ _ _ mirrors head remaining free => ?_
  refine .pop mirrors remaining kind fun v' h₂ ids₃ ids₄ same edits mirrors head' _ _ => ?_
  subst same
  -- Taking out the second argument changes no container of the first.
  have kept : Holds h₂ (m.sound proper) v t ids₁ := head.transport (fun c member =>
    edits.items (free.made c (List.mem_append_left _ member)) fun here =>
      free.disjoint member (List.mem_singleton.mp here ▸ List.mem_cons_self)) fun _ _ _ fits => fits
  refine right v v' t t' h₂ ids₁ ids₃ rfl mirrors kept head' ?_
  exact (free.edit edits).sublist
    ((List.Sublist.refl ids₁).append ((List.sublist_append_left ids₃ ids₄).cons a))

/-- Only a quoted list has elements to take. -/
theorem eq_of_quotedItems {t : Value} {items : List Value} (quoted : p.quotedItems t = .ok items) :
    t = .qexpr items := by
  cases t with
  | list kind elements =>
    cases kind with
    | sexpr => simp [Primitive.quotedItems] at quoted
    | qexpr => exact congrArg _ (Except.ok.inj quoted)
  | _ => simp [Primitive.quotedItems] at quoted

/-- Requiring a quoted list decides as taking the elements of the value does. -/
theorem expectKind_quoted {h : Heap} {rule : HandleRule} {v : Handle} {t : Value}
    (holds : Holds h rule v t ids) :
    expectKind p.name (.list .qexpr) v.kind = (p.quotedItems t).map fun _ => () := by
  rw [holds.kind]
  by_cases quoted : t.kind = .list .qexpr
  · obtain ⟨items, rfl⟩ := Value.eq_list_of_kind quoted
    rfl
  · rw [expectKind, if_neg quoted]
    -- What is no quoted list is of the wrong type.
    cases t with
    | list kind items =>
      cases kind with
      | qexpr => exact absurd rfl quoted
      | sexpr => rfl
    | _ => rfl

/-- A value goes in front of the elements of a quoted list. -/
theorem putInFront_eq (t t' : Value) :
    p.putInFront t t' = (p.quotedItems t').map fun items => .qexpr (t :: items) := by
  cases t' with
  | list kind items => cases kind <;> rfl
  | _ => rfl

/-- Putting a handle in front of a list in place follows putting its value there. -/
theorem follows_putInFront (mirrors : Mirrors proper mine store m w)
    (arguments : Arguments proper mine store m a ts ids) :
    Follows proper mine store m w (putInFront p (.list kind a))
      (pure (.ofExcept (p.onTwo p.putInFront ts))) (Yields proper mine) := by
  refine follows_popTwo p mirrors arguments (fun wrong => ?_)
    fun v v' t t' h' ids₁ ids₂ both mirrors head head' free => ?_
  · rw [onTwo_of_ne p wrong]
    rfl
  · subst both
    rw [Primitive.onTwo, putInFront_eq, expectKind_quoted p head', orFail_forget]
    refine follows_map mirrors fun items quoted => ?_
    obtain rfl := eq_of_quotedItems p quoted
    -- A list without a container has no place for another element.
    obtain ⟨id, inner, rfl, rfl, inside⟩ | ⟨improper, rfl, _⟩ := head'.eq_list
    case inr => exact follows_fault improper rfl nofun
    have list : Arguments proper mine store { m with heap := h' } id items inner := ⟨inside, free.right⟩
    obtain ⟨h'', ran, edits, elements⟩ := ListOp.pushFront_ok (h := h') list.made v .qexpr
    refine follows_lift ran mirrors edits list.own ⟨id :: (ids₁ ++ inner), .list ?_, ?_⟩
    · -- The container of the list is neither inside it nor inside the value in front.
      show HoldsAll h'' (m.sound proper) (h''.items id) (t :: items) (ids₁ ++ inner)
      rw [elements]
      refine (HoldsAll.cons head inside).transport (fun c member => ?_) fun _ _ _ fits => fits
      have once := List.nodup_cons.mp (free.perm List.perm_middle).once
      refine edits.items ((free.perm List.perm_middle).made c (List.mem_cons_of_mem _ member)) ?_
      exact fun here => once.1 (List.mem_singleton.mp here ▸ member)
    · exact (free.edit edits).perm List.perm_middle

/-- A list in round brackets becomes a quoted one with the same container. -/
theorem follows_list (mirrors : Mirrors proper mine store m w)
    (arguments : Arguments proper mine store m a ts ids) :
    Follows proper mine store m w (liftM (ListOp.retag .qexpr (.list kind a))) (pure (.qexpr ts))
      (Yields proper mine) := by
  have read : ListOp.retag .qexpr (.list kind a) m.heap = .ok (.list .qexpr a) m.heap := rfl
  exact follows_lift read mirrors (.refl [] m.heap) (by simp) (arguments.yields .qexpr)

/-- An argument taken out of its list is owned. -/
theorem take_argument (tag : ListKind) (arguments : Arguments proper mine store m a ts ids)
    {index : Nat} {t : Value}
    (found : ts[index]? = some t) : ∃ v h', ListOp.take (.list tag a) index m.heap = .ok v h' ∧
      Edits [a] m.heap h' ∧ Yields proper mine store { m with heap := h' } v t := by
  obtain ⟨v, ids', seen, holds, fewer⟩ := arguments.inside.element found
  obtain ⟨h', ran, edits⟩ := ListOp.take_ok seen tag
  refine ⟨v, h', ran, edits, ids', ?_, (arguments.inner.edit edits).sublist fewer⟩
  -- The list that is emptied is not inside the argument.
  have outer := (List.nodup_cons.mp arguments.free.once).1
  refine holds.transport (fun c member => ?_) fun _ _ _ fits => fits
  refine edits.items (arguments.inner.made c (fewer.subset member)) fun here => ?_
  exact outer (List.mem_singleton.mp here ▸ fewer.subset member)

/-- Taking the last argument out follows giving its value. -/
theorem follows_lastOf (mirrors : Mirrors proper mine store m w)
    (arguments : Arguments proper mine store m a ts ids) :
    Follows proper mine store m w (lastOf (.list kind a)) (pure (ts.getLastD .unit))
      (Yields proper mine) := by
  refine .congr ?_ (elements_bind _ _)
  -- Without an argument the result is the empty list.
  rw [Heap.elements_list]
  cases ts with
  | nil =>
    obtain ⟨none, _⟩ := arguments.inside.eq_nil
    rw [none]
    exact follows_unit mirrors
  | cons t rest =>
    -- The last index is one less than the number of arguments.
    have last : (t :: rest)[rest.length]? = some ((t :: rest).getLastD .unit) := by
      rw [List.getLastD_eq_getLast?, List.getLast?_eq_getElem?]
      simp
    obtain ⟨v, vs, found⟩ := arguments.exists_cons
    -- The number of handles is the number of values.
    have index : ((v :: vs).length : Int) - 1 = (rest.length : Nat) := by
      have same := arguments.inside.length_eq
      rw [found] at same
      simp only [List.length_cons] at same ⊢
      omega
    obtain ⟨u, h', ran, edits, yields⟩ := take_argument kind arguments last
    rw [found]
    show Follows proper mine store m w (liftM (ListOp.take (.list kind a) ((v :: vs).length - 1))) _ _
    rw [index]
    exact follows_lift ran mirrors edits arguments.own yields

/-- Printing handles on owned containers prints their values. -/
theorem follows_print (mirrors : Mirrors proper mine store m w)
    (arguments : Arguments proper mine store m a ts ids) :
    Follows proper mine store m w (print (.list kind a)) (do
      Run.write ((Text.encode " ").intercalate (ts.map (·.display)) ++ Text.encode "\n")
      return .unit) (Yields proper mine) := by
  refine .congr ?_ (elements_bind _ _)
  refine .congr (m := m) ?_ (bind_ok (arguments.inner.views arguments.inside) _)
  exact (follows_write mirrors _).bind fun _ _ _ mirrors _ _ => follows_unit mirrors

/-- Going on with a result in two steps is going on with each. -/
theorem orFail_bind {α β : Type} (result : Except Failure α) (f : α → Except Failure β)
    (next : β → Run Value) :
    Run.orFail (result >>= f) next = Run.orFail result fun a => Run.orFail (f a) next := by
  cases result <;> rfl

/-- Making a function of handles follows making one of their values. -/
theorem follows_makeLambda (mirrors : Mirrors proper mine store m w)
    (arguments : Arguments proper mine store m a ts ids) {scope : ScopeId}
    (made : m.world.scopes.Made scope) :
    Follows proper mine store m w (makeLambda scope p (.list kind a))
      (Run.orFail (p.functionParts ts) fun (formals, body) =>
        return .lambda formals body (some scope)) (Yields proper mine) := by
  refine follows_popTwo p mirrors arguments (fun wrong => ?_)
    fun v v' t t' h' ids₁ ids₂ both mirrors head head' free => ?_
  · rcases ts with _ | ⟨t, _ | ⟨t', _ | ⟨t'', rest⟩⟩⟩
    · rfl
    · rfl
    · exact absurd rfl wrong
    · rfl
  · subst both
    -- The formals are checked to be symbols, and the body to be quoted.
    refine .congr ?_ (glance_bind _ _)
    rw [head.glance, p.symbolNames_glanced, expectKind_quoted p head', orFail_forget]
    show Follows proper mine store _ w _ (Run.orFail (p.symbolNames t >>= fun _ => p.quotedItems t' >>=
      fun _ => pure (t, t')) _) (Yields proper mine)
    rw [orFail_bind]
    refine follows_orFail mirrors fun names _ => ?_
    rw [orFail_bind]
    refine follows_orFail mirrors fun items quoted => ?_
    obtain rfl := eq_of_quotedItems p quoted
    -- The body is quoted, and the scope that is captured is there.
    have fits : (m.sound proper).functions t (.qexpr items) (some scope) :=
      ⟨fun _ => ⟨items, rfl⟩, by simpa using made⟩
    exact follows_pure mirrors ⟨ids₁ ++ ids₂, .lambda fits head head', free⟩

/-- Binding names one by one binds them all, where each binding leaves the target as it is. -/
theorem forM_bindAll {target : World Value → ScopeId}
    (stable : ∀ (w : World Value) id name t,
      target { w with scopes := w.scopes.bind id name t } = target w)
    (bindings : List (String × Value)) :
    (bindings.forM fun (name, t) => do Run.bindAll (target (← get)) [(name, t)] : Run PUnit) =
      (do Run.bindAll (target (← get)) bindings) := by
  -- By induction on the bindings; the first one leaves the target where it is.
  induction bindings with
  | nil => rfl
  | cons binding rest ih =>
    funext w
    obtain ⟨name, t⟩ := binding
    have later := congrFun ih { w with scopes := w.scopes.bind (target w) name t }
    refine later.trans ?_
    show ((), { w with scopes := (w.scopes.bind (target w) name t).bindAll _ rest }) = _
    rw [stable]
    rfl

/--
Binding names to arguments in order follows binding them to the values.

Only containers that are made meanwhile are changed, so the arguments stay what they are.
-/
theorem follows_bindFrom {put : String → Handle → Act Unit} {put' : String → Value → Run PUnit}
    {scope : ScopeId}
    (puts : ∀ {store : CellId → Prop} {m : Machine} {w : World Value} {v : Handle} {t : Value}
      (name : String), Mirrors proper mine' store m w → m.world.scopes.Made scope →
      Stands m.heap (m.sound proper) v t →
      Follows proper mine' store m w (put name v) (put' name t) fun _ _ _ _ => True)
    (mirrors : Mirrors proper mine' store m w) (made : m.world.scopes.Made scope)
    (arguments : Arguments proper mine store m a ts ids) (other : ∀ c ∈ a :: ids, ¬ mine' c)
    (names : List String) (index : Nat) (fits : names.length + index = ts.length) :
    Follows proper mine' store m w (bindFrom put (.list kind a) index names)
      ((names.zip (ts.drop index)).forM fun (name, t) => put' name t) fun _ _ _ _ => True := by
  -- The induction is on the names; a bound value is copied, so the arguments stay.
  induction names generalizing store m w index with
  | nil => exact follows_pure mirrors trivial
  | cons name rest ih =>
    simp only [List.length_cons] at fits
    have inside : index < ts.length := by omega
    have found : ts[index]? = some ts[index] := List.getElem?_eq_getElem inside
    obtain ⟨v, ids', seen, holds, fewer⟩ := arguments.inside.element found
    rw [List.drop_eq_getElem_cons inside]
    -- The value is read at its index, and bound.
    refine .congr ?_ (bind_ok (lift_ok (ListOp.element_ok (v := .list kind a) seen)) _)
    refine (puts name mirrors made ((arguments.inner.sublist fewer).stands holds)).bind
      fun store' m' _ mirrors moves _ => ?_
    exact ih mirrors (moves.scopes scope made) (arguments.move moves other) (index + 1) (by omega)

/-- Binding the names of the first argument to the others follows binding them to the values. -/
theorem follows_bindNames {put : String → Handle → Act Unit} {scope : ScopeId}
    (target : World Value → ScopeId)
    (stable : ∀ (w : World Value) id name t,
      target { w with scopes := w.scopes.bind id name t } = target w)
    (puts : ∀ {mine store : CellId → Prop} {m : Machine} {w : World Value} {v : Handle}
      {t : Value} (name : String), Mirrors proper mine store m w → m.world.scopes.Made scope →
      Stands m.heap (m.sound proper) v t → Follows proper mine store m w (put name v)
        (Run.bindAll (target w) [(name, t)]) fun _ _ _ _ => True)
    (mirrors : Mirrors proper mine store m w) (made : m.world.scopes.Made scope)
    (arguments : Arguments proper mine store m a ts ids) :
    Follows proper mine store m w (bindNames put p (.list kind a))
      (Run.orFail (p.bindings ts) fun bindings => do
        Run.bindAll (target (← get)) bindings
        return .unit) (Yields proper mine) := by
  refine .congr ?_ (elements_bind _ _)
  rw [arguments.length kind]
  cases ts with
  | nil => exact follows_atom mirrors rfl
  | cons t rest =>
    refine .pop mirrors arguments kind fun v h' ids₁ ids₂ _ _ mirrors head remaining _ => ?_
    -- The names are read from the first argument, which is taken off.
    refine .congr ?_ (glance_bind _ _)
    rw [head.glance, p.symbolNames_glanced, Primitive.bindings, orFail_bind]
    refine follows_orFail mirrors fun names _ => ?_
    -- The names are bound to as many arguments, or none of them is bound.
    refine .congr ?_ (elements_bind _ _)
    have length := remaining.length kind
    rw [length]
    by_cases same : names.length = rest.length
    · rw [if_pos same, if_pos same]
      show Follows proper mine store _ w _ ((do Run.bindAll (target (← get)) (names.zip rest)) >>=
        fun _ => pure .unit) (Yields proper mine)
      rw [← forM_bindAll stable]
      -- While names are bound, only containers made after the arguments change.
      have bound : Follows proper (Machine.only { m with heap := h' } []) store { m with heap := h' } w
          (bindFrom put (.list kind a) 0 names) ((names.zip rest).forM fun (name, t) => do
            Run.bindAll (target (← get)) [(name, t)]) fun _ _ _ _ => True := by
        exact follows_bindFrom (fun name mirrors => puts name mirrors) (mirrors.narrow []) made
          remaining (Machine.not_only remaining.free.made (by simp)) names 0 same
      exact bound.bindWithin (mirrors.only [] (by simp)) fun _ _ _ mirrors _ _ => follows_unit mirrors
    · rw [if_neg same, if_neg same]
      exact follows_atom mirrors rfl

/-- Binding names where a program runs follows binding them there. -/
theorem follows_assign (mirrors : Mirrors proper mine store m w) {scope : ScopeId}
    (made : m.world.scopes.Made scope) (arguments : Arguments proper mine store m a ts ids) :
    Follows proper mine store m w (bindNames (bind scope) p (.list kind a))
      (Run.orFail (p.bindings ts) fun bindings => do
        Run.bindAll scope bindings
        return .unit) (Yields proper mine) :=
  follows_bindNames p (fun _ => scope) (fun _ _ _ _ => rfl)
    (fun name mirrors made stands => follows_bind mirrors made name stands)
    mirrors made arguments

/-- Binding names in the outermost scope follows binding them there. -/
theorem follows_define (mirrors : Mirrors proper mine store m w) {scope : ScopeId}
    (made : m.world.scopes.Made scope) (arguments : Arguments proper mine store m a ts ids) :
    Follows proper mine store m w (bindNames (bindRoot scope) p (.list kind a))
      (Run.orFail (p.bindings ts) fun bindings => do
        Run.bindAll (← Run.root scope) bindings
        return .unit) (Yields proper mine) := by
  refine follows_bindNames p (fun w => w.scopes.root scope) (fun w id name t => ?_)
    (fun {mine store m w v t} name mirrors made stands => ?_) mirrors made arguments
  · exact Scopes.root_congr (fun other => Scopes.parent?_bind w.scopes id other name t) scope
  · rw [← mirrors.root scope]
    have outermost := (Scopes.root_outermost mirrors.ordered made).1
    exact .congr (follows_bind mirrors outermost name stands) (bind_ok (root_made made) _)

end Act

end QLisp.Shared
