import QLisp.Proofs.Shared.Mirror

/-! Computations in place that follow runs on immutable values, step by step. -/

namespace QLisp.Shared

variable {proper : Prop} {mine mine' store store' : CellId → Prop} {m m' : Machine}
  {w : World Value}
  {ids : List CellId} {α β γ δ : Type}

/-- A handle stands for a value on containers that the computation owns. -/
def Yields (proper : Prop) (mine store : CellId → Prop) (m : Machine) (v : Handle)
    (t : Value) : Prop :=
  ∃ ids, Holds m.heap (m.sound proper) v t ids ∧ Free mine store m.heap ids

/-- An atom stands on no container. -/
theorem yields_atom {v : Handle} {t : Value} (atomic : v.atom? = some t) :
    Yields proper mine store m v t :=
  ⟨[], .atom atomic, .nil⟩

/-- Containers that may be changed may be so under a wider permission. -/
theorem Yields.mono {v : Handle} {t : Value} (yields : Yields proper mine' store m v t)
    (more : ∀ c, mine' c → mine c) : Yields proper mine store m v t := by
  obtain ⟨ids, holds, free⟩ := yields
  exact ⟨ids, holds, free.once, free.made, free.outside, fun c member => more c (free.mine c member)⟩

/-- What a handle stands for stays so while no container that has been made is changed. -/
theorem Yields.keep {v : Handle} {t : Value} (yields : Yields proper mine store m v t)
    (moves : Moves (m.only []) store m store' m') : Yields proper mine store' m' v t := by
  obtain ⟨ids, holds, free⟩ := yields
  exact ⟨ids, moves.holds holds free.made (Machine.not_only free.made (by simp)), moves.free free⟩

namespace Act

/--
A computation ends, and its machine and result mirror those of a run.

Where not all is proper it may end with a fault instead, but it does not go on for ever.
-/
def Follows (proper : Prop) (mine store : CellId → Prop) (m : Machine) (w : World Value)
    (act : Act α) (run : Run β) (good : (CellId → Prop) → Machine → α → β → Prop) : Prop :=
  (∃ a m' store', act m = .ok a m' ∧ Mirrors proper mine store' m' (run w).2 ∧
    Moves mine store m store' m' ∧ good store' m' a (run w).1) ∨
  ¬ proper ∧ ∃ fault m', act m = .error fault m' ∧ fault ≠ .unending

/-- Where all is proper, a computation that follows a run ends without a fault. -/
theorem Follows.ok {act : Act α} {run : Run β} {good : (CellId → Prop) → Machine → α → β → Prop}
    (follows : Follows True mine store m w act run good) :
    ∃ a m' store', act m = .ok a m' ∧ Mirrors True mine store' m' (run w).2 ∧
      Moves mine store m store' m' ∧ good store' m' a (run w).1 :=
  follows.resolve_right fun improper => improper.1 trivial

/-- A fault that ends a computation, where not all is proper, is enough to follow any run. -/
theorem follows_fault (improper : ¬ proper) {act : Act α} {run : Run β}
    {good : (CellId → Prop) → Machine → α → β → Prop} {fault : Fault}
    (ran : act m = .error fault m') (ends : fault ≠ .unending) :
    Follows proper mine store m w act run good :=
  .inr ⟨improper, fault, m', ran, ends⟩

/-- A computation that runs like another one follows what that one does. -/
theorem Follows.congr {act act' : Act α} {run : Run β}
    {good : (CellId → Prop) → Machine → α → β → Prop}
    (follows : Follows proper mine store m w act' run good) (same : act m = act' m) :
    Follows proper mine store m w act run good := by
  simpa only [Follows, same] using follows

/-- What follows a run follows any other that ends in the same way. -/
theorem Follows.congrRun {act : Act α} {run run' : Run β}
    {good : (CellId → Prop) → Machine → α → β → Prop}
    (follows : Follows proper mine store m w act run' good) (same : run w = run' w) :
    Follows proper mine store m w act run good := by
  simpa only [Follows, same] using follows

/-- What is good of a result may be weakened. -/
theorem Follows.imp {act : Act α} {run : Run β}
    {good fine : (CellId → Prop) → Machine → α → β → Prop}
    (follows : Follows proper mine store m w act run good)
    (weaker : ∀ store' m' a b, good store' m' a b → fine store' m' a b) :
    Follows proper mine store m w act run fine := by
  rcases follows with ⟨a, m', store', ran, mirrors, moves, result⟩ | fault
  · exact .inl ⟨a, m', store', ran, mirrors, moves, weaker store' m' a _ result⟩
  · exact .inr fault

/-- A run may change its result at the end. -/
theorem Follows.mapRun {act : Act α} {run : Run β} {f : β → γ}
    {good : (CellId → Prop) → Machine → α → β → Prop}
    {fine : (CellId → Prop) → Machine → α → γ → Prop}
    (follows : Follows proper mine store m w act run good)
    (changed : ∀ store' m' a b, good store' m' a b → fine store' m' a (f b)) :
    Follows proper mine store m w act (run >>= fun b => pure (f b)) fine := by
  rcases follows with ⟨a, m', store', ran, mirrors, moves, result⟩ | fault
  · exact .inl ⟨a, m', store', ran, mirrors, moves, changed store' m' a _ result⟩
  · exact .inr fault

/-- A result that needs no work follows one that needs none. -/
theorem follows_pure (mirrors : Mirrors proper mine store m w) {a : α} {b : β}
    {good : (CellId → Prop) → Machine → α → β → Prop} (fine : good store m a b) :
    Follows proper mine store m w (pure a) (pure b) good :=
  .inl ⟨a, m, store, rfl, mirrors, .refl mine store m, fine⟩

/-- An atom follows its value. -/
theorem follows_atom (mirrors : Mirrors proper mine store m w) {v : Handle} {t : Value}
    (atomic : v.atom? = some t) :
    Follows proper mine store m w (pure v) (pure t) (Yields proper mine) :=
  follows_pure mirrors (yields_atom atomic)

/--
A computation that goes on after another one follows a run that does.

The first may change fewer containers than both together.
-/
theorem Follows.bindWithin {act : Act α} {run : Run β} {next : α → Act γ} {next' : β → Run δ}
    {good : (CellId → Prop) → Machine → α → β → Prop}
    {fine : (CellId → Prop) → Machine → γ → δ → Prop}
    (first : Follows proper mine' store m w act run good) (more : ∀ c, mine' c → mine c)
    (second : ∀ store' m' a, Mirrors proper mine store' m' (run w).2 → Moves mine' store m store' m' →
      good store' m' a (run w).1 →
      Follows proper mine store' m' (run w).2 (next a) (next' (run w).1) fine) :
    Follows proper mine store m w (act >>= next) (run >>= next') fine := by
  -- Either the first ends and the second goes on from there, or it faults and so does the whole.
  rcases first with ⟨a, m', store', ran, mirrors, moves, result⟩ |
    ⟨improper, fault, m', ran, ends⟩
  · rcases second store' m' a (mirrors.mono more) moves result with
      ⟨b, m'', store'', ran', mirrors', moves', result'⟩ | ⟨improper, fault, m'', ran', ends⟩
    · refine .inl ⟨b, m'', store'', ?_, mirrors', (moves.mono more).trans moves', result'⟩
      rw [bind_ok ran, ran']
    · exact follows_fault improper (by rw [bind_ok ran, ran']) ends
  · exact follows_fault improper (bind_error ran next) ends

/-- A computation that goes on after another one follows a run that does. -/
theorem Follows.bind {act : Act α} {run : Run β} {next : α → Act γ} {next' : β → Run δ}
    {good : (CellId → Prop) → Machine → α → β → Prop}
    {fine : (CellId → Prop) → Machine → γ → δ → Prop}
    (first : Follows proper mine store m w act run good)
    (second : ∀ store' m' a, Mirrors proper mine store' m' (run w).2 → Moves mine store m store' m' →
      good store' m' a (run w).1 →
      Follows proper mine store' m' (run w).2 (next a) (next' (run w).1) fine) :
    Follows proper mine store m w (act >>= next) (run >>= next') fine :=
  first.bindWithin (fun _ => id) second

/-- Changing owned containers is a step that the run does not see. -/
theorem Follows.step {act : Act α} {a : α} {h' : Heap} (ran : act m = .ok a { m with heap := h' })
    (mirrors : Mirrors proper mine store m w) (edits : Edits ids m.heap h')
    (free : ∀ c ∈ ids, mine c ∧ ¬ store c) {next : α → Act β} {run : Run γ}
    {good : (CellId → Prop) → Machine → β → γ → Prop}
    (later : Mirrors proper mine store { m with heap := h' } w →
      Follows proper mine store { m with heap := h' } w (next a) run good) :
    Follows proper mine store m w (act >>= next) run good := by
  rcases later (mirrors.edit edits free) with
    ⟨b, m'', store'', ran', mirrors', moves', result'⟩ | ⟨improper, fault, m'', ran', ends⟩
  · refine .inl ⟨b, m'', store'', ?_, mirrors',
      (Moves.of_edits edits free mirrors.stored).trans moves', result'⟩
    rw [bind_ok ran, ran']
  · exact follows_fault improper (by rw [bind_ok ran, ran']) ends

/-- A list operation on owned containers is a step that the run does not see. -/
theorem Follows.edit {op : ListOp α} {a : α} {h' : Heap} (ran : op m.heap = .ok a h')
    (mirrors : Mirrors proper mine store m w) (edits : Edits ids m.heap h')
    (free : ∀ c ∈ ids, mine c ∧ ¬ store c) {next : α → Act β} {run : Run γ}
    {good : (CellId → Prop) → Machine → β → γ → Prop}
    (later : Mirrors proper mine store { m with heap := h' } w →
      Follows proper mine store { m with heap := h' } w (next a) run good) :
    Follows proper mine store m w (liftM op >>= next) run good :=
  .step (lift_ok ran) mirrors edits free later

/-- A list operation that changes owned containers and gives a result needs no run. -/
theorem follows_lift {op : ListOp α} {a : α} {h' : Heap} (ran : op m.heap = .ok a h')
    (mirrors : Mirrors proper mine store m w) (edits : Edits ids m.heap h')
    (free : ∀ c ∈ ids, mine c ∧ ¬ store c) {b : β}
    {good : (CellId → Prop) → Machine → α → β → Prop}
    (fine : good store { m with heap := h' } a b) :
    Follows proper mine store m w (liftM op) (pure b) good :=
  .inl ⟨a, { m with heap := h' }, store, lift_ok ran, mirrors.edit edits free,
    .of_edits edits free mirrors.stored, fine⟩

/-- Ending with a failure or going on follows a run that does so on the same result. -/
theorem follows_orFail (mirrors : Mirrors proper mine store m w) {result : Except Failure α}
    {next : α → Act Handle} {next' : α → Run Value}
    (safe : ∀ a, result = .ok a →
      Follows proper mine store m w (next a) (next' a) (Yields proper mine)) :
    Follows proper mine store m w (orFail result next) (Run.orFail result next')
      (Yields proper mine) := by
  cases result with
  | ok a => exact safe a rfl
  | error failure => exact follows_atom mirrors rfl

/-- Ending with a failure or going on follows a value that is computed from the same result. -/
theorem follows_check (mirrors : Mirrors proper mine store m w) {result : Except Failure α}
    {next : α → Act Handle} {f : α → Except Failure Value}
    (safe : ∀ a, result = .ok a →
      Follows proper mine store m w (next a) (pure (.ofExcept (f a))) (Yields proper mine)) :
    Follows proper mine store m w (orFail result next) (pure (.ofExcept (result >>= f)))
      (Yields proper mine) := by
  cases result with
  | ok a => exact safe a rfl
  | error failure => exact follows_atom mirrors rfl

/-- A fresh copy of a sound value stands for that value. -/
theorem place_ok (mirrors : Mirrors proper mine store m w) {t : Value}
    (obeys : t.Obeys (m.sound proper).functions) :
    ∃ v h', ListOp.place t m.heap = .ok v h' ∧ Edits [] m.heap h' ∧
      Yields proper mine store { m with heap := h' } v t := by
  obtain ⟨ids, holds, once, fresh⟩ := place_holds m.heap t obeys
  refine ⟨(m.heap.place t).1, (m.heap.place t).2, rfl, .of_keeps (Heap.keeps_place m.heap t),
    ids, holds, once, fun c member => (fresh c member).2, fun c member held => ?_,
    fun c member => mirrors.room c (fresh c member).1⟩
  exact (fresh c member).1 (mirrors.stored c held)

/-- Placing a sound value is a step that the run does not see. -/
theorem Follows.place {t : Value} (mirrors : Mirrors proper mine store m w)
    (obeys : t.Obeys (m.sound proper).functions)
    {next : Handle → Act β} {run : Run γ} {good : (CellId → Prop) → Machine → β → γ → Prop}
    (later : ∀ v h', Edits [] m.heap h' → Mirrors proper mine store { m with heap := h' } w →
      Yields proper mine store { m with heap := h' } v t →
      Follows proper mine store { m with heap := h' } w (next v) run good) :
    Follows proper mine store m w (liftM (ListOp.place t) >>= next) run good := by
  obtain ⟨v, h', ran, edits, yields⟩ := place_ok mirrors obeys
  exact .edit ran mirrors edits (by simp) fun mirrors => later v h' edits mirrors yields

/-- The empty list in round brackets is made in a fresh container. -/
theorem follows_unit (mirrors : Mirrors proper mine store m w) :
    Follows proper mine store m w unit (pure .unit) (Yields proper mine) := by
  obtain ⟨h', ran, edits, made, items⟩ := ListOp.make_ok m.heap .sexpr []
  refine follows_lift ran mirrors edits (by simp) ?_
  -- The new container is nobody else's.
  have new : ¬ m.heap.Made ⟨m.heap.containers.size⟩ := by simp [Heap.Made]
  refine ⟨[⟨m.heap.containers.size⟩], .list ?_, by simp, ?_, ?_, ?_⟩
  · rw [items]
    exact .nil
  · simpa using made
  · simpa using fun held => new (mirrors.stored _ held)
  · simpa using mirrors.room _ new

end Act

end QLisp.Shared
