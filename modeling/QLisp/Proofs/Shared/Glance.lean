import QLisp.Eval.Apply
import QLisp.Proofs.Shared.Footprint

/-!
What operations decide without looking at a whole value.

A glance at a handle shows its value with every list inside an element left empty, and that is all
that the checks of the primitive operations look at. Comparing two handles that own their containers
compares their values.
-/

namespace QLisp

namespace Value

/-- A value with the elements of its lists left out. -/
def hollow : Value → Value
  | .lambda formals body scope => .lambda formals.hollow body.hollow scope
  | .list kind _ => .list kind []
  | v => v

/-- A value with the elements of every list inside an element left out. -/
def glanced : Value → Value
  | .lambda formals body scope => .lambda formals.glanced body.glanced scope
  | .list kind items => .list kind (items.map hollow)
  | v => v

/-- A glance shows the kind. -/
@[simp] theorem kind_glanced (v : Value) : v.glanced.kind = v.kind := by
  cases v <;> rfl

/-- A glance shows the truth of a condition. -/
@[simp] theorem isTruthy_glanced (v : Value) : v.glanced.isTruthy = v.isTruthy := by
  cases v <;> rfl

end Value

namespace Primitive

variable (p : Primitive)

/-- A glance decides a condition. -/
theorem condition_glanced (v : Value) : p.condition v.glanced = p.condition v := by
  simp [condition]

/-- A glance decides an operand. -/
theorem operand_glanced (v : Value) : p.operand v.glanced = p.operand v := by
  cases v <;> rfl

/-- A glance decides a comparison. -/
theorem comparison_glanced (v v' : Value) :
    p.comparison v.glanced v'.glanced = p.comparison v v' := by
  cases v with
  | list kind items =>
    cases v' with
    | list kind' items' => cases kind <;> cases kind' <;> simp [Value.glanced, comparison, Value.kind]
    | _ => cases kind <;> rfl
  | _ => cases v' <;> rfl

/-- A glance shows the names of a list of symbols. -/
theorem symbolNames_glanced (v : Value) : p.symbolNames v.glanced = p.symbolNames v := by
  -- Only the elements of a quoted list are looked at, and of each only its name.
  cases v with
  | list kind items =>
    cases kind with
    | sexpr => rfl
    | qexpr =>
      simp only [Value.glanced, symbolNames, List.mapM_map]
      congr 1
      funext item
      cases item <;> rfl
  | _ => rfl

end Primitive

namespace Shared

variable {h : Heap} {rule : HandleRule}

/-- Looking into no container shows a value with the elements of its lists left out. -/
theorem Holds.hollow {v : Handle} {t : Value} {ids : List CellId} (holds : Holds h rule v t ids) :
    Heap.viewWith (h.viewItems 0) v = t.hollow := by
  cases holds with
  | atom same =>
    cases v <;> simp only [Handle.atom?, Option.some.injEq, reduceCtorEq] at same <;>
      subst same <;> rfl
  | lambda _ formal bodied => simp [Heap.viewWith, Value.hollow, formal.hollow, bodied.hollow]
  | list => rfl
  | bareList => rfl

/-- Looking into no container shows values with the elements of their lists left out. -/
theorem HoldsAll.hollow {vs : List Handle} {ts : List Value} {ids : List CellId}
    (holds : HoldsAll h rule vs ts ids) :
    vs.map (Heap.viewWith (h.viewItems 0)) = ts.map Value.hollow := by
  induction vs generalizing ts ids with
  | nil => cases holds; rfl
  | cons v vs ih =>
    cases holds with
    | cons head tail => simp [head.hollow, ih tail]

/-- A glance at a handle shows its value at a glance. -/
theorem Holds.glance {v : Handle} {t : Value} {ids : List CellId} (holds : Holds h rule v t ids) :
    h.glance v = t.glanced := by
  -- A glance goes no deeper than the elements of a list, whatever these stand for.
  cases holds with
  | atom same =>
    cases v <;> simp only [Handle.atom?, Option.some.injEq, reduceCtorEq] at same <;>
      subst same <;> rfl
  -- A glance at a function shows its parts at a glance.
  | lambda _ formal bodied =>
    have first := formal.glance
    have second := bodied.glance
    simp only [Heap.glance] at first second
    simp [Heap.glance, Heap.viewWith, Value.glanced, first, second]
  | list inside => exact congrArg (Value.list _) inside.hollow
  | bareList => rfl

/-- A decision that a glance is enough for is the same on handles as on their values. -/
theorem HoldsAll.mapM_glance {α : Type} {vs : List Handle} {ts : List Value} {ids : List CellId}
    (holds : HoldsAll h rule vs ts ids) {decide : Value → Except Failure α}
    (enough : ∀ t, decide t.glanced = decide t) :
    (vs.map h.glance).mapM decide = ts.mapM decide := by
  induction vs generalizing ts ids with
  | nil => cases holds; rfl
  | cons v vs ih =>
    cases holds with
    | cons head tail => simp [List.mapM_cons, head.glance, enough, ih tail]

/-- An atom is compared at a glance, and a glance is enough. -/
theorem Heap.sameWith_atom {v : Handle} {t : Value} (atomic : v.atom? = some t)
    (sameItems : List Handle → List Handle → Option Bool) {v' : Handle} {t' : Value}
    {ids : List CellId} (right : Holds h rule v' t' ids) :
    h.sameWith sameItems v v' = some (t.same t') := by
  have compared : h.sameWith sameItems v v' = some (t.same (h.glance v')) := by
    cases v <;> simp only [Handle.atom?, Option.some.injEq, reduceCtorEq] at atomic <;>
      subst atomic <;> rfl
  rw [compared, right.glance]
  cases v <;> simp only [Handle.atom?, Option.some.injEq, reduceCtorEq] at atomic <;>
    subst atomic <;> cases t' <;> rfl

/-- A list is compared by its elements, once the other value is a list of the same kind. -/
theorem Heap.sameWith_list {v v' : Handle} {kind : ListKind} {items : List Value} {t' : Value}
    {ids ids' : List CellId} {sameItems : List Handle → List Handle → Option Bool}
    (left : Holds h rule v (.list kind items) ids) (right : Holds h rule v' t' ids')
    (compared : ∀ {items' ids'}, HoldsAll h rule (h.elements v') items' ids' →
      sameItems (h.elements v) (h.elements v') = some (Value.sameAll items items')) :
    h.sameWith sameItems v v' = some ((Value.list kind items).same t') := by
  -- The first value is a list, so only the kinds and the elements are compared.
  have listed : h.sameWith sameItems v v' =
      if v.kind = v'.kind then sameItems (h.elements v) (h.elements v') else some false := by
    cases left with
    | atom same => cases v <;> simp [Handle.atom?] at same
    | list => cases v' <;> rfl
    | bareList => cases v' <;> rfl
  rw [listed, left.kind, right.kind]
  -- Lists of another kind differ, and what is no list differs from all lists.
  cases t' with
  | list kind' items' =>
    obtain ⟨ids', inside⟩ := right.elements
    rw [compared inside]
    by_cases same : kind = kind' <;> simp [Value.kind, Value.same, same]
  | bare tag => cases tag <;> simp [Value.kind, Bare.kind, Value.same]
  | _ => simp [Value.kind, Value.same]

mutual

/-- Comparing two handles, following more containers than one stands on, compares their values. -/
theorem Holds.sameWith {v v' : Handle} {t t' : Value} {ids ids' : List CellId}
    (left : Holds h rule v t ids) (right : Holds h rule v' t' ids') {depth : Nat}
    (enough : ids.length < depth) : h.sameWith (h.sameItems depth) v v' = some (t.same t') := by
  -- A function is compared by its parts and a list by its elements.
  cases left with
  | atom same => exact Heap.sameWith_atom same _ right
  | lambda _ formal bodied =>
    simp only [List.length_append] at enough
    cases right with
    | atom same =>
      cases v' <;> simp only [Handle.atom?, Option.some.injEq, reduceCtorEq] at same <;>
        subst same <;> rfl
    -- Functions are compared part by part, formals first.
    | lambda _ formal' bodied' =>
      have first := formal.sameWith formal' (show _ < depth by omega)
      have second := bodied.sameWith bodied' (show _ < depth by omega)
      simp only [Heap.sameWith, Value.same, first, second]
      cases Value.same _ _ <;> rfl
    | _ => rfl
  | list inside =>
    simp only [List.length_cons] at enough
    obtain ⟨depth, rfl⟩ : ∃ rest, depth = rest + 1 := ⟨depth - 1, by omega⟩
    -- The elements are compared with less depth, which is still enough.
    exact Heap.sameWith_list (.list inside) right fun inside' =>
      inside.sameItems inside' (show _ < depth by omega)
  | bareList allowed =>
    simp only [List.length_nil] at enough
    obtain ⟨depth, rfl⟩ : ∃ rest, depth = rest + 1 := ⟨depth - 1, by omega⟩
    refine Heap.sameWith_list (.bareList allowed) right fun inside' => ?_
    generalize h.elements v' = vs' at inside'
    cases inside' <;> simp [Heap.elements, Heap.sameItems, Value.sameAll]

/-- Comparing the elements of two lists compares their values. -/
theorem HoldsAll.sameItems {vs vs' : List Handle} {ts ts' : List Value} {ids ids' : List CellId}
    (left : HoldsAll h rule vs ts ids) (right : HoldsAll h rule vs' ts' ids') {depth : Nat}
    (enough : ids.length < depth) :
    h.sameItems (depth + 1) vs vs' = some (Value.sameAll ts ts') := by
  cases left with
  | nil => cases right <;> simp [Heap.sameItems, Value.sameAll]
  | cons head tail =>
    cases right with
    | nil => simp [Heap.sameItems, Value.sameAll]
    | cons head' tail' =>
      simp only [List.length_append] at enough
      -- The first elements are compared, and then the others.
      have first := head.sameWith head' (show _ < depth by omega)
      have others := tail.sameItems tail' (show _ < depth by omega)
      simp only [Heap.sameItems, Value.sameAll, List.length_cons, Nat.add_right_cancel_iff,
        List.zip_cons_cons, List.allM, first] at others ⊢
      -- The lengths are compared before the elements, so a first difference may be seen late.
      cases Value.same _ _ <;> split at others <;> simp_all

end

/-- Comparing two handles that own their containers compares their values. -/
theorem Holds.same {v v' : Handle} {t t' : Value} {ids ids' : List CellId}
    (left : Holds h rule v t ids) (right : Holds h rule v' t' ids') (once : ids.Nodup)
    (made : ∀ id ∈ ids, h.Made id) : h.same v v' = some (t.same t') := by
  refine left.sameWith right (Nat.lt_succ_of_le ?_)
  calc ids.length ≤ h.containers.size := length_le_of_made once made
    _ ≤ h.containers.size * h.containers.size := Nat.le_mul_self _

end Shared
end QLisp
