import QLisp.Shared.Container

/-!
Laws of containers: what is in the slots of a container after an operation on it.

An operation on a list fills slots only with what was there before, with what it is given, or with
no value at all.
-/

namespace QLisp.Shared

namespace Strip

/-- What is in the slots of a strip. -/
def slots (s : Strip) : List Handle :=
  s.passed ++ (s.items ++ s.spare)

/-- A strip made for some elements holds them and nothing else. -/
@[simp] theorem slots_ofList (items : List Handle) : (ofList items).slots = items := by
  simp [slots, ofList]

/-- Reading a slot gives what is in one, or no value. -/
theorem slot_mem (s : Strip) (number : Nat) :
    s.slot number ∈ s.slots ∨ s.slot number = .none := by
  -- A number beyond all slots reads as no value.
  have read : ∀ (part : List Handle) (index : Nat),
      part.getD index .none ∈ part ∨ part.getD index .none = .none := by
    intro part index
    by_cases inside : index < part.length
    · exact .inl (by simp [inside])
    · exact .inr (by simp [List.getElem?_eq_none (Nat.le_of_not_lt inside)])
  -- The slots are counted through what was passed, the elements, and the spare ones.
  simp only [slot, slots, List.mem_append]
  split
  · exact (read _ _).imp_left .inl
  · split
    · exact (read _ _).imp_left (.inr ∘ .inl)
    · exact (read _ _).imp_left (.inr ∘ .inr)

/-- Putting a value into a slot adds nothing else. -/
theorem mem_slots_put {s : Strip} {number : Nat} {v w : Handle}
    (member : w ∈ (s.put number v).slots) :
    w ∈ s.slots ∨ w = v := by
  simp only [put, slots] at member ⊢
  -- The slot is among those passed, among the elements, or among the spare ones.
  split at member
  · simp only [List.mem_append] at member ⊢
    rcases member with passed | items | spare
    · exact (List.mem_or_eq_of_mem_set passed).imp_left .inl
    · exact .inl (.inr (.inl items))
    · exact .inl (.inr (.inr spare))
  · split at member <;> simp only [List.mem_append] at member ⊢
    · rcases member with passed | items | spare
      · exact .inl (.inl passed)
      · exact (List.mem_or_eq_of_mem_set items).imp_left (.inr ∘ .inl)
      · exact .inl (.inr (.inr spare))
    · rcases member with passed | items | spare
      · exact .inl (.inl passed)
      · exact .inl (.inr (.inl items))
      · exact (List.mem_or_eq_of_mem_set spare).imp_left (.inr ∘ .inr)

/-- Passing the first element clears its slot. -/
theorem mem_slots_advance {s : Strip} {w : Handle} (member : w ∈ s.advance.slots) :
    w ∈ s.slots ∨ w = .none := by
  simp only [advance, slots, List.mem_append, List.mem_cons] at member ⊢
  rcases member with (none | passed) | items | spare
  · exact .inr none
  · exact .inl (.inl passed)
  · exact .inl (.inr (.inl (List.mem_of_mem_drop items)))
  · exact .inl (.inr (.inr spare))

/-- Cutting elements off clears their slots. -/
theorem mem_slots_truncate {s : Strip} {count : Nat} {w : Handle}
    (member : w ∈ (s.truncate count).slots) : w ∈ s.slots ∨ w = .none := by
  simp only [truncate, slots, List.mem_append] at member ⊢
  rcases member with passed | items | cleared | spare
  · exact .inl (.inl passed)
  · exact .inl (.inr (.inl (List.mem_of_mem_take items)))
  · exact .inr (List.eq_of_mem_replicate cleared)
  · exact .inl (.inr (.inr spare))

/-- Further elements are the only ones added to a strip. -/
theorem mem_slots_extend {s : Strip} {more : List Handle} {w : Handle}
    (member : w ∈ (s.extend more).slots) : w ∈ s.slots ∨ w ∈ more := by
  simp only [extend, slots, List.mem_append] at member ⊢
  rcases member with passed | (items | new) | spare
  · exact .inl (.inl passed)
  · exact .inl (.inr (.inl items))
  · exact .inr new
  · exact .inl (.inr (.inr (List.mem_of_mem_drop spare)))

/-- A longer strip holds the elements, the further ones and cleared slots. -/
theorem mem_slots_moved {s : Strip} {more : List Handle} {w : Handle}
    (member : w ∈ (s.moved more).slots) : w ∈ s.slots ∨ w ∈ more ∨ w = .none := by
  simp only [moved, slots, List.nil_append, List.mem_append] at member ⊢
  rcases member with (items | new) | cleared
  · exact .inl (.inr (.inl items))
  · exact .inr (.inl new)
  · exact .inr (.inr (List.eq_of_mem_replicate cleared))

end Strip

namespace Container

/-- What is in the slots of a container, on its strip and on those it has left. -/
def slots (c : Container) : List Handle :=
  c.strip.slots ++ c.left.flatMap Strip.slots

/-- A container made for some elements holds them and nothing else. -/
@[simp] theorem slots_ofList (items : List Handle) : (ofList items).slots = items := by
  simp [slots, ofList]

/-- The elements are in slots. -/
theorem mem_slots_of_mem_items {c : Container} {v : Handle} (member : v ∈ c.items) :
    v ∈ c.slots := by
  simp only [slots, Strip.slots, List.mem_append]
  exact .inl (.inr (.inl member))

/-- The strip at any age is the present one or one that was left. -/
theorem slots_stripAt {c : Container} {age : Nat} {v : Handle}
    (member : v ∈ (c.stripAt age).slots) : v ∈ c.slots := by
  simp only [stripAt] at member
  simp only [slots, List.mem_append]
  -- The age counts back from the last strip that was left.
  split at member
  · rename_i old
    have inside : c.left.length - 1 - age < c.left.length := by omega
    simp only [List.getD, List.getElem?_eq_getElem inside, Option.getD_some] at member
    exact .inr (List.mem_flatMap.mpr ⟨_, List.getElem_mem inside, member⟩)
  · exact .inl member

/-- Changing one strip touches the slots of that strip only. -/
theorem mem_slots_changeStrip {c : Container} {age : Nat} {change : Strip → Strip} {w : Handle}
    (fine : Handle → Prop) (kept : ∀ s w, w ∈ (change s).slots → w ∈ s.slots ∨ fine w)
    (member : w ∈ (c.changeStrip age change).slots) : w ∈ c.slots ∨ fine w := by
  simp only [changeStrip] at member
  -- The strip is one that was left, or the present one.
  split at member <;> simp only [slots, List.mem_append] at member ⊢
  · rcases member with now | before
    -- The present strip is left as it is.
    · exact .inl (.inl now)
    · obtain ⟨s, there, held⟩ := List.mem_flatMap.mp before
      obtain ⟨i, found⟩ := List.mem_iff_getElem?.mp there
      rw [List.getElem?_modify] at found
      cases old : c.left[i]? with
      | none => simp [old] at found
      | some s' =>
        -- The strip that is looked into is the one that has been changed, or another one.
        have inside := List.mem_of_getElem? old
        simp only [old, Option.map_eq_map, Option.map_some, Option.some.injEq] at found
        subst s
        split at held
        · exact (kept _ w held).imp_left fun inner => .inr (List.mem_flatMap.mpr ⟨_, inside, inner⟩)
        · exact .inl (.inr (List.mem_flatMap.mpr ⟨_, inside, held⟩))
  -- Otherwise it is the present strip that is changed.
  · rcases member with now | before
    · exact (kept _ w now).imp_left .inl
    · exact .inl (.inr before)

/-- A change of the present strip touches its slots only. -/
theorem mem_slots_withStrip {c : Container} {strip : Strip} {w : Handle} (fine : Handle → Prop)
    (kept : w ∈ strip.slots → w ∈ c.strip.slots ∨ fine w)
    (member : w ∈ ({ c with strip := strip } : Container).slots) : w ∈ c.slots ∨ fine w := by
  simp only [slots, List.mem_append] at member ⊢
  rcases member with now | before
  · exact (kept now).imp_left .inl
  · exact .inl (.inr before)

/-- Moving to another strip leaves the present one behind. -/
theorem mem_slots_moveTo {c : Container} {strip : Strip} {w : Handle} (fine : Handle → Prop)
    (kept : w ∈ strip.slots → w ∈ c.strip.slots ∨ fine w)
    (member : w ∈ (c.moveTo strip).slots) : w ∈ c.slots ∨ fine w := by
  simp only [moveTo, slots, List.flatMap_cons, List.mem_append] at member ⊢
  rcases member with now | present | before
  · exact (kept now).imp_left .inl
  · exact .inl (.inl present)
  · exact .inl (.inr before)

/-- Giving up the elements adds nothing. -/
theorem mem_slots_clear {c : Container} {w : Handle} (member : w ∈ c.clear.slots) :
    w ∈ c.slots := by
  simpa using mem_slots_moveTo (fun _ => False) (by simp) member

/-- Adding elements adds these and cleared slots only. -/
theorem mem_slots_append {c : Container} {more : List Handle} {w : Handle}
    (member : w ∈ (c.append more).slots) : w ∈ c.slots ∨ w ∈ more ∨ w = .none := by
  simp only [append] at member
  split at member
  · exact mem_slots_withStrip (fun u => u ∈ more ∨ u = .none)
      (fun inner => (Strip.mem_slots_extend inner).imp_right .inl) member
  · exact mem_slots_moveTo (fun u => u ∈ more ∨ u = .none) Strip.mem_slots_moved member

/-- Adding an element in front adds it and cleared slots only. -/
theorem mem_slots_pushFront {c : Container} {v w : Handle} (member : w ∈ (c.pushFront v).slots) :
    w ∈ c.slots ∨ w = v ∨ w = .none := by
  -- The list makes room at its end first, and then takes the value and its own elements.
  have room : ∀ u, u ∈ (c.append [.none]).slots → u ∈ c.slots ∨ u = v ∨ u = .none := by
    intro u inner
    rcases mem_slots_append inner with old | new | none
    · exact .inl old
    · exact .inr (.inr (by simpa using new))
    · exact .inr (.inr none)
  simp only [pushFront, slots, Strip.slots, List.mem_append, List.mem_cons] at member
  -- Each slot is one from before, the value, or an empty one.
  rcases member with (passed | (first | items) | spare) | before
  · exact room w (by simp [slots, Strip.slots, passed])
  · exact .inr (.inl first)
  · exact .inl (mem_slots_of_mem_items items)
  · exact room w (by simp [slots, Strip.slots, spare])
  · exact room w (by simp only [slots, List.mem_append]; exact .inr before)

end Container

end QLisp.Shared
