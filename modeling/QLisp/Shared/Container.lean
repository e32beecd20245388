import QLisp.Shared.Capacity
import QLisp.Shared.Handle

/-!
Containers: where the elements of a list are kept.

The elements fill a stretch of a strip of slots. Taking the first element moves the stretch along
its strip, and adding elements uses the slots behind it. When these run out the elements move to a
longer strip. A reduction goes on with the slots it began with, so what it puts there reaches the
list only while the list is still on that strip.
-/

namespace QLisp.Shared

/-- A strip of slots, a stretch of which holds the elements of a list. -/
structure Strip where
  /-- The slots before the elements, the nearest first. -/
  passed : List Handle
  /-- The elements. -/
  items : List Handle
  /-- The slots behind the elements. -/
  spare : List Handle
  deriving Repr

namespace Strip

/-- A strip with as many slots as elements. -/
def ofList (items : List Handle) : Strip := ⟨[], items, []⟩

/-- The number of slots that the elements can fill where they are. -/
def capacity (s : Strip) : Nat := s.items.length + s.spare.length

/-- What is in the slot with a number. -/
def slot (s : Strip) (number : Nat) : Handle :=
  let first := s.passed.length
  if number < first then s.passed.getD (first - 1 - number) .none
  else if number - first < s.items.length then s.items.getD (number - first) .none
  else s.spare.getD (number - first - s.items.length) .none

/-- Puts a value into the slot with a number. -/
def put (s : Strip) (number : Nat) (v : Handle) : Strip :=
  let first := s.passed.length
  if number < first then { s with passed := s.passed.set (first - 1 - number) v }
  else if number - first < s.items.length then { s with items := s.items.set (number - first) v }
  else { s with spare := s.spare.set (number - first - s.items.length) v }

/-- Makes the second element the first, clearing the slot of the first. -/
def advance (s : Strip) : Strip :=
  ⟨.none :: s.passed, s.items.drop 1, s.spare⟩

/-- Keeps a number of elements, clearing the slots of the others. -/
def truncate (s : Strip) (count : Nat) : Strip :=
  ⟨s.passed, s.items.take count, List.replicate (s.items.length - count) .none ++ s.spare⟩

/-- Uses spare slots for further elements. -/
def extend (s : Strip) (more : List Handle) : Strip :=
  ⟨s.passed, s.items ++ more, s.spare.drop more.length⟩

/-- A longer strip with the same elements and further ones. -/
def moved (s : Strip) (more : List Handle) : Strip :=
  let items := s.items ++ more
  ⟨[], items, List.replicate (Capacity.grown items.length s.capacity - items.length) .none⟩

end Strip

/-- The elements of a list, on the strip that they are on now. -/
structure Container where
  /-- The strip that the elements are on. -/
  strip : Strip
  /-- The strips that they were on before, the latest first. -/
  left : List Strip
  deriving Repr

namespace Container

/-- A container with just enough slots for its elements. -/
def ofList (items : List Handle) : Container := ⟨.ofList items, []⟩

/-- The elements. -/
def items (c : Container) : List Handle := c.strip.items

/-- Moves to another strip. -/
def moveTo (c : Container) (strip : Strip) : Container := ⟨strip, c.strip :: c.left⟩

/-- Gives up all elements and their strip. -/
def clear (c : Container) : Container := c.moveTo (.ofList [])

/-- Adds elements at the end. -/
def append (c : Container) (more : List Handle) : Container :=
  if more.length ≤ c.strip.spare.length then { c with strip := c.strip.extend more }
  else c.moveTo (c.strip.moved more)

/-- Adds an element in front, for which the others make room. -/
def pushFront (c : Container) (v : Handle) : Container :=
  let roomy := c.append [.none]
  { roomy with strip := { roomy.strip with items := v :: c.items } }

/-- The strip that came after a number of others. -/
def stripAt (c : Container) (age : Nat) : Strip :=
  if age < c.left.length then c.left.getD (c.left.length - 1 - age) c.strip else c.strip

/-- Changes the strip that came after a number of others. -/
def changeStrip (c : Container) (age : Nat) (change : Strip → Strip) : Container :=
  if age < c.left.length then { c with left := c.left.modify (c.left.length - 1 - age) change }
  else { c with strip := change c.strip }

end Container

/-- The slots that the elements of a container were in at some time. -/
structure Span where
  /-- The container. -/
  container : CellId
  /-- The number of strips that the elements had been on before. -/
  age : Nat
  /-- The number of the first slot. -/
  start : Nat
  /-- The number of slots. -/
  length : Nat
  deriving DecidableEq, Repr

/-- The slots that the elements of a container are in. -/
def Container.span (c : Container) (id : CellId) : Span :=
  ⟨id, c.left.length, c.strip.passed.length, c.items.length⟩

end QLisp.Shared
