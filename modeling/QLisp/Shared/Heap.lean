import QLisp.Shared.Container

/-!
The heap of containers that handles name.

The view of a handle is the immutable value that it stands for now, and placing a value puts it
into fresh containers.
-/

namespace QLisp.Shared

/-- The containers made so far. -/
structure Heap where
  /-- The containers, in the order in which they were made. -/
  containers : Array Container
  deriving Repr

namespace Heap

/-- A heap without containers. -/
def empty : Heap := ⟨#[]⟩

/-- The container with an identity. -/
def container (h : Heap) (id : CellId) : Container :=
  h.containers.getD id.index (.ofList [])

/-- The elements of a container. -/
def items (h : Heap) (id : CellId) : List Handle :=
  (h.container id).items

/-- The elements of a list, and none for any other value. -/
def elements (h : Heap) : Handle → List Handle
  | .list _ id => h.items id
  | _ => []

/-- Changes a container. -/
def change (h : Heap) (id : CellId) (f : Container → Container) : Heap :=
  ⟨h.containers.modify id.index f⟩

/-- Makes a container. -/
def alloc (h : Heap) (items : List Handle) : CellId × Heap :=
  (⟨h.containers.size⟩, ⟨h.containers.push (.ofList items)⟩)

/-- The slots that the elements of a container are in. -/
def span (h : Heap) (id : CellId) : Span :=
  (h.container id).span id

/-- What is in a slot of a span. -/
def slot (h : Heap) (span : Span) (index : Nat) : Handle :=
  ((h.container span.container).stripAt span.age).slot (span.start + index)

/-- Puts a value into a slot of a span. -/
def put (h : Heap) (span : Span) (index : Nat) (v : Handle) : Heap :=
  h.change span.container fun c => c.changeStrip span.age (·.put (span.start + index) v)

/-- The value of a handle, given the values in each container. -/
def viewWith (look : CellId → List Value) : Handle → Value
  | .number x => .number x
  | .symbol name => .symbol name
  | .string bytes => .string bytes
  | .bool b => .bool b
  | .builtin operation => .builtin operation
  | .lambda formals body scope => .lambda (viewWith look formals) (viewWith look body) scope
  | .list kind storage => .list kind (look storage)
  | .error failure => .error failure
  | .bare tag => .bare tag
  | .bareList kind => .list kind []

/-- The values in a container, following containers to a depth. -/
def viewItems (h : Heap) : Nat → CellId → List Value
  | 0, _ => []
  | depth + 1, id => (h.items id).map (viewWith (h.viewItems depth))

/-- The value that a handle stands for. -/
def view (h : Heap) (v : Handle) : Value :=
  -- A heap without cycles is no deeper than the number of its containers.
  viewWith (h.viewItems h.containers.size) v

/-- The value that a handle stands for, with every list inside an element left empty. -/
def glance (h : Heap) (v : Handle) : Value :=
  viewWith (h.viewItems 1) v

/-- Whether the way down from a handle ends, given from which containers it does. -/
def endsWith (ends : CellId → Bool) : Handle → Bool
  | .lambda formals body _ => endsWith ends formals && endsWith ends body
  | .list _ storage => ends storage
  | _ => true

/-- Whether the way down from a container ends, following containers to a depth. -/
def endsWithin (h : Heap) : Nat → CellId → Bool
  | 0, _ => false
  | depth + 1, id => (h.items id).all (endsWith (h.endsWithin depth))

/-- Whether the way down from a handle ends: no list on it is part of itself. -/
def ends (h : Heap) (v : Handle) : Bool :=
  -- A way down that ends meets no container twice.
  endsWith (h.endsWithin h.containers.size) v

/--
Whether two handles stand for the same value, given which elements of lists do.

There is no answer when the comparison does not end.
-/
def sameWith (h : Heap) (sameItems : List Handle → List Handle → Option Bool) :
    Handle → Handle → Option Bool
  | .lambda formals body _, .lambda formals' body' _ => do
    if ← h.sameWith sameItems formals formals' then h.sameWith sameItems body body'
    else return false
  | v, v' =>
    if v.isList then
      if v.kind = v'.kind then sameItems (h.elements v) (h.elements v') else return false
    else return (h.glance v).same (h.glance v')

/-- Whether elements stand for the same values in the same order, following containers to a depth. -/
def sameItems (h : Heap) : Nat → List Handle → List Handle → Option Bool
  | 0, _, _ => none
  | depth + 1, items, items' =>
    if items.length = items'.length then
      (items.zip items').allM fun (v, v') => h.sameWith (h.sameItems depth) v v'
    else return false

/-- Whether two handles stand for the same value, if the comparison ends. -/
def same (h : Heap) (v v' : Handle) : Option Bool :=
  -- A comparison that ends meets no pair of containers twice on its way down.
  h.sameWith (h.sameItems (h.containers.size * h.containers.size + 1)) v v'

mutual

/-- Puts a value into fresh containers. -/
def place (h : Heap) : Value → Handle × Heap
  | .number x => (.number x, h)
  | .symbol name => (.symbol name, h)
  | .string bytes => (.string bytes, h)
  | .bool b => (.bool b, h)
  | .builtin operation => (.builtin operation, h)
  | .lambda formals body scope =>
    let (formals, h) := place h formals
    let (body, h) := place h body
    (.lambda formals body scope, h)
  | .list kind items =>
    let (items, h) := placeAll h items
    let (id, h) := h.alloc items
    (.list kind id, h)
  | .error failure => (.error failure, h)
  | .bare tag => (.bare tag, h)

/-- Puts each value of a list into fresh containers. -/
def placeAll (h : Heap) : List Value → List Handle × Heap
  | [] => ([], h)
  | v :: rest =>
    let (v, h) := place h v
    let (rest, h) := placeAll h rest
    (v :: rest, h)

end

end Heap

end QLisp.Shared
