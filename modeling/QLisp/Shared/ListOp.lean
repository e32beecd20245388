import QLisp.Shared.Heap

/-! The list operations on handles, which change containers in place. -/

namespace QLisp.Shared

/-- Why an operation of an embedding program cannot be carried out. -/
inductive Fault where
  /-- A list operation on a value that has no container. -/
  | notAList (kind : Kind)
  /-- The first element of an empty list was asked for. -/
  | emptyList
  /-- An index lies outside a list. -/
  | outOfRange
  /-- A part of a function was asked of a value that is none. -/
  | notALambda
  /-- An operation on a scope was asked for without a scope. -/
  | noScope
  /-- The remainder of a division by zero was asked for. -/
  | zeroDivisor
  /-- The operation would go on for ever. -/
  | unending
  deriving DecidableEq, Repr

/-- The wording of a fault, for those that have one. -/
def Fault.message? : Fault → Option String
  | .notAList kind => some ("lang: list operation on " ++ kind.label)
  | .emptyList => some "lang: PopFront on empty list"
  | _ => none

/-- An operation on lists, which either succeeds or faults. -/
abbrev ListOp := EStateM Fault Heap

namespace ListOp

/-- The container of a list. -/
def storage : Handle → ListOp CellId
  | .list _ id => return id
  | v => throw (.notAList v.kind)

/-- The elements of a container. -/
def items (id : CellId) : ListOp (List Handle) :=
  return (← get).items id

/-- Changes a container. -/
def change (id : CellId) (f : Container → Container) : ListOp Unit :=
  modify (·.change id f)

/-- The slots that the elements of a container are in. -/
def span (id : CellId) : ListOp Span :=
  return (← get).span id

/-- What is in a slot. -/
def slot (span : Span) (index : Nat) : ListOp Handle :=
  return (← get).slot span index

/-- Puts a value into a slot. -/
def put (span : Span) (index : Nat) (v : Handle) : ListOp Unit :=
  modify (·.put span index v)

/-- The elements of a list, and none for any other value. -/
def elements (v : Handle) : ListOp (List Handle) :=
  return (← get).elements v

/-- The value that a handle stands for; following a list that is part of itself never ends. -/
def view (v : Handle) : ListOp Value := do
  let h ← get
  if h.ends v then return h.view v else throw .unending

/-- The value that a handle stands for, with every list inside an element left empty. -/
def glance (v : Handle) : ListOp Value :=
  return (← get).glance v

/-- Whether two handles stand for the same value. -/
def same (v v' : Handle) : ListOp Bool := do
  match (← get).same v v' with
  | some answer => return answer
  | none => throw .unending

/-- Puts a value into fresh containers. -/
def place (v : Value) : ListOp Handle :=
  modifyGet fun h => h.place v

/-- Makes a list in a fresh container. -/
def make (kind : ListKind) (elements : List Handle) : ListOp Handle :=
  modifyGet fun h =>
    let (id, h) := h.alloc elements
    (.list kind id, h)

/-- The list of another kind that shares the container of a list. -/
def retag (kind : ListKind) (v : Handle) : ListOp Handle :=
  return .list kind (← storage v)

/-- Adds an element at the end of a list. -/
def append (v element : Handle) : ListOp Handle := do
  change (← storage v) (·.append [element])
  return v

/-- Adds an element in front of a list. -/
def pushFront (v element : Handle) : ListOp Handle := do
  change (← storage v) (·.pushFront element)
  return v

/-- Removes and returns the first element of a list. -/
def popFront (v : Handle) : ListOp Handle := do
  let id ← storage v
  match ← items id with
  | [] => throw .emptyList
  | first :: _ =>
    change id fun c => { c with strip := c.strip.advance }
    return first

/-- The element of a list at an index. -/
def element (v : Handle) (index : Int) : ListOp Handle := do
  if index < 0 then throw .outOfRange
  match (← elements v)[index.toNat]? with
  | some found => return found
  | none => throw .outOfRange

/-- Empties a list and returns the element that was at an index. -/
def take (v : Handle) (index : Int) : ListOp Handle := do
  let id ← storage v
  let taken ← element v index
  change id (·.clear)
  return taken

/-- Cuts a list at an index and returns the elements from there on as a new list. -/
def split : Handle → Int → ListOp Handle
  | .list kind id, index => do
    let all ← items id
    if index < 0 || all.length < index then throw .outOfRange
    else
      change id fun c => { c with strip := c.strip.truncate index.toNat }
      make kind (all.drop index.toNat)
  | v, _ => throw (.notAList v.kind)

/-- Moves the elements of another list to the end of a list; a list joined to itself is doubled. -/
def join (v other : Handle) : ListOp Handle := do
  let id ← storage v
  let source ← storage other
  let more ← items source
  change id (·.append more)
  unless id = source do change source (·.clear)
  return v

/-- A copy of a value in fresh containers. -/
def copy (v : Handle) : ListOp Handle := do
  place (← view v)

/-- The formals of a function. -/
def formals : Handle → ListOp Handle
  | .lambda formals _ _ => return formals
  | _ => throw .notALambda

/-- The body of a function. -/
def body : Handle → ListOp Handle
  | .lambda _ body _ => return body
  | _ => throw .notALambda

end ListOp
end QLisp.Shared
