/-!
How much room a list gets when it has outgrown its storage.

Room at least doubles, so that a list that grows one element at a time is moved seldom. It is then
rounded up to the block sizes in which storage is handed out.
-/

namespace QLisp.Shared.Capacity

/-- The size of a slot for one element, in bytes. -/
def slotSize : Nat := 24

/-- The sizes of small blocks, in bytes. -/
def blockSizes : List Nat := [
    8, 16, 24, 32, 48, 64, 80, 96, 112, 128, 144, 160, 176, 192, 208, 224, 240, 256, 288, 320, 352,
    384, 416, 448, 480, 512, 576, 640, 704, 768, 896, 1024, 1152, 1280, 1408, 1536, 1792, 2048,
    2304, 2688, 3072, 3200, 3456, 4096, 4864, 5376, 6144, 6528, 6784, 6912, 8192, 9472, 9728,
    10240, 10880, 12288, 13568, 14336, 16384, 18432, 19072, 20480, 21760, 24576, 27264, 28672,
    32768
  ]

/-- The largest block, in bytes, that has no header. -/
def headerlessLimit : Nat := 512

/-- The size of the header of any other small block, in bytes. -/
def headerSize : Nat := 8

/-- The size of which large blocks are multiples, in bytes. -/
def pageSize : Nat := 8192

/-- The bytes that a block for a number of bytes has room for. -/
def blockRoom (bytes : Nat) : Nat :=
  let header := if bytes ≤ headerlessLimit then 0 else headerSize
  match blockSizes.find? (bytes + header ≤ ·) with
  | some size => size - header
  | none => (bytes + pageSize - 1) / pageSize * pageSize

/-- The number of slots from which on room grows by less than half. -/
def doublingLimit : Nat := 256

/-- Adds about a quarter to a number of slots until it is enough, in a number of rounds. -/
def widen (needed : Nat) : Nat → Nat → Nat
  | 0, slots => slots
  | rounds + 1, slots =>
    if needed ≤ slots then slots
    else widen needed rounds (slots + (slots + 3 * doublingLimit) / 4)

/-- The number of slots asked for when more are needed than there are. -/
def wanted (needed slots : Nat) : Nat :=
  if 2 * slots < needed then needed
  else if slots < doublingLimit then 2 * slots
  else widen needed needed slots

/-- The number of slots given when more are needed than there are. -/
def grown (needed slots : Nat) : Nat :=
  blockRoom (slotSize * wanted needed slots) / slotSize

end QLisp.Shared.Capacity
