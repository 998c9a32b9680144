import RegionHeap.Chain

/-!
# Block headers

A block is a header of 72 bytes followed by its payload. The header's words, from its start:

| offset | word |
|---|---|
| 0 | a fixed mark, while the header describes a block |
| 8 | payload bytes |
| 16 | number of the block |
| 24 | two truth values, a byte each: in use, from the program break |
| 32 | address of the first header of the region |
| 40 | links of the catalogue, the chain of all blocks in address order |
| 56 | links of the free list, the chain of free blocks in size order |

Since the header size and every payload size are whole words, a header that is carved out of the
middle of a payload is aligned.
-/

set_option autoImplicit false

namespace RegionHeap.Header

/-- Bytes of a header. -/
def length : Nat := 72

/-- The mark of a header that describes a block. -/
def mark : Nat := 0x626c6f636b686472

/-- Where in a header the catalogue keeps its links. -/
def catalogueHook : Nat := 40

/-- Where in a header the free list keeps its links. -/
def freeHook : Nat := 56

/-! ### Reading -/

/-- Whether the header at `b` bears the mark. -/
def intact (m : Memory) (b : Nat) : Bool :=
  m.word b == mark

/-- Payload bytes of the block at `b`, the header not counted. -/
def size (m : Memory) (b : Nat) : Nat :=
  m.word (b + 8)

/-- The number that names the block in reports. -/
def id (m : Memory) (b : Nat) : Nat :=
  m.word (b + 16)

/-- Whether the block is handed out. -/
def used (m : Memory) (b : Nat) : Bool :=
  m.flag (b + 24)

/-- Whether the block's memory came from the program break rather than from a mapping. -/
def fromBreak (m : Memory) (b : Nat) : Bool :=
  m.flag (b + 25)

/-- The first block of the region that the block was carved from. -/
def region (m : Memory) (b : Nat) : Nat :=
  m.word (b + 32)

/-- Where the payload of the block at `b` starts. -/
def payload (b : Nat) : Nat :=
  b + length

/-- Where the payload of the block at `b` ends and the next block of its region would start. -/
def finish (m : Memory) (b : Nat) : Nat :=
  payload b + size m b

/-- Whether the block at `b` is the one its region starts with. -/
def isRegionHead (m : Memory) (b : Nat) : Bool :=
  region m b == b

/-! ### Writing -/

/-- Sets the payload bytes. -/
def setSize (m : Memory) (b n : Nat) : Memory :=
  m.setWord (b + 8) n

/-- Sets the number that names the block. -/
def setId (m : Memory) (b n : Nat) : Memory :=
  m.setWord (b + 16) n

/-- Sets whether the block is handed out. -/
def setUsed (m : Memory) (b : Nat) (u : Bool) : Memory :=
  m.setFlag (b + 24) u

/-- Sets whether the memory came from the program break. -/
def setFromBreak (m : Memory) (b : Nat) (o : Bool) : Memory :=
  m.setFlag (b + 25) o

/-- Sets the first block of the region. -/
def setRegion (m : Memory) (b r : Nat) : Memory :=
  m.setWord (b + 32) r

/-- Takes the mark off, so that a pointer to the dead block is refused from now on. -/
def revoke (m : Memory) (b : Nat) : Memory :=
  m.setWord b 0

/-- Writes the header of a free block that is in no chain. Without a `head` the block starts a
region. -/
def init (m : Memory) (b size : Nat) (head : Option Nat) (fromBreak : Bool) (id : Nat) : Memory :=
  let m := m.setWord b mark
  let m := setSize m b size
  let m := setId m b id
  let m := setUsed m b false
  let m := setFromBreak m b fromBreak
  let m := setRegion m b (head.getD b)
  let m := Chain.setPrev catalogueHook m b none
  let m := Chain.setNext catalogueHook m b none
  let m := Chain.setPrev freeHook m b none
  Chain.setNext freeHook m b none

/-! ### From a pointer to its block -/

/-- The block whose payload starts at `pointer`. The call stops when the pointer is not aligned or
leaves no room for a header, and when the header there bears no mark. -/
def ofPayload (m : Memory) (pointer : Nat) : Except Fault Nat :=
  if pointer % wordSize = 0 ∧ length < pointer then
    let b := pointer - length
    if intact m b then .ok b else .error (.notABlock pointer)
  else .error (.notABlock pointer)

end RegionHeap.Header
