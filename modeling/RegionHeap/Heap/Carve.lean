import RegionHeap.Heap.Region

/-!
# Handing out blocks and taking them back

A request is served by the smallest free block that holds it. What is left over is cut off as a free
block of its own when it can hold a header and the smallest block; otherwise it stays with the block.
A block that is given back is merged with its free neighbours at once.
-/

set_option autoImplicit false

namespace RegionHeap.Heap

/-- Cuts the used block at `b` down to `size` bytes and makes a free block of the rest, which is
returned, unless the rest cannot hold a header and the smallest block. -/
def split (b size : Nat) : HeapM (Option Nat) := do
  let current ← look (Header.size · b)
  if current < size then
    throw .cutBeyondEnd
  let least ← Word.add Header.length (← get).settings.minBlock
  if current - size < least then
    return none
  note .cutting b
  let m ← look id
  let number ← takeId
  let rest := Header.payload b + size
  let left ← Word.sub (current - size) Header.length
  write (Header.init · rest left (some (Header.region m b)) (Header.fromBreak m b) number)
  write (Header.setSize · b size)
  linkAfter b rest
  linkFree rest
  note .front b
  note .fresh rest
  return some rest

/-- Hands out the smallest free block that holds `size` bytes, if there is one. -/
def reuse (size : Nat) : HeapM (Option Nat) := do
  let h ← get
  match ← h.freeList.firstFit h.memory size with
  | none => return none
  | some b =>
    unlinkFree b
    write (Header.setUsed · b true)
    note .chosen b
    discard (split b size)
    return some b

/-- Takes a used block back, merges it with its free neighbours, and gives its region back when that
is free from end to end and more regions are mapped than are kept. -/
def giveBack (b : Nat) : HeapM Unit := do
  if !(← look (Header.used · b)) then
    throw (.doubleFree (Header.payload b))
  write (Header.setUsed · b false)
  linkFree b
  note .freed b
  let whole ← coalesce b
  note .merged whole
  let h ← get
  if h.settings.retained < h.regions ∧ h.fillsRegion whole then
    closeRegion whole

/-- Grows the used block at `b` to `size` bytes by absorbing the block after it, if that is free and
large enough, and cuts off what is too much. Says whether it grew. -/
def growInPlace (b size : Nat) : HeapM Bool := do
  let m ← look id
  match Catalogue.nextInRegion m b with
  | none => return false
  | some next =>
    let joint ← Word.add (← Word.add (Header.size m b) Header.length) (Header.size m next)
    if Header.used m next || joint < size then
      return false
    absorb b next
    discard (split b size)
    return true

end RegionHeap.Heap
