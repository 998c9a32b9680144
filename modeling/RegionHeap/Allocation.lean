import RegionHeap.Heap.Carve

/-!
# Allocating

The calls of a heap's users. Pointers are addresses of payloads; `none` is the null pointer.
`allocate` and `allocateZeroed` say why they failed, `malloc`, `calloc` and `realloc` answer with the
null pointer instead.
-/

set_option autoImplicit false

namespace RegionHeap

/-- The most bytes that the payload of a block may have. -/
def maxPayload : Nat :=
  maxSpan - Header.length

/-- The payload bytes that are set aside for a request of `size` bytes: whole words, and at least the
smallest block. -/
def Settings.blockSize (s : Settings) (size : Nat) : Except Failure Nat :=
  match roundUp? size wordSize with
  | some aligned =>
    if aligned ≤ maxPayload then .ok (max aligned s.minBlock) else .error (.sizeOverflow size)
  | none => .error (.sizeOverflow size)

namespace Heap

/-- Allocates at least `size` bytes. -/
def allocate (size : Nat) : HeapM (Except Failure Nat) := do
  match (← get).settings.blockSize size with
  | .error e => return .error e
  | .ok size =>
    match ← reuse size with
    | some b => return .ok (Header.payload b)
    | none =>
      match ← openRegion size with
      | .error e => return .error e
      | .ok b =>
        adopt b
        return .ok (Header.payload b)

/-- Allocates `count * size` bytes that are all 0. -/
def allocateZeroed (count size : Nat) : HeapM (Except Failure Nat) := do
  let total := count * size
  if wordLimit ≤ total then
    return .error (.sizeOverflow (wordLimit - 1))
  if total = 0 then
    return .error .zeroSize
  match ← allocate total with
  | .error e => return .error e
  | .ok p =>
    write (·.setBytes p (List.replicate total 0))
    return .ok p

/-- At least `size` bytes, or the null pointer. -/
def malloc (size : Nat) : HeapM (Option Nat) :=
  return (← allocate size).toOption

/-- `count * size` bytes that are all 0, or the null pointer. -/
def calloc (count size : Nat) : HeapM (Option Nat) :=
  return (← allocateZeroed count size).toOption

/-- Gives a block back. The null pointer is ignored. -/
def free (pointer : Option Nat) : HeapM Unit := do
  match pointer with
  | none => return
  | some p => giveBack (← Header.ofPayload (← look id) p)

/-- Moves the block behind `p`, whose payload has `old` bytes, to a new block of `size` bytes. -/
def relocate (p old size : Nat) : HeapM (Option Nat) := do
  match ← malloc size with
  | none => return none
  | some q =>
    write fun m => m.setBytes q (m.bytes p (min old size))
    free (some p)
    return some q

/-- Resizes the block behind a pointer to at least `size` bytes. The null pointer asks for a new
block, a size of 0 gives the block back. A block that is large enough stays as it is; otherwise it
grows in place when it can, and moves when it cannot. Where that fails the answer is the null pointer
and the block stays. -/
def realloc (pointer : Option Nat) (size : Nat) : HeapM (Option Nat) := do
  match pointer with
  | none => malloc size
  | some p =>
    if size = 0 then
      free pointer
      return none
    match (← get).settings.blockSize size with
    | .error _ => return none
    | .ok wanted =>
      let b ← Header.ofPayload (← look id) p
      if !(← look (Header.used · b)) then
        throw (.resizeOfFreed p)
      let old ← look (Header.size · b)
      if size ≤ old then
        return some p
      if ← growInPlace b wanted then
        return some p
      relocate p old size

end Heap

end RegionHeap
