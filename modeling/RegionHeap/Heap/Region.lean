import RegionHeap.Heap

/-!
# Regions

A region is the span of one mapping. It has no header of its own: its first block stands for it, and
every block that is carved from it names that first block. Blocks never straddle two regions, so
merging always stays between blocks that name the same head.
-/

set_option autoImplicit false

namespace RegionHeap.Heap

/-! ### Mapping -/

/-- Maps `len` bytes. A refusal is recorded and returned, never tried again. -/
def acquire (len : Nat) : HeapM (Except Failure Nat) := do
  let h ← get
  match h.space.map len with
  | .ok (start, space) =>
    set { h with space }
    return .ok start
  | .error cause =>
    record (.mapFailed len cause)
    return .error (.mapFailed len cause)

/-- Gives `len` bytes from `start` on back. A refusal is recorded and returned. -/
def release (start len : Nat) : HeapM (Except Failure Unit) := do
  let h ← get
  match h.space.unmap start len with
  | .ok space =>
    set { h with space }
    return .ok ()
  | .error cause =>
    record (.unmapFailed start len cause)
    return .error (.unmapFailed start len cause)

/-- Maps a region that holds exactly one block of `size` bytes, and returns that block, in use. It is
in no chain yet. -/
def openRegion (size : Nat) : HeapM (Except Failure Nat) := do
  let len ← Word.add Header.length size
  match ← acquire len with
  | .error e => return .error e
  | .ok b =>
    write (Header.init · b size none false 0)
    write (Header.setUsed · b true)
    return .ok b

/-- Takes the block of a region just opened into the catalogue. -/
def adopt (b : Nat) : HeapM Unit := do
  let id ← takeId
  write (Header.setId · b id)
  linkLast b
  let h ← get
  let regions ← Word.add h.regions 1
  set { h with regions }
  note .fresh b

/-! ### Merging -/

/-- Makes `left` absorb `right`, the block right after it in its region. The left block may be in
use, the right one must be free. -/
def absorb (left right : Nat) : HeapM Unit := do
  let m ← look id
  if Header.region m left ≠ Header.region m right then
    throw (.mergeAcrossRegions left right)
  if Header.used m right then
    throw (.mergeOfUsed right)
  note .mergingLeft left
  note .mergingRight right
  unlinkFree right
  unlink right
  let added ← Word.add Header.length (← look (Header.size · right))
  let joint ← Word.add (← look (Header.size · left)) added
  write (Header.setSize · left joint)
  write (Header.revoke · right)
  note .fresh left

/-- Makes `left` absorb the free blocks right after it in its region, at most `steps` of them. -/
def absorbFree (left : Nat) : Nat → HeapM Unit
  | 0 => return
  | steps + 1 => do
    let m ← look id
    match Catalogue.nextInRegion m left with
    | none => return
    | some next =>
      if Header.used m next then return
      absorb left next
      absorbFree left steps

/-- Merges the free block at `b` with all free blocks around it in its region. Returns the leftmost,
which is left and put back at its place in the free list. -/
def coalesce (b : Nat) : HeapM Nat := do
  let h ← get
  let left := Catalogue.leftmostFree h.memory h.catalogue.length b
  absorbFree left h.catalogue.length
  unlinkFree left
  linkFree left
  return left

/-! ### Giving regions back -/

/-- Whether the block at `b` is all of its region. -/
def fillsRegion (h : Heap) (b : Nat) : Bool :=
  Header.isRegionHead h.memory b && (Catalogue.nextInRegion h.memory b).isNone

/-- The blocks of a region, given its head. -/
def regionBlocks (h : Heap) (head : Nat) : List Nat :=
  Catalogue.regionFrom h.memory h.catalogue.length head

/-- The bytes that were mapped for the region that starts with `head`. -/
def regionLength (h : Heap) (head : Nat) : Except Fault Nat :=
  Word.sum ((h.regionBlocks head).map fun b => Header.length + Header.size h.memory b)

/-- Counts one region less. -/
def dropRegion : HeapM Unit := do
  let h ← get
  let regions ← Word.sub h.regions 1
  set { h with regions }

/-- Gives back the region that the free block at `b` fills. When the operating system refuses, the
region is lost. -/
def closeRegion (b : Nat) : HeapM Unit := do
  note .closing b
  let len ← Word.add Header.length (← look (Header.size · b))
  unlinkFree b
  unlink b
  write (Header.revoke · b)
  dropRegion
  discard (release b len)

/-- Takes the block at `b` out of both chains for good. -/
def discardBlock (b : Nat) : HeapM Unit := do
  if !(← look (Header.used · b)) then
    unlinkFree b
  unlink b
  write (Header.revoke · b)

/-- Takes the block at `b` and those after it in its region, at most `steps` of them, out of both
chains for good. -/
def discardFrom : Nat → Nat → HeapM Unit
  | 0, b => discardBlock b
  | steps + 1, b => do
    let next ← look (Catalogue.nextInRegion · b)
    discardBlock b
    match next with
    | none => return
    | some next => discardFrom steps next

/-- Gives back the region that starts with `head`, blocks in use included. -/
def abandonRegion (head : Nat) : HeapM Unit := do
  let h ← get
  let len ← h.regionLength head
  discardFrom h.catalogue.length head
  dropRegion
  discard (release head len)

/-- Gives the first region back, and the next, at most `steps` of them. -/
def abandonRegions : Nat → HeapM Unit
  | 0 => return
  | steps + 1 => do
    match (← get).catalogue.head with
    | none => return
    | some head =>
      abandonRegion head
      abandonRegions steps

/-- Gives every region back, blocks in use included. -/
def close : HeapM Unit := do
  abandonRegions (← get).catalogue.length

end RegionHeap.Heap
