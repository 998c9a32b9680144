import RegionHeap.Header

/-!
# The catalogue and the free list

The catalogue chains all blocks, free or used. A fresh region's block is linked in at the end and the rest
of a cut block right after it, so the blocks of one region follow each other in address order, its head
first. Neighbours are neighbours in the catalogue that belong to the same region.

The free list chains the free blocks in ascending order of size, the latest first among blocks of one
size. So the first block that is large enough is also the smallest.
-/

set_option autoImplicit false

namespace RegionHeap

/-! ### The catalogue -/

/-- The chain of all blocks. -/
abbrev Catalogue := Chain Header.catalogueHook

namespace Catalogue

/-- The block right after `b` in its region. -/
def nextInRegion (m : Memory) (b : Nat) : Option Nat :=
  (Chain.next Header.catalogueHook m b).filter fun next => Header.region m next == Header.region m b

/-- The block right before `b` in its region. -/
def prevInRegion (m : Memory) (b : Nat) : Option Nat :=
  (Chain.prev Header.catalogueHook m b).filter fun prev => Header.region m prev == Header.region m b

/-- The blocks that are handed out. -/
def usedMembers (c : Catalogue) (m : Memory) : Except Fault (List Nat) :=
  (·.filter (Header.used m)) <$> c.members m

/-- The blocks of `b`'s region from `b` on, at most `steps` after `b`. -/
def regionFrom (m : Memory) : Nat → Nat → List Nat
  | 0, b => [b]
  | steps + 1, b =>
    match nextInRegion m b with
    | some next => b :: regionFrom m steps next
    | none => [b]

/-- The leftmost block that is reached from `b` over free blocks of its region, in at most `steps`
steps. -/
def leftmostFree (m : Memory) : Nat → Nat → Nat
  | 0, b => b
  | steps + 1, b =>
    match prevInRegion m b with
    | some prev => if Header.used m prev then b else leftmostFree m steps prev
    | none => b

end Catalogue

/-! ### The free list -/

/-- The chain of free blocks. -/
abbrev FreeList := Chain Header.freeHook

namespace FreeList

/-- The first block of at least `size` bytes. -/
def firstFit (f : FreeList) (m : Memory) (size : Nat) : Except Fault (Option Nat) :=
  (f.walk m).find? fun b => size ≤ Header.size m b

/-- Links `b` in front of the first block that is at least as large, or at the end. -/
def insert (b : Nat) : ChainM Header.freeHook Unit := do
  let (m, f) ← get
  let before ← firstFit f m (Header.size m b)
  Chain.insertBefore before b

/-- The payload bytes of all blocks of the list. -/
def totalBytes (f : FreeList) (m : Memory) : Except Fault Nat :=
  (f.walk m).total (Header.size m)

end FreeList

end RegionHeap
