import RegionHeap.Snapshot

/-!
# Auditing a heap

`Snapshot.audit` checks what every heap should satisfy, first along the free list, then along the
catalogue, then the counts, and reports the first thing that is wrong. A chain whose links lead on
past its count stops the audit there, unless something was wrong before.
-/

set_option autoImplicit false

namespace RegionHeap

/-- What an audit found wrong. Blocks are given by the addresses of their headers. -/
inductive Corruption where
  /-- A block of the free list whose header bears no mark. -/
  | freeEntryUnmarked (block : Nat)
  /-- A block of the free list that is in use. -/
  | freeEntryUsed (block : Nat)
  /-- A block of the free list that is smaller than the one before it. -/
  | freeListUnsorted (block size before : Nat)
  /-- A block of the catalogue whose header bears no mark. -/
  | entryUnmarked (block : Nat)
  /-- Two neighbours that do not touch. -/
  | gapBetween (left right : Nat)
  /-- Two neighbours that are both free. -/
  | freeNeighbours (left right : Nat)
  /-- A block that follows a block of another region without starting its own. -/
  | detached (block : Nat)
  /-- The heap counts other than the heads of regions. -/
  | regionCount (heads counted : Nat)
  /-- The free list is longer or shorter than the free blocks are many. -/
  | freeCount (free listed : Nat)
  deriving DecidableEq, Repr

/-- The text of a finding, with addresses written by `name`. -/
def Corruption.message (name : Nat → String) : Corruption → String
  | freeEntryUnmarked b => s!"free list entry {name b} has no valid header"
  | freeEntryUsed b => s!"used block {name b} is in the free list"
  | freeListUnsorted b size before => s!"free list out of order at {name b}: {size} after {before}"
  | entryUnmarked b => s!"catalogue entry {name b} has no valid header"
  | gapBetween l r => s!"gap between {name l} and {name r}"
  | freeNeighbours l r => s!"free neighbours {name l} and {name r} were not merged"
  | detached b => s!"block {name b} is detached from its region"
  | regionCount heads counted => s!"{heads} region heads but {counted} regions counted"
  | freeCount free listed => s!"{free} free blocks in the catalogue but {listed} in the free list"

namespace Snapshot

/-- Checks the free list from a block on, the one before it having `last` bytes. -/
def auditFree (last : Nat) : List Block → Except Corruption Unit
  | [] => .ok ()
  | b :: rest =>
    if b.intact = false then .error (.freeEntryUnmarked b.addr)
    else if b.used then .error (.freeEntryUsed b.addr)
    else if b.size < last then .error (.freeListUnsorted b.addr b.size last)
    else auditFree b.size rest

/-- Checks a block against the one before it. -/
def auditNeighbour (before : Option Block) (b : Block) : Except Corruption Unit :=
  match before.filter (·.region == b.region) with
  | some left =>
    if left.finish ≠ b.addr then .error (.gapBetween left.addr b.addr)
    else if left.used = false ∧ b.used = false then .error (.freeNeighbours left.addr b.addr)
    else .ok ()
  | none => if b.isRegionHead then .ok () else .error (.detached b.addr)

/-- Checks the catalogue from a block on. -/
def auditBlocks (before : Option Block) : List Block → Except Corruption Unit
  | [] => .ok ()
  | b :: rest => do
    if b.intact = false then throw (.entryUnmarked b.addr)
    auditNeighbour before b
    auditBlocks (some b) rest

/-- Checks the counts that the heap keeps. -/
def auditCounts (s : Snapshot) : Except Corruption Unit := do
  let heads := s.catalogue.items.countP Block.isRegionHead
  if heads ≠ s.regions then throw (.regionCount heads s.regions)
  let free := s.catalogue.items.countP (·.used == false)
  if free ≠ s.freeCount then throw (.freeCount free s.freeCount)

/-- Checks everything, and stops at the first finding. -/
def audit (s : Snapshot) : Except Fault (Except Corruption Unit) := ExceptT.run do
  auditFree 0 s.freeList.items
  s.freeList.finish
  auditBlocks none s.catalogue.items
  s.catalogue.finish
  s.auditCounts

end Snapshot

end RegionHeap
