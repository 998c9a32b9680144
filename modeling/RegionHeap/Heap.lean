import RegionHeap.Event
import RegionHeap.Orders
import RegionHeap.Settings

/-!
# Heaps

A heap owns regions, each tiled by blocks: all blocks are in the catalogue, the free ones also in the
free list. The headers and both chains live in the heap's own memory, beside the bytes of callers.

A call on a heap is a `HeapM` action. It may be stopped by a fault, and then the heap stays as the
call left it at that point, its chains included.
-/

set_option autoImplicit false

namespace RegionHeap

/-- A heap: the ends of its two chains, its counters, and the memory that it lives in. -/
structure Heap where
  settings : Settings := {}
  space : AddressSpace := {}
  catalogue : Catalogue := .empty
  freeList : FreeList := .empty
  /-- Regions that are mapped. -/
  regions : Nat := 0
  /-- The number of the next block. -/
  nextId : Nat := 0
  /-- What was recorded, latest first. -/
  log : List Event := []

instance : Inhabited Heap := ⟨{}⟩

/-- A call on a heap, which may be stopped by a fault. -/
abbrev HeapM := EStateM Fault Heap

namespace Heap

/-- The heap with the given settings that has no region yet, and whose regions will go where `place`
puts them. -/
def ofSettings (settings : Settings) (place : Placement := .standard) : Heap where
  settings := settings
  space := { place }

/-- The bytes that the heap lives in. -/
def memory (h : Heap) : Memory :=
  h.space.memory

/-- The names of the heap's regions. -/
def atlas (h : Heap) : Atlas :=
  h.space.atlas

/-- The heap with an empty log. -/
def forgetLog (h : Heap) : Heap :=
  { h with log := [] }

/-! ### Small steps -/

/-- Reads from memory. -/
def look {α : Type} (read : Memory → α) : HeapM α :=
  return read (← get).memory

/-- Writes to memory. -/
def write (change : Memory → Memory) : HeapM Unit :=
  modify fun h => { h with space := { h.space with memory := change h.space.memory } }

/-- Records an event. -/
def record (e : Event) : HeapM Unit :=
  modify fun h => { h with log := e :: h.log }

/-- Records an event about the block at `b`. -/
def note (event : Block → Event) (b : Nat) : HeapM Unit := do
  record (event (← look (Block.read · b)))

/-- Takes the next block number. -/
def takeId : HeapM Nat := do
  let h ← get
  let nextId ← Word.add h.nextId 1
  set { h with nextId }
  return h.nextId

/-- Does a change of a part of the heap. What it did stays even when a fault stops it. -/
def within {τ α : Type} (part : Heap → τ) (put : τ → Heap → Heap) (change : EStateM Fault τ α) :
    HeapM α := fun h =>
  match change (part h) with
  | .ok a t => .ok a (put t h)
  | .error fault t => .error fault (put t h)

/-- Changes the free list and the links in memory. -/
def editFreeList {α : Type} : ChainM Header.freeHook α → HeapM α :=
  within (fun h => (h.memory, h.freeList)) fun (memory, freeList) h =>
    { h with space := { h.space with memory }, freeList }

/-- Changes the catalogue and the links in memory. -/
def editCatalogue {α : Type} : ChainM Header.catalogueHook α → HeapM α :=
  within (fun h => (h.memory, h.catalogue)) fun (memory, catalogue) h =>
    { h with space := { h.space with memory }, catalogue }

/-- Puts the block at `b` on the free list. -/
def linkFree (b : Nat) : HeapM Unit :=
  editFreeList (FreeList.insert b)

/-- Takes the block at `b` off the free list. -/
def unlinkFree (b : Nat) : HeapM Unit :=
  editFreeList (Chain.remove b)

/-- Puts the block at `b` at the end of the catalogue. -/
def linkLast (b : Nat) : HeapM Unit :=
  editCatalogue (Chain.pushBack b)

/-- Puts the block at `b` right after the block at `after` in the catalogue. -/
def linkAfter (after b : Nat) : HeapM Unit :=
  editCatalogue (Chain.insertAfter after b)

/-- Takes the block at `b` off the catalogue. -/
def unlink (b : Nat) : HeapM Unit :=
  editCatalogue (Chain.remove b)

/-! ### Views -/

/-- What the headers of all blocks say. -/
def snapshot (h : Heap) : Snapshot where
  regions := h.regions
  blockCount := h.catalogue.length
  freeCount := h.freeList.length
  catalogue := (h.catalogue.walk h.memory).map (Block.read h.memory)
  freeList := (h.freeList.walk h.memory).map (Block.read h.memory)

/-- The bookkeeping in numbers. -/
def statistics (h : Heap) : Except Fault Statistics :=
  h.snapshot.statistics

/-- Every block, the free list and the totals. -/
def inventory (h : Heap) : Except Fault Inventory :=
  h.snapshot.inventory

/-- The blocks still handed out, if there are any. -/
def leaks (h : Heap) : Except Fault (Option LeakListing) :=
  h.snapshot.leaks

/-- Checks both chains, and says what is wrong. -/
def audit (h : Heap) : Except Fault (Except Failure Unit) :=
  (·.mapError Failure.corrupted) <$> h.snapshot.audit

end Heap

end RegionHeap
