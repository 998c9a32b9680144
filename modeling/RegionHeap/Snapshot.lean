import RegionHeap.Block
import RegionHeap.Rounding

/-!
# Snapshots and reports

A snapshot holds what the headers of all blocks say, in catalogue order and in free list order, as
walks through the two chains. The statistics, the inventory and the listing of leaks are functions of
it; each stops where its own walks do.
-/

set_option autoImplicit false

namespace RegionHeap

/-- The blocks of a heap at one moment, with the counts that the heap keeps. -/
structure Snapshot where
  /-- Regions that are mapped. -/
  regions : Nat
  /-- The length that the catalogue keeps. -/
  blockCount : Nat
  /-- The length that the free list keeps. -/
  freeCount : Nat
  /-- All blocks in catalogue order. -/
  catalogue : Walk Block
  /-- The blocks of the free list in its order. -/
  freeList : Walk Block
  deriving DecidableEq, Repr

/-- The bookkeeping of a heap in numbers. -/
structure Statistics where
  /-- Regions that are mapped. -/
  regions : Nat
  /-- Blocks, free or used. -/
  blocks : Nat
  /-- Blocks of the free list. -/
  freeBlocks : Nat
  /-- Payload bytes handed out. -/
  usedBytes : Nat
  /-- Payload bytes of the free list. -/
  freeBytes : Nat
  /-- Bytes of all regions, each rounded up to whole pages. -/
  mappedBytes : Nat
  deriving DecidableEq, Repr

/-- Everything a heap holds: each block, the order of the free list, and the totals. -/
structure Inventory where
  regions : Nat
  blockCount : Nat
  freeCount : Nat
  blocks : List Block
  free : List Block
  totalBytes : Nat
  freeBytes : Nat
  mappedBytes : Nat
  deriving DecidableEq, Repr

/-- The blocks that are still handed out, at least one. -/
structure LeakListing where
  regions : Nat
  blockCount : Nat
  blocks : List Block
  /-- The number of these blocks, counted in 32 bits. -/
  count : Nat
  bytes : Nat
  deriving DecidableEq, Repr

/-! ### Texts -/

/-- The inventory as a text: a line a block, the free list on one line, the totals. -/
def Inventory.text (atlas : Atlas) (i : Inventory) : String :=
  s!"-- BlockList[{i.regions}/{i.blockCount}] --\n"
    ++ String.join (i.blocks.map fun b => b.describe atlas ++ "\n")
    ++ s!"\n-- FreeBlockList[{i.freeCount}] --\n"
    ++ String.join (i.free.map fun b => s!"[{atlas.text b.addr}] -> ")
    ++ "[NULL]\n"
    ++ "\n-- Memory Summary --\n"
    ++ s!"total {i.totalBytes} bytes\n"
    ++ s!"free {i.freeBytes} bytes\n"
    ++ s!"mapped {i.mappedBytes} bytes\n"

/-- The listing of leaks as a text: a line a block and the totals. -/
def LeakListing.text (atlas : Atlas) (l : LeakListing) : String :=
  s!"-- LeakStats[{l.regions}/{l.blockCount}] --\n"
    ++ String.join (l.blocks.map fun b => b.describe atlas ++ "\n")
    ++ "-- Leak Summary --\n"
    ++ s!"{l.count} blocks lost ({l.bytes} bytes)"

namespace Snapshot

/-! ### Regions -/

/-- The blocks of each region, from a region head to the last block after it that names the same
region. -/
def regionRuns : List Block → List (List Block)
  | [] => []
  | b :: rest =>
    if b.isRegionHead then (b :: rest.takeWhile (·.region == b.region)) :: regionRuns rest
    else regionRuns rest

/-- The bytes that a run of blocks takes, headers included. -/
def runExtent (run : List Block) : Except Fault Nat :=
  Word.sum (run.map Block.extent)

/-- The bytes of all regions, each rounded up to whole pages. -/
def mappedBytes (s : Snapshot) : Except Fault Nat := do
  Word.sum (← (regionRuns s.catalogue.items).mapM fun run => do roundUp (← runExtent run) pageSize)

/-! ### Reports -/

/-- The payload bytes of a list of blocks. -/
def payloadBytes (bs : List Block) : Except Fault Nat :=
  Word.sum (bs.map Block.size)

/-- The blocks that are handed out, in catalogue order. -/
def used (s : Snapshot) : List Block :=
  s.catalogue.items.filter Block.used

/-- The bookkeeping in numbers. -/
def statistics (s : Snapshot) : Except Fault Statistics := do
  let freeBytes ← s.freeList.total Block.size
  let usedBytes ← payloadBytes s.used
  let mappedBytes ← s.mappedBytes
  s.catalogue.finish
  return { regions := s.regions, blocks := s.blockCount, freeBlocks := s.freeCount,
           usedBytes, freeBytes, mappedBytes }

/-- Every block, the free list and the totals. -/
def inventory (s : Snapshot) : Except Fault Inventory := do
  let totalBytes ← s.catalogue.total Block.size
  let free ← s.freeList.all
  let stats ← s.statistics
  return { regions := s.regions, blockCount := s.blockCount, freeCount := s.freeCount,
           blocks := s.catalogue.items, free, totalBytes,
           freeBytes := stats.freeBytes, mappedBytes := stats.mappedBytes }

/-- One more block on a listing: its bytes are added up, and it is counted. -/
def tallyBlock (sum : Nat × Nat) (b : Block) : Except Fault (Nat × Nat) := do
  let bytes ← Word.add sum.1 b.size
  let count ← countUp sum.2
  return (bytes, count)

/-- The payload bytes of the blocks on a listing, and how many blocks there are. The bytes are a word, but
the number is a signed count of 32 bits: the listing stops at the block that this cannot count. -/
def tally (bs : List Block) : Except Fault (Nat × Nat) :=
  bs.foldlM tallyBlock (0, 0)

/-- The blocks still handed out, if any were counted. -/
def leaks (s : Snapshot) : Except Fault (Option LeakListing) := do
  let (bytes, count) ← tally s.used
  s.catalogue.finish
  return if count = 0 then none
    else some { regions := s.regions, blockCount := s.blockCount, blocks := s.used, count, bytes }

end Snapshot

end RegionHeap
