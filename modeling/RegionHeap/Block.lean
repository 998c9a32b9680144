import RegionHeap.Address
import RegionHeap.Header

/-!
# What a header says

`Block` is the content of a header, links aside, at one moment. Reports and checks are made from
blocks, not from memory.
-/

set_option autoImplicit false

namespace RegionHeap

/-- A block as its header describes it. -/
structure Block where
  addr : Nat
  /-- Whether the header bears the mark. -/
  intact : Bool
  size : Nat
  id : Nat
  used : Bool
  fromBreak : Bool
  /-- The first block of the region. -/
  region : Nat
  deriving DecidableEq, Repr

namespace Block

/-- What the header at `b` says. -/
def read (m : Memory) (b : Nat) : Block where
  addr := b
  intact := Header.intact m b
  size := Header.size m b
  id := Header.id m b
  used := Header.used m b
  fromBreak := Header.fromBreak m b
  region := Header.region m b

/-- Where the payload starts. -/
def payload (b : Block) : Nat :=
  Header.payload b.addr

/-- Where the payload ends. -/
def finish (b : Block) : Nat :=
  b.payload + b.size

/-- Whether the block is the one its region starts with. -/
def isRegionHead (b : Block) : Bool :=
  b.region == b.addr

/-- Header and payload bytes. -/
def extent (b : Block) : Nat :=
  Header.length + b.size

/-- The line that shows a block in every report. Both ends of the payload are named from the block's
own region. -/
def describe (atlas : Atlas) (b : Block) : String :=
  let near := atlas.textFrom b.addr
  let size := toString b.size
  s!"[region: {atlas.text b.region}, block: {atlas.text b.addr}, data: {near b.payload}-{near b.finish}] "
    ++ "".pushn ' ' (10 - size.length) ++ size
    ++ (if b.used then " [USED]" else " [FREE]")
    ++ (if b.fromBreak then " [HEAP]" else " [MMAP]")
    ++ s!" [block_{b.id}]"

end Block

end RegionHeap
