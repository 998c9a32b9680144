import RegionHeap.AddressSpace
import RegionHeap.Snapshot.Audit

/-!
# Failures and the log

The answers of a call that did not do what was asked, and the events that a heap records, each with what
the headers said at that moment. A failed call leaves the heap as it was.
-/

set_option autoImplicit false

namespace RegionHeap

/-! ### Failures -/

/-- Why a call failed. -/
inductive Failure where
  /-- A zeroed allocation of no bytes. -/
  | zeroSize
  /-- No block can have this many bytes. -/
  | sizeOverflow (size : Nat)
  /-- The operating system refused to map this many bytes. -/
  | mapFailed (size : Nat) (cause : Refusal)
  /-- The operating system refused to take this many bytes back. -/
  | unmapFailed (addr size : Nat) (cause : Refusal)
  /-- An audit found the heap corrupted. -/
  | corrupted (finding : Corruption)
  deriving DecidableEq, Repr

/-- The text of a failure, with addresses written by `name`. -/
def Failure.message (name : Nat → String) : Failure → String
  | zeroSize => "zero-sized allocation request"
  | sizeOverflow size => s!"allocation of {size} bytes cannot be represented"
  | mapFailed size cause => s!"mmap of {size} bytes failed: {cause.message}"
  | unmapFailed addr size cause => s!"munmap of {size} bytes at {name addr} failed: {cause.message}"
  | corrupted finding => s!"heap corruption: {finding.message name}"

/-! ### Events -/

/-- How much an event matters. -/
inductive Level where
  | debug
  | warn
  | error
  deriving DecidableEq, Repr

/-- The name of a level in the log. -/
def Level.text : Level → String
  | debug => "DEBUG"
  | warn => "WARN"
  | error => "ERROR"

/-- Something worth recording. -/
inductive Event where
  /-- A free block was chosen for a request. -/
  | chosen (block : Block)
  /-- A block is about to be cut. -/
  | cutting (block : Block)
  /-- The front part of a block that was cut. -/
  | front (block : Block)
  /-- A block that is new or has a new size. -/
  | fresh (block : Block)
  /-- A block was given back. -/
  | freed (block : Block)
  /-- What a block given back was merged into. -/
  | merged (block : Block)
  /-- The left one of two blocks about to become one. -/
  | mergingLeft (block : Block)
  /-- The right one of two blocks about to become one. -/
  | mergingRight (block : Block)
  /-- A region that is one free block is about to be given back. -/
  | closing (block : Block)
  /-- The operating system refused to map memory. -/
  | mapFailed (size : Nat) (cause : Refusal)
  /-- The operating system refused to take memory back. -/
  | unmapFailed (addr size : Nat) (cause : Refusal)
  /-- A report found no block handed out. -/
  | noLeaks
  /-- A report found blocks handed out. -/
  | leaks (listing : LeakListing)
  deriving DecidableEq, Repr

namespace Event

/-- How much an event matters. -/
def level : Event → Level
  | mapFailed .. | unmapFailed .. => .error
  | noLeaks | leaks .. => .warn
  | _ => .debug

/-- The text of an event. -/
def message (atlas : Atlas) : Event → String
  | chosen b => s!"find free block: {b.describe atlas}"
  | cutting b => s!"split block: {b.describe atlas}"
  | front b => s!"old block: {b.describe atlas}"
  | fresh b => s!"new block: {b.describe atlas}"
  | freed b => s!"free block: {b.describe atlas}"
  | merged b => s!"merged block: {b.describe atlas}"
  | mergingLeft b => s!"lblock: {b.describe atlas}"
  | mergingRight b => s!"rblock: {b.describe atlas}"
  | closing b => s!"free merged block: {b.describe atlas}"
  | mapFailed size cause => s!"mmap failed, size: {size}, error: {cause.message}"
  | unmapFailed addr size cause =>
    s!"munmap failed, addr: {atlas.text addr}, size: {size}, error: {cause.message}"
  | noLeaks => "no memory leak found"
  | leaks listing => listing.text atlas

/-- The line that records an event: its level and its text. -/
def line (atlas : Atlas) (e : Event) : String :=
  s!"{e.level.text} {e.message atlas}"

end Event

end RegionHeap
