import RegionHeap.Allocation
import RegionHeap.SystemHeap

/-!
# What every heap offers

The calls that a program makes on whichever heap it was given, and what the heap can tell about
itself. A heap that keeps no books tells nothing.
-/

set_option autoImplicit false

namespace RegionHeap

/-- What a heap knows about blocks that are still handed out. -/
inductive LeakStatus where
  /-- The heap keeps no books. -/
  | unsupported
  /-- Nothing is handed out. -/
  | clean
  /-- Some blocks are handed out. -/
  | leaking (listing : LeakListing)
  deriving DecidableEq, Repr

/-- The text in place of every report of a heap that keeps no books. -/
def unsupportedText : String := "unsupported"

/-- The status as a text, which is empty when nothing is handed out. -/
def LeakStatus.text (atlas : Atlas) : LeakStatus → String
  | unsupported => unsupportedText
  | clean => ""
  | leaking listing => listing.text atlas

/-- The calls on a heap whose state is `σ`. Pointers are addresses; `none` is the null pointer, which
stands for a failure in an answer. -/
class Allocator (σ : Type) where
  /-- At least so many bytes. -/
  malloc : Nat → EStateM Fault σ (Option Nat)
  /-- So many objects of so many bytes, all 0. -/
  calloc : Nat → Nat → EStateM Fault σ (Option Nat)
  /-- What the pointer holds, in at least so many bytes. -/
  realloc : Option Nat → Nat → EStateM Fault σ (Option Nat)
  /-- Gives back what the pointer holds. -/
  free : Option Nat → EStateM Fault σ Unit
  /-- What the heap holds, unless it keeps no books. -/
  inventory : σ → Except Fault (Option Inventory)
  /-- What is still handed out. -/
  leakStatus : σ → Except Fault LeakStatus

/-- What is still handed out by a heap. -/
def Heap.leakStatus (h : Heap) : Except Fault LeakStatus := do
  match ← h.leaks with
  | none => return .clean
  | some listing => return .leaking listing

instance : Allocator Heap where
  malloc := Heap.malloc
  calloc := Heap.calloc
  realloc := Heap.realloc
  free := Heap.free
  inventory h := some <$> h.inventory
  leakStatus := Heap.leakStatus

instance : Allocator SystemHeap where
  malloc := SystemHeap.malloc
  calloc := SystemHeap.calloc
  realloc := SystemHeap.realloc
  free := SystemHeap.free
  inventory _ := .ok none
  leakStatus _ := .ok .unsupported

/-- What a heap holds as a text. -/
def Allocator.inventoryText {σ : Type} [Allocator σ] (atlas : Atlas) (s : σ) :
    Except Fault String := do
  match ← inventory s with
  | some i => return i.text atlas
  | none => return unsupportedText

/-- What is still handed out as a text, which is empty when nothing is. -/
def Allocator.leakText {σ : Type} [Allocator σ] (atlas : Atlas) (s : σ) : Except Fault String :=
  (·.text atlas) <$> leakStatus s

end RegionHeap
