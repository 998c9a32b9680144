import RegionHeap.AddressSpace
import RegionHeap.Fault

/-!
# A plain heap

A stand-in for the allocator of the C library, so that programs that were given that one can be run. It
hands out what it is asked for, up to the limit of the operating system, and can report nothing. Where it
puts an allocation and what it remembers of it are made up: it uses no address twice and keeps the sizes.
Nothing is proved about it.
-/

set_option autoImplicit false

namespace RegionHeap

/-- The state of the stand-in: the start and the size of each allocation, latest first. -/
structure SystemHeap where
  memory : Memory := .blank
  sizes : List (Nat × Nat) := []
  /-- Where the next allocation starts. -/
  top : Nat := pageSize

instance : Inhabited SystemHeap := ⟨{}⟩

/-- A call on a plain heap. -/
abbrev SystemHeapM := EStateM Fault SystemHeap

namespace SystemHeap

/-- Allocations start at multiples of this. -/
def grain : Nat := 2 * wordSize

/-- At least `size` bytes, or the null pointer when the operating system would not map that many. -/
def malloc (size : Nat) : SystemHeapM (Option Nat) := do
  if Placement.lengthLimit ≤ size then
    return none
  let s ← get
  set { s with sizes := (s.top, size) :: s.sizes, top := s.top + (size / grain + 1) * grain }
  return some s.top

/-- `count * size` bytes that are all 0, or the null pointer. -/
def calloc (count size : Nat) : SystemHeapM (Option Nat) := do
  match ← malloc (count * size) with
  | none => return none
  | some p =>
    modify fun s => { s with memory := s.memory.clear p (count * size) }
    return some p

/-- Gives an allocation back. The null pointer is ignored. -/
def free (pointer : Option Nat) : SystemHeapM Unit :=
  modify fun s => { s with sizes := s.sizes.filter fun (start, _) => some start ≠ pointer }

/-- Resizes an allocation, which moves. The null pointer asks for a new one, a size of 0 gives it
back. -/
def realloc (pointer : Option Nat) (size : Nat) : SystemHeapM (Option Nat) := do
  match pointer with
  | none => malloc size
  | some p =>
    if size = 0 then
      free pointer
      return none
    match ← malloc size with
    | none => return none
    | some q =>
      modify fun s => { s with
        memory := s.memory.setBytes q (s.memory.bytes p (min ((s.sizes.lookup p).getD 0) size)) }
      free pointer
      return some q

end SystemHeap

end RegionHeap
