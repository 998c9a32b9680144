/-!
# Faults

A fault stops a call: the caller broke a contract (a pointer that starts no block, a block freed
twice), or a word or a count cannot hold a result. It is not an answer of the allocator, unlike
`RegionHeap.Failure`, and whatever the call changed before it was stopped stays changed.
-/

set_option autoImplicit false

namespace RegionHeap

/-- Why a call was stopped. -/
inductive Fault where
  /-- A sum does not fit in a word. -/
  | additionOverflow
  /-- A difference would be negative. -/
  | subtractionOverflow
  /-- A signed count of 32 bits is at its end. -/
  | countOverflow
  /-- A block was to be cut to more bytes than it has. -/
  | cutBeyondEnd
  /-- A run of a chain was named by an end that does not follow its start. -/
  | endNotReachable
  /-- A pointer that is not where a block's payload starts. -/
  | notABlock (pointer : Nat)
  /-- A block given back although it is free. -/
  | doubleFree (pointer : Nat)
  /-- A block resized although it is free. -/
  | resizeOfFreed (pointer : Nat)
  /-- Two blocks of different regions were to become one. -/
  | mergeAcrossRegions (left right : Nat)
  /-- A block that is in use was to be absorbed by its neighbour. -/
  | mergeOfUsed (block : Nat)
  deriving DecidableEq, Repr

/-- The text of a fault, with addresses written by `name`. -/
def Fault.message (name : Nat → String) : Fault → String
  | additionOverflow | countOverflow => "attempt to add with overflow"
  | subtractionOverflow => "attempt to subtract with overflow"
  | cutBeyondEnd => "assertion failed: current >= size"
  | endNotReachable => "range end is not reachable from its start"
  | notABlock p => s!"invalid pointer {name p}: not the start of an allocated block"
  | doubleFree p => s!"double free of {name p}"
  | resizeOfFreed p => s!"realloc of freed block {name p}"
  | mergeAcrossRegions l r => s!"cross-region merge of {name l} and {name r}"
  | mergeOfUsed b => s!"merge of used block {name b}"

/-- A value that may be a fault is a step of a call: the fault stops the call where it is. -/
instance {σ : Type} : MonadLift (Except Fault) (EStateM Fault σ) where
  monadLift
    | .ok a => pure a
    | .error fault => throw fault

end RegionHeap
