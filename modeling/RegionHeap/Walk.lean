import RegionHeap.Word

/-!
# Walks

Following the links of a chain gives its members in order. The chain counts its members, and a walk
counts them down: links that lead on when none is left to count stop the call there. A walk therefore
keeps the members that were counted and whether the links led on past them. A search that ends before
that point never sees the fault; a sum over all members does.

* `all_ofList`, `find?_ofList` — a walk that stays within the count never faults.
-/

set_option autoImplicit false

namespace RegionHeap

/-- What following the links of a chain gives. -/
structure Walk (α : Type) where
  /-- The members that the chain counted, in order. -/
  items : List α
  /-- Whether the links lead on past them. -/
  overruns : Bool
  deriving DecidableEq, Repr

namespace Walk

variable {α β : Type}

/-- The walk that gives exactly the members of a list. -/
def ofList (xs : List α) : Walk α :=
  ⟨xs, false⟩

/-- The walk that meets `x` first. -/
def cons (x : α) (w : Walk α) : Walk α :=
  { w with items := x :: w.items }

/-- The same walk, each member seen through `f`. -/
def map (f : α → β) (w : Walk α) : Walk β :=
  ⟨w.items.map f, w.overruns⟩

/-- Walks to the end. The call stops when the links lead on past the count. -/
def finish (w : Walk α) : Except Fault Unit :=
  if w.overruns then .error .subtractionOverflow else .ok ()

/-- All members. -/
def all (w : Walk α) : Except Fault (List α) := do
  w.finish
  return w.items

/-- The first member that satisfies `p`. The walk ends there. -/
def find? (p : α → Bool) (w : Walk α) : Except Fault (Option α) :=
  match w.items.find? p with
  | some a => .ok (some a)
  | none => do
    w.finish
    return none

/-- The sum of the words `f a` over all members `a`. -/
def total (f : α → Nat) (w : Walk α) : Except Fault Nat := do
  let sum ← Word.sum (w.items.map f)
  w.finish
  return sum

/-! ### Walks within the count -/

@[simp]
theorem map_ofList (f : α → β) (xs : List α) : (ofList xs).map f = ofList (xs.map f) := rfl

@[simp]
theorem all_ofList (xs : List α) : (ofList xs).all = .ok xs := rfl

@[simp]
theorem find?_ofList (p : α → Bool) (xs : List α) : (ofList xs).find? p = .ok (xs.find? p) := by
  unfold find? ofList
  cases xs.find? p <;> rfl

end Walk

end RegionHeap
