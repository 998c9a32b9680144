import RegionHeap.Fault

/-!
# Words and addresses

The machine has 64-bit words of eight bytes. Sizes, counts and addresses are natural numbers; a word
that holds an address holds 0 for none. Sums and differences stop the call when a word cannot hold them,
so every number that is stored is below `wordLimit`. One count has 32 bits, one of them for a sign.

* `add_eq_ok_iff`, `sub_eq_ok_iff` — exactly when sums and differences succeed, and with what.
-/

set_option autoImplicit false

namespace RegionHeap

/-- Bytes of a machine word. Every block size is a multiple of it. -/
def wordSize : Nat := 8

/-- One more than the largest number a machine word holds. -/
def wordLimit : Nat := 1 <<< 64

/-- The largest number of bytes one object may span: half the address range, less one. -/
def maxSpan : Nat := 1 <<< 63 - 1

/-- Bytes of a page, the grain in which the operating system hands out memory. The operating system is
asked for it where a program runs; here it is what Linux answers on x86-64. -/
def pageSize : Nat := 4096

/-- One more than the largest number that a signed count of 32 bits holds. -/
def countLimit : Nat := 1 <<< 31

/-- The next number of a signed count of 32 bits, if it holds that. -/
def countUp (n : Nat) : Except Fault Nat :=
  if n + 1 < countLimit then .ok (n + 1) else .error .countOverflow

namespace Word

/-- The sum of two words, if it is one. -/
def add (a b : Nat) : Except Fault Nat :=
  if a + b < wordLimit then .ok (a + b) else .error .additionOverflow

/-- The difference of two words, if it is not negative. -/
def sub (a b : Nat) : Except Fault Nat :=
  if b ≤ a then .ok (a - b) else .error .subtractionOverflow

/-- The sum of a list of words, if it is a word. -/
def sum (xs : List Nat) : Except Fault Nat :=
  xs.foldlM add 0

theorem add_eq_ok_iff {a b c : Nat} : add a b = .ok c ↔ a + b < wordLimit ∧ c = a + b := by
  unfold add
  split
  · simp_all [eq_comm]
  · simp only [reduceCtorEq, false_iff]
    omega

theorem add_eq_ok {a b : Nat} (h : a + b < wordLimit) : add a b = .ok (a + b) :=
  add_eq_ok_iff.2 ⟨h, rfl⟩

theorem sub_eq_ok_iff {a b c : Nat} : sub a b = .ok c ↔ b ≤ a ∧ c = a - b := by
  unfold sub
  split
  · simp_all [eq_comm]
  · simp only [reduceCtorEq, false_iff]
    omega

theorem sub_eq_ok {a b : Nat} (h : b ≤ a) : sub a b = .ok (a - b) :=
  sub_eq_ok_iff.2 ⟨h, rfl⟩

end Word

end RegionHeap
