import RegionHeap.Word

/-!
# Rounding up to a power of two

Block sizes are rounded up to whole words and region lengths to whole pages, by adding and then
clearing the low bits. `roundUp` adds the whole alignment first and so stops the call for a value
that `roundUp?` still rounds: `wordLimit - a`.

* `clearLowBits_eq` — clearing the low bits of a word is rounding down.
-/

set_option autoImplicit false

namespace RegionHeap

/-- Clears the bits of the word `n` below the power of two `alignment`. -/
def clearLowBits (n alignment : Nat) : Nat :=
  n &&& (wordLimit - alignment)

/-- The least multiple of the power of two `alignment` that is at least `n`. The call stops when
`n + alignment` is no word. -/
def roundUp (n alignment : Nat) : Except Fault Nat := do
  let past ← Word.add n alignment
  return clearLowBits (past - 1) alignment

/-- The least multiple of the power of two `alignment` that is at least `n`, for sizes that come
from a caller: `none` when `n + (alignment - 1)` is no word. -/
def roundUp? (n alignment : Nat) : Option Nat :=
  if n + (alignment - 1) < wordLimit then some (clearLowBits (n + (alignment - 1)) alignment)
  else none

/-- Clearing the bits below a power of two rounds a word down to a multiple of it. -/
theorem clearLowBits_eq {n a k : Nat} (hn : n < wordLimit) (hk : k ≤ 64) (ha : a = 1 <<< k) :
    clearLowBits n a = n / a * a := by
  have shifts : n / a * a = n >>> k <<< k := by
    rw [ha, Nat.one_shiftLeft, Nat.shiftRight_eq_div_pow, Nat.shiftLeft_eq]
  have mask : wordLimit - 1 <<< k = (1 <<< (64 - k) - 1) <<< k := by
    rw [Nat.shiftLeft_eq (1 <<< (64 - k) - 1), Nat.sub_mul, ← Nat.shiftLeft_eq, ← Nat.shiftLeft_eq,
      ← Nat.shiftLeft_add, Nat.sub_add_cancel hk, wordLimit]
  rw [shifts, clearLowBits, ha, mask]
  apply Nat.eq_of_testBit_eq
  intro i
  rw [Nat.testBit_and, Nat.testBit_shiftLeft, Nat.testBit_shiftLeft, Nat.testBit_shiftRight,
    Nat.one_shiftLeft, Nat.testBit_two_pow_sub_one]
  by_cases hi : k ≤ i
  · rw [Nat.add_sub_cancel' hi]
    by_cases h64 : i < 64
    · simp [hi, show i - k < 64 - k by omega]
    · have : n.testBit i = false := by
        apply Nat.testBit_lt_two_pow
        rw [wordLimit, Nat.one_shiftLeft] at hn
        exact Nat.lt_of_lt_of_le hn (Nat.pow_le_pow_right (by omega) (by omega))
      simp [this]
  · simp [hi]

end RegionHeap
