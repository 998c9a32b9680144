import Mathlib.Algebra.Ring.Nat
import Mathlib.Order.Bounds.Basic
import RegionHeap.Rounding

/-!
# Least multiples

Clearing the low bits of a sum rounds up to the least multiple. The two ways of rounding add differently,
and so only one of them rounds the last multiple that a word holds.

* `isLeast_nextMultiple` — the least multiple that is at least a number.
* `add_le_of_dvd_of_lt` — between two multiples there is room for one more step.
* `roundUp?_eq`, `roundUp_eq` — what is answered, and where an answer is missing.
* `roundUp?_again`, `roundUp_again` — rounding what was rounded.
* `rounds_to_least` — the two answers side by side.
-/

set_option autoImplicit false

namespace RegionHeap

variable {v w a k m n : Nat}

/-- The multiples of `a` that are at least `v`. -/
def multiplesFrom (a v : Nat) : Set Nat :=
  {m | a ∣ m ∧ v ≤ m}

/-- The number `v`, rounded up by division. -/
def nextMultiple (v a : Nat) : Nat :=
  (v + (a - 1)) / a * a

/-! ### The least multiple -/

theorem isLeast_nextMultiple (pos : 0 < a) : IsLeast (multiplesFrom a v) (nextMultiple v a) := by
  have parts := Nat.div_add_mod (v + (a - 1)) a
  have rest := Nat.mod_lt (v + (a - 1)) pos
  unfold nextMultiple
  refine ⟨⟨Nat.dvd_mul_left _ _, ?_⟩, ?_⟩
  · rw [Nat.mul_comm]
    omega
  · rintro n ⟨⟨q, rfl⟩, le⟩
    have quotient : (v + (a - 1)) / a < q + 1 := by
      apply Nat.div_lt_of_lt_mul
      rw [Nat.mul_succ]
      omega
    rw [Nat.mul_comm]
    exact Nat.mul_le_mul_left a (Nat.le_of_lt_succ quotient)

theorem nextMultiple_mono (pos : 0 < a) (le : v ≤ w) : nextMultiple v a ≤ nextMultiple w a :=
  (isLeast_nextMultiple pos).mono (isLeast_nextMultiple pos) fun _ mem => ⟨mem.1, le.trans mem.2⟩

theorem nextMultiple_of_dvd (pos : 0 < a) (dvd : a ∣ v) : nextMultiple v a = v :=
  (isLeast_nextMultiple pos).unique ⟨⟨dvd, Nat.le_refl v⟩, fun _ mem => mem.2⟩

theorem nextMultiple_le (v a : Nat) : nextMultiple v a ≤ v + (a - 1) :=
  Nat.div_mul_le_self _ _

/-- Between two multiples there is room for one more step. -/
theorem add_le_of_dvd_of_lt (dvd : a ∣ m) (dvd' : a ∣ n) (lt : m < n) : m + a ≤ n := by
  obtain ⟨p, rfl⟩ := dvd
  obtain ⟨q, rfl⟩ := dvd'
  rw [← Nat.mul_succ]
  exact Nat.mul_le_mul_left a (Nat.lt_of_mul_lt_mul_left lt)

/-! ### Rounding with a mask -/

/-- What the two ways of rounding `v` up to multiples of `a` answer, when `m` is the number to answer with.
`roundUp?` may have no answer, `roundUp` may be stopped. -/
structure RoundsTo (a v m : Nat) : Prop where
  least : IsLeast (multiplesFrom a v) m
  checked : roundUp? v a = if v + a - 1 < wordLimit then some m else none
  /-- Where there is no answer, no word could be one. -/
  beyond : roundUp? v a = none → ∀ n < wordLimit, a ∣ n → n < v
  stopping : roundUp v a = if wordLimit ≤ v + a then .error .additionOverflow else .ok m
  differ : roundUp? v a ≠ (roundUp v a).toOption ↔ v = wordLimit - a
  again : ∀ n, roundUp? v a = some n → roundUp? n a = some n
  stopping_again : ∀ n, roundUp v a = .ok n →
    roundUp n a = if n = wordLimit - a then .error .additionOverflow else .ok n
  mono : ∀ w n, v ≤ w → roundUp? w a = some n → ∃ l ≤ n, roundUp? v a = some l
  stopping_mono : ∀ w n, v ≤ w → roundUp w a = .ok n → ∃ l ≤ n, roundUp v a = .ok l

theorem power_pos (power : a = 2 ^ k) : 0 < a := by
  rw [power]
  exact Nat.two_pow_pos k

section Power

variable (small : k < 64) (power : a = 2 ^ k)

include small power

/-- The words end at a multiple of every power of two that a word holds. -/
theorem dvd_wordLimit : a ∣ wordLimit := by
  rw [power, wordLimit, Nat.one_shiftLeft]
  exact Nat.pow_dvd_pow 2 (Nat.le_of_lt small)

theorem clearLowBits_of_power (word : n < wordLimit) : clearLowBits n a = n / a * a :=
  clearLowBits_eq word (Nat.le_of_lt small) (by rw [power, Nat.one_shiftLeft])

/-- One less than the alignment is added, and that sum has to be a word. -/
theorem roundUp?_eq :
    roundUp? v a = if v + a - 1 < wordLimit then some (nextMultiple v a) else none := by
  have pos := power_pos power
  unfold roundUp?
  rw [Nat.add_sub_assoc pos]
  split
  · next room => rw [clearLowBits_of_power small power room, nextMultiple]
  · rfl

/-- The whole alignment is added, and that sum has to be a word. -/
theorem roundUp_eq : roundUp v a =
    if wordLimit ≤ v + a then .error .additionOverflow else .ok (nextMultiple v a) := by
  have pos := power_pos power
  unfold roundUp
  by_cases past : wordLimit ≤ v + a
  · have full : Word.add v a = .error .additionOverflow := if_neg (Nat.not_lt.2 past)
    rw [if_pos past, full]
    rfl
  · have room : v + a < wordLimit := Nat.lt_of_not_le past
    have masked : clearLowBits (v + a - 1) a = nextMultiple v a := by
      rw [clearLowBits_of_power small power (by omega), nextMultiple, Nat.add_sub_assoc pos]
    rw [if_neg past, Word.add_eq_ok room]
    exact congrArg Except.ok masked

theorem roundUp?_eq_some_iff :
    roundUp? v a = some n ↔ v + a - 1 < wordLimit ∧ n = nextMultiple v a := by
  rw [roundUp?_eq small power]
  split <;> simp_all [eq_comm]

theorem roundUp_eq_ok_iff : roundUp v a = .ok n ↔ v + a < wordLimit ∧ n = nextMultiple v a := by
  rw [roundUp_eq small power]
  split
  · simp only [reduceCtorEq, false_iff]
    omega
  · simp only [Except.ok.injEq]
    omega

/-- What is no answer is beyond all multiples that a word holds. -/
theorem lt_of_roundUp?_eq_none (missing : roundUp? v a = none) (word : n < wordLimit) (dvd : a ∣ n) :
    n < v := by
  rw [roundUp?_eq small power] at missing
  split at missing
  · cases missing
  · have := add_le_of_dvd_of_lt dvd (dvd_wordLimit small power) word
    omega

/-- Rounding what was rounded changes nothing. -/
theorem roundUp?_again (rounded : roundUp? v a = some n) : roundUp? n a = some n := by
  have pos := power_pos power
  obtain ⟨room, rfl⟩ := (roundUp?_eq_some_iff small power).1 rounded
  have dvd := (isLeast_nextMultiple (v := v) pos).1.1
  have le := nextMultiple_le v a
  have last := add_le_of_dvd_of_lt dvd (dvd_wordLimit small power) (by omega)
  exact (roundUp?_eq_some_iff small power).2 ⟨by omega, (nextMultiple_of_dvd pos dvd).symm⟩

/-- Rounding what was rounded changes nothing, or is stopped at the last multiple that a word holds. -/
theorem roundUp_again (rounded : roundUp v a = .ok n) :
    roundUp n a = if n = wordLimit - a then .error .additionOverflow else .ok n := by
  have pos := power_pos power
  obtain ⟨room, rfl⟩ := (roundUp_eq_ok_iff small power).1 rounded
  have dvd := (isLeast_nextMultiple (v := v) pos).1.1
  have le := nextMultiple_le v a
  have last := add_le_of_dvd_of_lt dvd (dvd_wordLimit small power) (by omega)
  rw [roundUp_eq small power, nextMultiple_of_dvd pos dvd]
  by_cases greatest : nextMultiple v a = wordLimit - a
  · rw [if_pos (by omega), if_pos greatest]
  · rw [if_neg (by omega), if_neg greatest]

/-- Where a word is rounded, every smaller one is, to no more. -/
theorem roundUp?_mono (le : v ≤ w) (rounded : roundUp? w a = some n) :
    ∃ l ≤ n, roundUp? v a = some l := by
  obtain ⟨room, rfl⟩ := (roundUp?_eq_some_iff small power).1 rounded
  exact ⟨_, nextMultiple_mono (power_pos power) le,
    (roundUp?_eq_some_iff small power).2 ⟨by omega, rfl⟩⟩

theorem roundUp_mono (le : v ≤ w) (rounded : roundUp w a = .ok n) :
    ∃ l ≤ n, roundUp v a = .ok l := by
  obtain ⟨room, rfl⟩ := (roundUp_eq_ok_iff small power).1 rounded
  exact ⟨_, nextMultiple_mono (power_pos power) le,
    (roundUp_eq_ok_iff small power).2 ⟨by omega, rfl⟩⟩

/-- The two ways of rounding differ at one word. -/
theorem roundUp?_ne_iff : roundUp? v a ≠ (roundUp v a).toOption ↔ v = wordLimit - a := by
  have pos := power_pos power
  have le := Nat.le_of_dvd (by decide) (dvd_wordLimit small power)
  rw [roundUp?_eq small power, roundUp_eq small power]
  rcases Nat.lt_trichotomy (v + a) wordLimit with lt | eq | gt
  · rw [if_pos (by omega), if_neg (Nat.not_le.2 lt)]
    simp only [Except.toOption, ne_eq, not_true, false_iff]
    omega
  · rw [if_pos (by omega), if_pos (Nat.le_of_eq eq.symm)]
    simp only [Except.toOption, ne_eq, reduceCtorEq, not_false_eq_true, true_iff]
    omega
  · rw [if_neg (by omega), if_pos (Nat.le_of_lt gt)]
    simp only [Except.toOption, ne_eq, not_true, false_iff]
    omega

/-- **Rounding with a mask is rounding to the least multiple.** The two ways of rounding to multiples of a
power of two answer with the least multiple that is no smaller. One has an answer as long as `v + a - 1` is
a word, and none only where no word is such a multiple; the other one answers as long as `v + a` is a word,
and is stopped otherwise. So they differ at `wordLimit - a` and nowhere else. Rounding what was rounded
changes nothing, although the second way is stopped at the last multiple; and where a word is rounded, every
smaller one is, to no more. -/
theorem rounds_to_least : RoundsTo a v (nextMultiple v a) where
  least := isLeast_nextMultiple (power_pos power)
  checked := roundUp?_eq small power
  beyond missing _ word dvd := lt_of_roundUp?_eq_none small power missing word dvd
  stopping := roundUp_eq small power
  differ := roundUp?_ne_iff small power
  again _ rounded := roundUp?_again small power rounded
  stopping_again _ rounded := roundUp_again small power rounded
  mono _ _ le rounded := roundUp?_mono small power le rounded
  stopping_mono _ _ le rounded := roundUp_mono small power le rounded

end Power

/-- The last page but one, less a byte of its rest, goes up to the last one, where the ways part. -/
theorem rounds_to_least_pages : RoundsTo 4096 (wordLimit - 8191) (wordLimit - 4096) ∧
    RoundsTo 4096 (wordLimit - 4096) (wordLimit - 4096) ∧
    roundUp? (wordLimit - 4096) 4096 = some (wordLimit - 4096) ∧
    roundUp (wordLimit - 4096) 4096 = .error .additionOverflow := by
  have within : nextMultiple (wordLimit - 8191) 4096 = wordLimit - 4096 := by decide
  have last : nextMultiple (wordLimit - 4096) 4096 = wordLimit - 4096 := by decide
  have below := @rounds_to_least (wordLimit - 8191) 4096 12 (by decide) rfl
  have top := @rounds_to_least (wordLimit - 4096) 4096 12 (by decide) rfl
  rw [within] at below
  rw [last] at top
  exact ⟨below, top, top.checked, top.stopping⟩

end RegionHeap
