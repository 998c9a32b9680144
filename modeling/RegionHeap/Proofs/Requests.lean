import RegionHeap.Allocation
import RegionHeap.Proofs.Multiples

/-!
# Sizes of requests

The settings that can be built, and the payload bytes that a request is served with.

* `Settings.Built.usable` — however settings are built, the smallest block is whole words.
* `wholeWords` — the words that so many bytes take.
* `Settings.blockSize_eq` — how many bytes are set aside for a request, and which requests are refused.
* `Settings.blockSize_eq_ok` — a block for a request holds whole words, and no fewer than were asked
  for.
-/

set_option autoImplicit false

namespace RegionHeap

/-- The bytes of the words that `n` bytes take. -/
def wholeWords (n : Nat) : Nat :=
  (n + (wordSize - 1)) / wordSize * wordSize

theorem wholeWords_mod (n : Nat) : wholeWords n % wordSize = 0 :=
  Nat.mul_mod_left _ _

theorem le_wholeWords (n : Nat) : n ≤ wholeWords n := by
  unfold wholeWords wordSize
  omega

theorem wholeWords_eq {n : Nat} (words : n % wordSize = 0) : wholeWords n = n := by
  unfold wholeWords
  unfold wordSize at *
  omega

namespace Settings

/-- Settings that the functions of this library build. -/
inductive Built : Settings → Prop
  | default : Built {}
  | environment (env : Environment) : Built (ofEnvironment env)
  | minBlock {s : Settings} (built : Built s) (n : Nat) : Built (s.withMinBlock n)
  | retained {s : Settings} (built : Built s) (n : Nat) : Built (s.withRetained n)

/-- The smallest block is whole words, none included, and at most half the address range. -/
structure Usable (s : Settings) : Prop where
  words : s.minBlock % wordSize = 0
  most : s.minBlock ≤ maxSpan + 1

theorem usable_default : Usable {} :=
  ⟨rfl, by decide⟩

/-- The smallest block is set in whole words. -/
theorem minBlock_withMinBlock (s : Settings) (n : Nat) :
    (s.withMinBlock n).minBlock = wholeWords (max wordSize (min n maxSpan)) := by
  apply clearLowBits_of_power (k := 3) (by decide) rfl
  unfold wordSize maxSpan wordLimit
  omega

/-- Any number becomes some whole words. -/
theorem usable_withMinBlock (s : Settings) (n : Nat) : (s.withMinBlock n).Usable := by
  constructor
  · rw [minBlock_withMinBlock]
    exact wholeWords_mod _
  · rw [minBlock_withMinBlock]
    unfold wholeWords wordSize maxSpan
    omega

theorem Usable.withRetained {s : Settings} (h : s.Usable) (n : Nat) : (s.withRetained n).Usable :=
  ⟨h.words, h.most⟩

theorem usable_ofEnvironment (env : Environment) : (ofEnvironment env).Usable := by
  unfold ofEnvironment
  cases env.minBlock.bind readVariable with
  | none =>
    cases env.retained.bind readVariable with
    | none => exact usable_default
    | some k => exact usable_default.withRetained k
  | some n =>
    cases env.retained.bind readVariable with
    | none => exact usable_withMinBlock _ n
    | some k => exact (usable_withMinBlock _ n).withRetained k

/-- However settings are built, they are usable. -/
theorem Built.usable {s : Settings} (h : Built s) : s.Usable := by
  induction h with
  | default => exact usable_default
  | environment env => exact usable_ofEnvironment env
  | minBlock _ n => exact usable_withMinBlock _ n
  | retained _ n ih => exact ih.withRetained n

/-! ### Sizes of blocks -/

/-- Words are set aside for a request, and no fewer bytes than the smallest block has, unless the words
for the request alone are more than a payload may have. -/
theorem blockSize_eq (s : Settings) (n : Nat) : s.blockSize n =
    if wholeWords n ≤ maxPayload then .ok (max (wholeWords n) s.minBlock)
    else .error (.sizeOverflow n) := by
  unfold blockSize
  rw [roundUp?_eq (a := wordSize) (k := 3) (by decide) rfl, Nat.add_sub_assoc (by decide)]
  by_cases room : n + (wordSize - 1) < wordLimit
  · rw [if_pos room]
    rfl
  · have large : ¬ wholeWords n ≤ maxPayload := by
      have := le_wholeWords n
      unfold wordLimit wordSize at room
      unfold maxPayload maxSpan Header.length
      omega
    rw [if_neg room, if_neg large]

theorem blockSize_eq_ok_iff {s : Settings} {n size : Nat} : s.blockSize n = .ok size ↔
    wholeWords n ≤ maxPayload ∧ size = max (wholeWords n) s.minBlock := by
  rw [blockSize_eq]
  by_cases fits : wholeWords n ≤ maxPayload
  · rw [if_pos fits]
    simp [fits, eq_comm]
  · rw [if_neg fits]
    simp [fits]

/-- What a block for a request of `n` bytes is like. -/
theorem blockSize_eq_ok {s : Settings} {n size : Nat} (h : s.Usable)
    (e : s.blockSize n = .ok size) : size % wordSize = 0 ∧ s.minBlock ≤ size ∧ n ≤ size ∧
      Header.length + size < wordLimit := by
  obtain ⟨fits, rfl⟩ := blockSize_eq_ok_iff.1 e
  have enough := le_wholeWords n
  have words := wholeWords_mod n
  have least := h.words
  have most := h.most
  unfold maxPayload Header.length maxSpan at fits
  unfold maxSpan at most
  unfold wordSize at *
  unfold Header.length wordLimit
  omega

/-- A block for a request has no more bytes than may be asked for, if the smallest block has not. -/
theorem blockSize_le {s : Settings} {n size : Nat} (e : s.blockSize n = .ok size)
    (small : s.minBlock ≤ maxPayload) : size ≤ maxPayload := by
  obtain ⟨fits, rfl⟩ := blockSize_eq_ok_iff.1 e
  exact Nat.max_le.2 ⟨fits, small⟩

/-- As many bytes as a block may have are neither rounded nor refused. -/
theorem blockSize_of_words {s : Settings} {n : Nat} (words : n % wordSize = 0)
    (least : s.minBlock ≤ n) (most : n ≤ maxPayload) : s.blockSize n = .ok n := by
  have whole := wholeWords_eq words
  exact blockSize_eq_ok_iff.2 ⟨by rwa [whole], by rw [whole, Nat.max_eq_left least]⟩

end Settings

end RegionHeap
