import RegionHeap.Word
import Std.Data.TreeMap

/-!
# Byte memory

`Memory` maps every address to a byte. Block headers, the links of chains and the bytes of callers
all live in it, so that a write to one is seen by every read that overlaps it. Numbers are kept in
words, least significant byte first; an address that may be missing is a word too, with 0 for none.

* `byte_setByte`, `byte_store`, `byte_setBytes`, `byte_clear` — what each write does to each byte.
* `word_setWord`, `word_setWord_of_disjoint`, `word_setByte_of_disjoint` — a word reads back, and a
  write elsewhere leaves it alone.
-/

set_option autoImplicit false

namespace RegionHeap

/-- The bytes of the machine, by address; those never written are 0. -/
structure Memory where
  cells : Std.TreeMap Nat UInt8 compare := ∅

namespace Memory

/-- Memory in which no byte has been written. -/
def blank : Memory := {}

instance : Inhabited Memory := ⟨blank⟩

/-! ### Bytes -/

/-- The byte at an address. -/
def byte (m : Memory) (a : Nat) : UInt8 :=
  m.cells.getD a 0

/-- Writes one byte. -/
def setByte (m : Memory) (a : Nat) (v : UInt8) : Memory :=
  { m with cells := m.cells.insert a v }

/-- The `n` bytes from `a` on. -/
def bytes (m : Memory) (a : Nat) (n : Nat) : List UInt8 :=
  (List.range n).map fun i => m.byte (a + i)

/-- Writes a list of bytes from `a` on. -/
def setBytes (m : Memory) (a : Nat) : List UInt8 → Memory
  | [] => m
  | b :: bs => (m.setByte a b).setBytes (a + 1) bs

/-- Makes the `n` bytes from `a` on 0, as those of a fresh mapping are. -/
def clear (m : Memory) (a : Nat) (n : Nat) : Memory :=
  { m with cells := m.cells.filter fun b _ => b < a || a + n ≤ b }

/-! ### Numbers -/

/-- The number spelled by the `n` bytes from `a` on, least significant byte first. -/
def load (m : Memory) (a : Nat) : Nat → Nat
  | 0 => 0
  | n + 1 => (m.byte a).toNat + 256 * m.load (a + 1) n

/-- Spells the number `v` into the `n` bytes from `a` on. -/
def store (m : Memory) (a : Nat) : Nat → Nat → Memory
  | 0, _ => m
  | n + 1, v => (m.store (a + 1) n (v / 256)).setByte a (UInt8.ofNat v)

/-- The word at an address. -/
def word (m : Memory) (a : Nat) : Nat :=
  m.load a wordSize

/-- Writes a word. -/
def setWord (m : Memory) (a : Nat) (v : Nat) : Memory :=
  m.store a wordSize v

/-- The address that the word at `a` holds, if it holds one. -/
def link (m : Memory) (a : Nat) : Option Nat :=
  if m.word a = 0 then none else some (m.word a)

/-- Writes an address, or none, into the word at `a`. -/
def setLink (m : Memory) (a : Nat) (target : Option Nat) : Memory :=
  m.setWord a (target.getD 0)

/-- The truth value that the byte at `a` holds. -/
def flag (m : Memory) (a : Nat) : Bool :=
  m.byte a != 0

/-- Writes a truth value into the byte at `a`. -/
def setFlag (m : Memory) (a : Nat) (b : Bool) : Memory :=
  m.setByte a (if b then 1 else 0)

/-! ### What a write does to each byte -/

@[simp]
theorem byte_blank (a : Nat) : blank.byte a = 0 := by
  simp [byte, blank]

theorem byte_setByte (m : Memory) (a b : Nat) (v : UInt8) :
    (m.setByte a v).byte b = if a = b then v else m.byte b := by
  simp [byte, setByte, Std.TreeMap.getD_insert]

@[simp]
theorem byte_setByte_self (m : Memory) (a : Nat) (v : UInt8) : (m.setByte a v).byte a = v := by
  simp [byte_setByte]

theorem byte_setByte_of_ne {m : Memory} {a b : Nat} {v : UInt8} (h : a ≠ b) :
    (m.setByte a v).byte b = m.byte b := by
  simp [byte_setByte, h]

theorem byte_clear (m : Memory) (a b : Nat) (n : Nat) :
    (m.clear a n).byte b = if a ≤ b ∧ b < a + n then 0 else m.byte b := by
  simp only [byte, clear, Std.TreeMap.getD_eq_getD_getElem?, Std.TreeMap.getElem?_filter']
  by_cases h : a ≤ b ∧ b < a + n
  · have : (decide (b < a) || decide (a + n ≤ b)) = false := by
      simp only [Bool.or_eq_false_iff, decide_eq_false_iff_not]
      omega
    rw [if_pos h]
    cases m.cells[b]? with
    | none => rfl
    | some v => simp [Option.filter, this]
  · have : (decide (b < a) || decide (a + n ≤ b)) = true := by
      simp only [Bool.or_eq_true, decide_eq_true_eq]
      omega
    rw [if_neg h]
    cases m.cells[b]? with
    | none => rfl
    | some v => simp [Option.filter, this]

theorem byte_store (m : Memory) (a b : Nat) (n v : Nat) :
    (m.store a n v).byte b =
      if a ≤ b ∧ b < a + n then UInt8.ofNat (v >>> (8 * (b - a))) else m.byte b := by
  induction n generalizing a v with
  | zero =>
    rw [if_neg (by omega)]
    rfl
  | succ n ih =>
    rw [store, byte_setByte, ih]
    by_cases hab : a = b
    · subst hab
      simp
    · rw [if_neg hab]
      by_cases h : a + 1 ≤ b ∧ b < a + 1 + n
      · obtain ⟨k, rfl⟩ : ∃ k, b = a + 1 + k := ⟨b - (a + 1), by omega⟩
        have next : v / 256 = v >>> 8 := (Nat.shiftRight_eq_div_pow v 8).symm
        have step : 8 + 8 * (a + 1 + k - (a + 1)) = 8 * (a + 1 + k - a) := by omega
        rw [if_pos h, if_pos (by omega), next, ← Nat.shiftRight_add, step]
      · rw [if_neg h, if_neg (by omega)]

theorem byte_setBytes (m : Memory) (a b : Nat) (bs : List UInt8) :
    (m.setBytes a bs).byte b = if a ≤ b then bs.getD (b - a) (m.byte b) else m.byte b := by
  induction bs generalizing m a with
  | nil => simp [setBytes]
  | cons x xs ih =>
    rw [setBytes, ih, byte_setByte]
    rcases Nat.lt_trichotomy a b with h | h | h
    · obtain ⟨k, rfl⟩ : ∃ k, b = a + 1 + k := ⟨b - (a + 1), by omega⟩
      rw [if_pos (by omega), if_neg (by omega), if_pos (by omega),
        show a + 1 + k - a = (a + 1 + k - (a + 1)) + 1 by omega, List.getD_cons_succ]
    · subst h
      rw [if_neg (by omega), if_pos rfl, if_pos (Nat.le_refl a), Nat.sub_self, List.getD_cons_zero]
    · rw [if_neg (by omega), if_neg (by omega), if_neg (by omega)]

/-! ### Words -/

/-- The numbers of `n + 1` bytes are 256 times as many as those of `n` bytes. -/
theorem shiftLeft_bytes_succ (n : Nat) : 1 <<< (8 * (n + 1)) = 256 * (1 <<< (8 * n)) := by
  rw [Nat.mul_succ, Nat.shiftLeft_add, Nat.shiftLeft_eq, Nat.mul_comm]

theorem load_lt (m : Memory) (a : Nat) (n : Nat) : m.load a n < 1 <<< (8 * n) := by
  induction n generalizing a with
  | zero => exact Nat.one_pos
  | succ n ih =>
    have := ih (a + 1)
    have := (m.byte a).toNat_lt
    rw [load, shiftLeft_bytes_succ]
    omega

theorem load_congr {m m' : Memory} {a : Nat} {n : Nat}
    (h : ∀ b, a ≤ b → b < a + n → m.byte b = m'.byte b) : m.load a n = m'.load a n := by
  induction n generalizing a with
  | zero => rfl
  | succ n ih =>
    rw [load, load, h a (by omega) (by omega), ih fun b h₁ h₂ => h b (by omega) (by omega)]

/-- A number reads back from as many bytes as it needs. -/
theorem load_store {m : Memory} {a n v : Nat} (h : v < 1 <<< (8 * n)) :
    (m.store a n v).load a n = v := by
  induction n generalizing a v with
  | zero =>
    have h : v < 1 := h
    rw [load]
    omega
  | succ n ih =>
    rw [shiftLeft_bytes_succ] at h
    have tail : (m.store a (n + 1) v).load (a + 1) n = (m.store (a + 1) n (v / 256)).load (a + 1) n :=
      load_congr fun b h _ => byte_setByte_of_ne (by omega)
    have first : (UInt8.ofNat v).toNat = v % 256 := UInt8.toNat_ofNat'
    rw [load, tail, ih (by omega), store, byte_setByte_self, first]
    exact Nat.mod_add_div v 256

theorem word_lt (m : Memory) (a : Nat) : m.word a < wordLimit :=
  m.load_lt a wordSize

theorem word_congr {m m' : Memory} {a : Nat}
    (h : ∀ b, a ≤ b → b < a + wordSize → m.byte b = m'.byte b) : m.word a = m'.word a :=
  load_congr h

/-- A word reads back. -/
theorem word_setWord {m : Memory} {a : Nat} {v : Nat} (h : v < wordLimit) :
    (m.setWord a v).word a = v := by
  exact load_store h

theorem byte_setWord_of_disjoint {m : Memory} {a b : Nat} {v : Nat}
    (h : b < a ∨ a + wordSize ≤ b) : (m.setWord a v).byte b = m.byte b := by
  rw [setWord, byte_store, if_neg (by omega)]

/-- Writing a word leaves the words that it does not touch. -/
theorem word_setWord_of_disjoint {m : Memory} {a b : Nat} {v : Nat}
    (h : a + wordSize ≤ b ∨ b + wordSize ≤ a) : (m.setWord a v).word b = m.word b :=
  word_congr fun _ _ _ => byte_setWord_of_disjoint (by omega)

theorem word_setByte_of_disjoint {m : Memory} {a b : Nat} {v : UInt8}
    (h : a < b ∨ b + wordSize ≤ a) : (m.setByte a v).word b = m.word b :=
  word_congr fun _ _ _ => byte_setByte_of_ne (by omega)

/-- A link reads back. -/
theorem link_setLink {m : Memory} {a : Nat} {target : Option Nat}
    (h : ∀ t ∈ target, t ≠ 0 ∧ t < wordLimit) : (m.setLink a target).link a = target := by
  have reads : (m.setLink a target).word a = target.getD 0 := by
    cases target with
    | none => exact word_setWord (by decide)
    | some t => exact word_setWord (h t rfl).2
  rw [link, reads]
  cases target with
  | none => rfl
  | some t => exact if_neg (h t rfl).1

theorem link_setWord_of_disjoint {m : Memory} {a b : Nat} {v : Nat}
    (h : a + wordSize ≤ b ∨ b + wordSize ≤ a) : (m.setWord a v).link b = m.link b := by
  rw [link, link, word_setWord_of_disjoint h]

@[simp]
theorem flag_setFlag (m : Memory) (a : Nat) (b : Bool) : (m.setFlag a b).flag a = b := by
  cases b <;> simp [flag, setFlag]

attribute [irreducible] byte setByte clear load store

end Memory

end RegionHeap
