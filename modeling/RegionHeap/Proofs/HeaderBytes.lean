import Mathlib.Data.List.GetD
import RegionHeap.Block
import RegionHeap.Chain.View

/-!
# The bytes of a header

A header takes 72 bytes: its fields the first 40, the links of the catalogue the next 16, those of the
free list the last 16. So a write to a field shows in that field only, and links and fields do not
disturb each other.

* `Memory.SameBut` — two memories differ in some given bytes at most.
* `Memory.byte_setBytes_of_inside`, `Memory.byte_setBytes_of_outside` — the bytes after a run of them was
  written.
* `Block.read_congr`, `Chain.Holds.of_bytes` — what a header says and what a chain is depend on the
  bytes of their own words only.
* `Block.read_setSize`, …, `Block.read_init` — what a header says after each write.
-/

set_option autoImplicit false

namespace RegionHeap

/-! ### Memories that differ in a few bytes -/

/-- The second memory differs from the first one at most in the bytes of `W`. -/
def Memory.SameBut (W : Nat → Prop) (m m' : Memory) : Prop :=
  ∀ a, ¬ W a → m'.byte a = m.byte a

namespace Memory.SameBut

variable {W V : Nat → Prop} {m m' m'' : Memory}

theorem refl (W : Nat → Prop) (m : Memory) : SameBut W m m :=
  fun _ _ => rfl

theorem trans (h : SameBut W m m') (h' : SameBut W m' m'') : SameBut W m m'' := by
  intro a ha
  rw [h' a ha, h a ha]

theorem mono (h : SameBut W m m') (hv : ∀ a, W a → V a) : SameBut V m m' := by
  intro a ha
  exact h a fun hw => ha (hv a hw)

end Memory.SameBut

namespace Memory

variable {m : Memory} {a i : Nat} {bs : List UInt8}

theorem byte_setBytes_of_inside (hi : i < bs.length) : (m.setBytes a bs).byte (a + i) = bs[i] := by
  rw [byte_setBytes, if_pos (Nat.le_add_right a i), Nat.add_sub_cancel_left]
  exact List.getD_eq_getElem bs _ hi

theorem byte_setBytes_of_outside (out : i < a ∨ a + bs.length ≤ i) :
    (m.setBytes a bs).byte i = m.byte i := by
  rw [byte_setBytes]
  split
  · rw [List.getD_eq_default]
    omega
  · rfl

/-- Each byte is one that was written, or the old one. -/
theorem byte_setBytes_or (m : Memory) (a i : Nat) (bs : List UInt8) :
    (m.setBytes a bs).byte i = m.byte i ∨ (m.setBytes a bs).byte i ∈ bs := by
  by_cases inside : a ≤ i ∧ i < a + bs.length
  · obtain ⟨k, rfl⟩ : ∃ k, i = a + k := ⟨i - a, by omega⟩
    rw [byte_setBytes_of_inside (show k < bs.length by omega)]
    exact .inr (List.getElem_mem _)
  · exact .inl (byte_setBytes_of_outside (by omega))

end Memory

/-- The bytes of the header at `b`. -/
def Header.Covers (b a : Nat) : Prop :=
  b ≤ a ∧ a < b + Header.length

/-! ### Reading depends on few bytes -/

section Congruence

variable {m m' : Memory} {b : Nat}

/-- What a header says is in its first 40 bytes. -/
theorem Block.read_congr (h : ∀ a, b ≤ a → a < b + 40 → m'.byte a = m.byte a) :
    Block.read m' b = Block.read m b := by
  have word : ∀ k, k ≤ 32 → m'.word (b + k) = m.word (b + k) := by
    intro k hk
    apply Memory.word_congr
    intro a ha ha'
    unfold wordSize at ha'
    exact h a (by omega) (by omega)
  have flag : ∀ k, k < 40 → m'.flag (b + k) = m.flag (b + k) := by
    intro k hk
    unfold Memory.flag
    rw [h (b + k) (by omega) (by omega)]
  have mark : m'.word b = m.word b := word 0 (by omega)
  simp only [Block.read, Header.intact, Header.size, Header.id, Header.used, Header.fromBreak,
    Header.region, mark, word 8 (by omega), word 16 (by omega), word 32 (by omega),
    flag 24 (by omega), flag 25 (by omega)]

/-- The mark is the first word. -/
theorem Header.intact_congr (h : ∀ a, b ≤ a → a < b + wordSize → m'.byte a = m.byte a) :
    Header.intact m' b = Header.intact m b := by
  unfold Header.intact
  rw [Memory.word_congr h]

theorem Chain.prev_congr {hook x : Nat}
    (h : ∀ a, x + hook ≤ a → a < x + hook + 2 * wordSize → m'.byte a = m.byte a) :
    Chain.prev hook m' x = Chain.prev hook m x := by
  unfold Chain.prev Memory.link
  rw [Memory.word_congr fun a ha ha' => h a ha (by omega)]

theorem Chain.next_congr {hook x : Nat}
    (h : ∀ a, x + hook ≤ a → a < x + hook + 2 * wordSize → m'.byte a = m.byte a) :
    Chain.next hook m' x = Chain.next hook m x := by
  unfold Chain.next Memory.link
  rw [Memory.word_congr fun a ha ha' => h a (by omega) (by omega)]

/-- A chain is in the links of its nodes. -/
theorem Chain.Holds.of_bytes {hook : Nat} {c : Chain hook} {xs : List Nat} (hold : c.Holds m xs)
    (h : ∀ x ∈ xs, ∀ a, x + hook ≤ a → a < x + hook + 2 * wordSize → m'.byte a = m.byte a) :
    c.Holds m' xs :=
  hold.congr (fun x hx => Chain.prev_congr (h x hx)) (fun x hx => Chain.next_congr (h x hx))

end Congruence

/-! ### Writing one field -/

section Fields

variable {m : Memory} {b : Nat}

theorem word_setWord_of_ne {a c v : Nat} (h : a + 8 ≤ c ∨ c + 8 ≤ a) :
    (m.setWord a v).word c = m.word c :=
  Memory.word_setWord_of_disjoint h

theorem flag_setWord_of_ne {a c v : Nat} (h : c < a ∨ a + 8 ≤ c) :
    (m.setWord a v).flag c = m.flag c := by
  unfold Memory.flag
  rw [Memory.byte_setWord_of_disjoint h]

theorem word_setFlag_of_ne {a c : Nat} {v : Bool} (h : a < c ∨ c + 8 ≤ a) :
    (m.setFlag a v).word c = m.word c :=
  Memory.word_setByte_of_disjoint h

theorem flag_setFlag_of_ne {a c : Nat} {v : Bool} (h : a ≠ c) :
    (m.setFlag a v).flag c = m.flag c := by
  unfold Memory.flag Memory.setFlag
  rw [Memory.byte_setByte_of_ne h]

theorem Block.read_setSize {n : Nat} (hn : n < wordLimit) :
    Block.read (Header.setSize m b n) b = { Block.read m b with size := n } := by
  simp (disch := omega) only [Block.read, Header.intact, Header.size, Header.id, Header.used,
    Header.fromBreak, Header.region, Header.setSize, Memory.word_setWord hn, word_setWord_of_ne,
    flag_setWord_of_ne]

theorem Block.read_setId {n : Nat} (hn : n < wordLimit) :
    Block.read (Header.setId m b n) b = { Block.read m b with id := n } := by
  simp (disch := omega) only [Block.read, Header.intact, Header.size, Header.id, Header.used,
    Header.fromBreak, Header.region, Header.setId, Memory.word_setWord hn, word_setWord_of_ne,
    flag_setWord_of_ne]

theorem Block.read_setUsed {u : Bool} :
    Block.read (Header.setUsed m b u) b = { Block.read m b with used := u } := by
  simp (disch := omega) only [Block.read, Header.intact, Header.size, Header.id, Header.used,
    Header.fromBreak, Header.region, Header.setUsed, Memory.flag_setFlag, word_setFlag_of_ne,
    flag_setFlag_of_ne]

theorem Block.read_setFromBreak {o : Bool} :
    Block.read (Header.setFromBreak m b o) b = { Block.read m b with fromBreak := o } := by
  simp (disch := omega) only [Block.read, Header.intact, Header.size, Header.id, Header.used,
    Header.fromBreak, Header.region, Header.setFromBreak, Memory.flag_setFlag, word_setFlag_of_ne,
    flag_setFlag_of_ne]

theorem Block.read_setRegion {r : Nat} (hr : r < wordLimit) :
    Block.read (Header.setRegion m b r) b = { Block.read m b with region := r } := by
  simp (disch := omega) only [Block.read, Header.intact, Header.size, Header.id, Header.used,
    Header.fromBreak, Header.region, Header.setRegion, Memory.word_setWord hr, word_setWord_of_ne,
    flag_setWord_of_ne]

theorem Block.read_revoke : Block.read (Header.revoke m b) b = { Block.read m b with intact := false } := by
  have zero : 0 < wordLimit := by decide
  have other : (0 == Header.mark) = false := by decide
  simp (disch := omega) only [Block.read, Header.intact, Header.size, Header.id, Header.used,
    Header.fromBreak, Header.region, Header.revoke, Memory.word_setWord zero, word_setWord_of_ne,
    flag_setWord_of_ne, other]

/-! ### Which bytes a write changes -/

theorem byte_setSize_of_outside {n a : Nat} (h : a < b ∨ b + 40 ≤ a) :
    (Header.setSize m b n).byte a = m.byte a :=
  Memory.byte_setWord_of_disjoint (by unfold wordSize; omega)

theorem byte_setId_of_outside {n a : Nat} (h : a < b ∨ b + 40 ≤ a) :
    (Header.setId m b n).byte a = m.byte a :=
  Memory.byte_setWord_of_disjoint (by unfold wordSize; omega)

theorem byte_setUsed_of_outside {u : Bool} {a : Nat} (h : a < b ∨ b + 40 ≤ a) :
    (Header.setUsed m b u).byte a = m.byte a :=
  Memory.byte_setByte_of_ne (by omega)

theorem byte_setFromBreak_of_outside {o : Bool} {a : Nat} (h : a < b ∨ b + 40 ≤ a) :
    (Header.setFromBreak m b o).byte a = m.byte a :=
  Memory.byte_setByte_of_ne (by omega)

theorem byte_setRegion_of_outside {r a : Nat} (h : a < b ∨ b + 40 ≤ a) :
    (Header.setRegion m b r).byte a = m.byte a :=
  Memory.byte_setWord_of_disjoint (by unfold wordSize; omega)

theorem byte_revoke_of_outside {a : Nat} (h : a < b ∨ b + 40 ≤ a) :
    (Header.revoke m b).byte a = m.byte a :=
  Memory.byte_setWord_of_disjoint (by unfold wordSize; omega)

theorem byte_setLink_of_outside {c a : Nat} {t : Option Nat} (h : a < c ∨ c + 8 ≤ a) :
    (m.setLink c t).byte a = m.byte a :=
  Memory.byte_setWord_of_disjoint h

theorem byte_init_of_outside {size id a : Nat} {head : Option Nat} {o : Bool}
    (h : a < b ∨ b + Header.length ≤ a) : (Header.init m b size head o id).byte a = m.byte a := by
  unfold Header.length at h
  unfold Header.init Header.setSize Header.setId Header.setUsed Header.setFromBreak
    Header.setRegion Chain.setPrev Chain.setNext Header.catalogueHook Header.freeHook Memory.setFlag
    wordSize
  dsimp only
  rw [byte_setLink_of_outside (by omega), byte_setLink_of_outside (by omega),
    byte_setLink_of_outside (by omega), byte_setLink_of_outside (by omega),
    Memory.byte_setWord_of_disjoint (by unfold wordSize; omega),
    Memory.byte_setByte_of_ne (by omega), Memory.byte_setByte_of_ne (by omega),
    Memory.byte_setWord_of_disjoint (by unfold wordSize; omega),
    Memory.byte_setWord_of_disjoint (by unfold wordSize; omega),
    Memory.byte_setWord_of_disjoint (by unfold wordSize; omega)]

theorem word_setLink_of_ne {a c : Nat} {t : Option Nat} (h : a + 8 ≤ c ∨ c + 8 ≤ a) :
    (m.setLink a t).word c = m.word c :=
  word_setWord_of_ne h

theorem flag_setLink_of_ne {a c : Nat} {t : Option Nat} (h : c < a ∨ a + 8 ≤ c) :
    (m.setLink a t).flag c = m.flag c :=
  flag_setWord_of_ne h

/-- A fresh header says what it was given. -/
theorem Block.read_init {size id : Nat} {head : Option Nat} {o : Bool} (hs : size < wordLimit)
    (hi : id < wordLimit) (hr : head.getD b < wordLimit) :
    Block.read (Header.init m b size head o id) b =
      ⟨b, true, size, id, false, o, head.getD b⟩ := by
  have mark : Header.mark < wordLimit := by decide
  simp (disch := omega) only [Block.read, Header.intact, Header.size, Header.id, Header.used,
    Header.fromBreak, Header.region, Header.init, Header.setSize, Header.setId, Header.setUsed,
    Header.setFromBreak, Header.setRegion, Chain.setPrev, Chain.setNext, Header.catalogueHook,
    Header.freeHook, wordSize, word_setLink_of_ne, flag_setLink_of_ne, Memory.word_setWord mark,
    Memory.word_setWord hs, Memory.word_setWord hi, Memory.word_setWord hr, word_setWord_of_ne,
    flag_setWord_of_ne, word_setFlag_of_ne, Memory.flag_setFlag, flag_setFlag_of_ne, beq_self_eq_true]

end Fields

end RegionHeap
