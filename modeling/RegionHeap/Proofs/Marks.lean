import RegionHeap.Proofs.HeaderBytes

/-!
# Where the mark appears

A pointer leads to a block when the word 72 bytes before it is the mark, whatever put the mark there. So
it matters which writes make an aligned word the mark: that of a fresh header does, and all others that
a heap makes do not.

* `Memory.QuietBut` — from one memory to the next, the mark appears at some given addresses at most.
* `QuietBut.of_small` — every byte of the mark is large, so writes of small bytes are quiet.
* `QuietBut.setAddress` — sizes and addresses are whole words, and the mark is not.
* `QuietBut.copy` — copying brings the marks that are copied.
* `Chain.quiet_wire`, `Chain.quiet_unwire`, `Header.quiet_init` — links, and a fresh header.
-/

set_option autoImplicit false

namespace RegionHeap

/-- In the second memory no aligned word is the mark of a header but those that are so in the first one
and those at addresses of `X`. -/
def Memory.QuietBut (X : Nat → Prop) (m m' : Memory) : Prop :=
  ∀ a, a % wordSize = 0 → m'.word a = Header.mark → m.word a = Header.mark ∨ X a

/-- Numbers are read alike where their bytes are alike. -/
theorem Memory.load_eq {m m' : Memory} {a a' n : Nat}
    (same : ∀ i < n, m.byte (a + i) = m'.byte (a' + i)) : m.load a n = m'.load a' n := by
  induction n generalizing a a' with
  | zero => rw [Memory.load, Memory.load]
  | succ n ih =>
    have first := same 0 (Nat.succ_pos n)
    rw [Nat.add_zero, Nat.add_zero] at first
    rw [Memory.load, Memory.load, first, ih]
    intro i hi
    rw [Nat.add_assoc, Nat.add_assoc, Nat.add_comm 1 i]
    exact same (i + 1) (Nat.succ_lt_succ hi)

/-- The smallest byte of the mark. -/
def Header.leastMarkByte : Nat := 0x62

/-- The bytes of a number are its digits. -/
theorem Memory.byte_eq_load {m : Memory} {a k n : Nat} (hk : k < n) :
    (m.byte (a + k)).toNat = m.load a n >>> (8 * k) % 256 := by
  have digit : ∀ i, (m.byte i).toNat < 256 := fun i => (m.byte i).toNat_lt
  induction n generalizing a k with
  | zero => omega
  | succ n ih =>
    have low := digit a
    rw [Memory.load]
    cases k with
    | zero =>
      rw [Nat.add_zero, Nat.mul_zero, Nat.shiftRight_zero]
      omega
    | succ k =>
      have rest : ((m.byte a).toNat + 256 * m.load (a + 1) n) >>> 8 = m.load (a + 1) n := by
        rw [Nat.shiftRight_eq_div_pow]
        omega
      rw [Nat.mul_succ, Nat.add_comm (8 * k) 8, Nat.shiftRight_add, rest, ← ih (by omega),
        Nat.add_assoc, Nat.add_comm 1 k]

/-- All bytes of a word that is the mark are large. -/
theorem Memory.le_byte_of_mark {m : Memory} {a i : Nat} (marked : m.word a = Header.mark)
    (hi : a ≤ i) (hi' : i < a + wordSize) : Header.leastMarkByte ≤ (m.byte i).toNat := by
  obtain ⟨k, rfl⟩ : ∃ k, i = a + k := ⟨i - a, by omega⟩
  have digits : ∀ k < wordSize, Header.leastMarkByte ≤ Header.mark >>> (8 * k) % 256 := by decide
  have byte : (m.byte (a + k)).toNat = m.word a >>> (8 * k) % 256 := Memory.byte_eq_load (by omega)
  rw [byte, marked]
  exact digits k (by omega)

namespace Memory.QuietBut

variable {X Y : Nat → Prop} {m m' m'' : Memory} {a v : Nat}

theorem refl (X : Nat → Prop) (m : Memory) : QuietBut X m m :=
  fun _ _ marked => .inl marked

theorem trans (h : QuietBut X m m') (h' : QuietBut X m' m'') : QuietBut X m m'' := by
  intro a aligned marked
  rcases h' a aligned marked with marked | here
  · exact h a aligned marked
  · exact .inr here

theorem mono (h : QuietBut X m m') (sub : ∀ a, X a → Y a) : QuietBut Y m m' :=
  fun a aligned marked => (h a aligned marked).imp_right (sub a)

/-- Only small bytes were written. -/
theorem of_small
    (small : ∀ i, m'.byte i = m.byte i ∨ (m'.byte i).toNat < Header.leastMarkByte) :
    QuietBut X m m' := by
  intro a _ marked
  left
  rw [← marked]
  apply Memory.word_congr
  intro i hi hi'
  have large := Memory.le_byte_of_mark marked hi hi'
  exact ((small i).resolve_right (Nat.not_lt.2 large)).symm

theorem setFlag (a : Nat) (b : Bool) : QuietBut X m (m.setFlag a b) := by
  apply of_small
  intro i
  unfold Memory.setFlag
  rw [Memory.byte_setByte]
  split
  · right
    cases b <;> decide
  · exact .inl rfl

theorem clear (a n : Nat) : QuietBut X m (m.clear a n) := by
  apply of_small
  intro i
  rw [Memory.byte_clear]
  split
  · right
    decide
  · exact .inl rfl

theorem setBytes {bs : List UInt8} (a : Nat) (small : ∀ v ∈ bs, v.toNat < Header.leastMarkByte) :
    QuietBut X m (m.setBytes a bs) :=
  of_small fun i => (Memory.byte_setBytes_or m a i bs).imp_right (small _)

/-- A copy of whole words to an aligned address brings the marks that were copied. -/
theorem copy {p q n : Nat} (aligned : q % wordSize = 0) (words : n % wordSize = 0) :
    QuietBut (fun a => q ≤ a ∧ a < q + n ∧ m.word (p + (a - q)) = Header.mark) m
      (m.setBytes q (m.bytes p n)) := by
  intro a ha marked
  have length : (m.bytes p n).length = n := by simp [bytes]
  rw [← marked]
  by_cases inside : q ≤ a ∧ a < q + n
  · obtain ⟨k, rfl⟩ : ∃ k, a = q + k := ⟨a - q, by omega⟩
    refine .inr ⟨inside.1, inside.2, Memory.load_eq fun i hi => ?_⟩
    have room : k + i < n := by
      unfold wordSize at *
      omega
    rw [Nat.add_assoc q k i, Memory.byte_setBytes_of_inside (by omega)]
    simp only [bytes, List.getElem_map, List.getElem_range]
    congr 1
    omega
  · left
    apply Memory.word_congr
    intro i hi hi'
    apply (Memory.byte_setBytes_of_outside _).symm
    unfold wordSize at *
    omega

/-- A word that is written at an aligned address touches no other aligned word. -/
theorem setWord (aligned : a % wordSize = 0)
    (here : (m.setWord a v).word a = Header.mark → X a) : QuietBut X m (m.setWord a v) := by
  intro c hc marked
  by_cases e : a = c
  · subst e
    exact .inr (here marked)
  · left
    rw [← marked, Memory.word_setWord_of_disjoint]
    unfold wordSize at *
    omega

/-- A number that is whole words, as sizes and addresses are, is not the mark. -/
theorem setAddress (aligned : a % wordSize = 0) (words : v % wordSize = 0) :
    QuietBut X m (m.setWord a v) := by
  apply setWord aligned
  intro marked
  exfalso
  -- its lowest byte is not that of the mark
  have low : ((m.setWord a v).byte a).toNat = v % 256 := by
    rw [Memory.setWord, Memory.byte_store, if_pos (by unfold wordSize; omega), Nat.sub_self]
    exact UInt8.toNat_ofNat'
  have spelled := Memory.byte_eq_load (m := m.setWord a v) (a := a) (show 0 < wordSize by decide)
  rw [Nat.add_zero, low, Nat.mul_zero, Nat.shiftRight_zero] at spelled
  replace spelled : v % 256 = Header.mark % 256 := spelled.trans (congrArg (· % 256) marked)
  unfold Header.mark at spelled
  unfold wordSize at words
  omega

theorem setLink {target : Option Nat} (aligned : a % wordSize = 0)
    (words : ∀ t ∈ target, t % wordSize = 0) : QuietBut X m (m.setLink a target) := by
  apply setAddress aligned
  cases target with
  | none => rfl
  | some t => exact words t rfl

end Memory.QuietBut

open Memory (QuietBut)

/-! ### Links -/

namespace Chain

/-- The links of the nodes are aligned words. -/
structure Aligned (hook : Nat) (xs : List Nat) : Prop where
  hook : hook % wordSize = 0
  nodes : ∀ x ∈ xs, x % wordSize = 0

section Aligned

variable {X : Nat → Prop} {hook : Nat} {m : Memory} {xs : List Nat} {left right target : Option Nat}
  {first last : Nat} (aligned : Aligned hook xs)

include aligned

theorem Aligned.of_mem (h : ∀ t ∈ target, t ∈ xs) : ∀ t ∈ target, t % wordSize = 0 :=
  fun t ht => aligned.nodes t (h t ht)

theorem quiet_setPrev (hf : first ∈ xs) (h : ∀ t ∈ target, t ∈ xs) :
    QuietBut X m (setPrev hook m first target) := by
  apply QuietBut.setLink _ (aligned.of_mem h)
  have := aligned.hook
  have := aligned.nodes first hf
  unfold wordSize at *
  omega

theorem quiet_setNext (hf : first ∈ xs) (h : ∀ t ∈ target, t ∈ xs) :
    QuietBut X m (setNext hook m first target) := by
  apply QuietBut.setLink _ (aligned.of_mem h)
  have := aligned.hook
  have := aligned.nodes first hf
  unfold wordSize at *
  omega

theorem quiet_setPrev? (hl : ∀ x ∈ left, x ∈ xs) (h : ∀ t ∈ target, t ∈ xs) :
    QuietBut X m (setPrev? hook m left target) := by
  cases left with
  | none => exact .refl X m
  | some l => exact quiet_setPrev aligned (hl l rfl) h

theorem quiet_setNext? (hl : ∀ x ∈ left, x ∈ xs) (h : ∀ t ∈ target, t ∈ xs) :
    QuietBut X m (setNext? hook m left target) := by
  cases left with
  | none => exact .refl X m
  | some l => exact quiet_setNext aligned (hl l rfl) h

variable (hl : ∀ x ∈ left, x ∈ xs) (hr : ∀ x ∈ right, x ∈ xs) (hf : first ∈ xs) (ht : last ∈ xs)

include hl hr hf ht

theorem quiet_wire : QuietBut X m (wire hook m left first last right) :=
  (((quiet_setPrev aligned hf hl).trans (quiet_setNext aligned ht hr)).trans
    (quiet_setNext? aligned hl (by simpa using hf))).trans
    (quiet_setPrev? aligned hr (by simpa using ht))

theorem quiet_unwire : QuietBut X m (unwire hook m left first last right) :=
  (((quiet_setNext? aligned hl hr).trans (quiet_setPrev? aligned hr hl)).trans
    (quiet_setPrev aligned hf (by simp))).trans (quiet_setNext aligned ht (by simp))

end Aligned

end Chain

/-! ### Fields of a header -/

namespace Header

variable {X : Nat → Prop} {m : Memory} {b n : Nat}

theorem quiet_setUsed (u : Bool) : QuietBut X m (setUsed m b u) :=
  .setFlag _ u

theorem quiet_setSize (aligned : b % wordSize = 0) (words : n % wordSize = 0) :
    QuietBut X m (setSize m b n) := by
  apply QuietBut.setAddress _ words
  unfold wordSize at *
  omega

theorem quiet_setId (aligned : b % wordSize = 0) (other : n < mark) :
    QuietBut X m (setId m b n) := by
  apply QuietBut.setWord
  · unfold wordSize at *
    omega
  · rw [Memory.word_setWord (Nat.lt_trans other (by decide))]
    omega

theorem quiet_revoke (aligned : b % wordSize = 0) : QuietBut X m (revoke m b) :=
  .setAddress aligned rfl

/-- A header that was revoked bears no mark. -/
theorem intact_revoke : intact (revoke m b) b = false := by
  have zero : 0 < wordLimit := by decide
  unfold intact revoke
  rw [Memory.word_setWord zero]
  decide

/-- A fresh header brings one mark, at its start. -/
theorem quiet_init {size id : Nat} {head : Option Nat} {fromBreak : Bool} (aligned : b % wordSize = 0)
    (words : size % wordSize = 0) (region : ∀ r ∈ head, r % wordSize = 0) (other : id < mark) :
    QuietBut (· = b) m (init m b size head fromBreak id) := by
  have catalogue : Chain.Aligned catalogueHook [b] := ⟨rfl, by simpa using aligned⟩
  have free : Chain.Aligned freeHook [b] := ⟨rfl, by simpa using aligned⟩
  have head_words : head.getD b % wordSize = 0 := by
    cases head with
    | none => exact aligned
    | some r => exact region r rfl
  have fields : (b + 32) % wordSize = 0 := by
    unfold wordSize at *
    omega
  unfold init
  refine QuietBut.trans ?_ (Chain.quiet_setNext free (by simp) (by simp))
  refine QuietBut.trans ?_ (Chain.quiet_setPrev free (by simp) (by simp))
  refine QuietBut.trans ?_ (Chain.quiet_setNext catalogue (by simp) (by simp))
  refine QuietBut.trans ?_ (Chain.quiet_setPrev catalogue (by simp) (by simp))
  refine QuietBut.trans ?_ (.setAddress fields head_words)
  refine QuietBut.trans ?_ (.setFlag _ fromBreak)
  refine QuietBut.trans ?_ (quiet_setUsed false)
  refine QuietBut.trans ?_ (quiet_setId aligned other)
  refine QuietBut.trans ?_ (quiet_setSize aligned words)
  exact .setWord aligned fun _ => rfl

end Header

end RegionHeap
