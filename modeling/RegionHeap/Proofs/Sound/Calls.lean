import RegionHeap.Proofs.Sound.Handing

/-!
# Calls on a sound heap

Each call that a client makes, with the blocks that it exchanges. A call that names no pointer but
those of blocks handed out is never stopped, except when there is no number left for a block.

* `Ledger.Refuses`, `Ledger.Makes`, `Ledger.Remakes` — which requests are refused, and which make a block.
* `Ledger.asking` — what is recorded when bytes are asked for.
* `allocate_handed`, `allocate_passed`, `allocateZeroed_passed` — a block is handed out, or nothing happens.
* `free_passed` — a block is given back.
* `realloc_passed` — a block is handed out in the place of another one, with its contents.
-/

set_option autoImplicit false

namespace RegionHeap

namespace Ledger

/-- Why no block is handed out for `n` bytes: no block can have as many, or none of the free list has and
the mapping is refused. -/
inductive Refuses (L : Ledger) (n : Nat) : Failure → Prop
  | size {failure : Failure} (invalid : L.settings.blockSize n = .error failure) :
      Refuses L n failure
  | mapping {size : Nat} {cause : Refusal} (valid : L.settings.blockSize n = .ok size)
      (full : (L.free.find? fun x => size ≤ x.size) = none)
      (place : L.place L.transfers (Header.length + size) = .error cause) :
      Refuses L n (.mapFailed (Header.length + size) cause)

/-- Handing out a block for `n` bytes takes a number: something is cut off a free block, or a region is
mapped. -/
def Makes (L : Ledger) (n : Nat) : Prop :=
  ∃ size c s L', L.settings.blockSize n = .ok size ∧ L.Handed size c s L' ∧ L'.nextId ≠ L.nextId

/-- Resizing the block `b` to `n` bytes takes a number: something is cut off what it grew into, or it
cannot grow where it is and handing out another block takes one. -/
def Remakes (L : Ledger) (b : Block) (n : Nat) : Prop :=
  b.size < n ∧ ∃ size, L.settings.blockSize n = .ok size ∧
    ((∃ c L', L.Grown b size c L' ∧ L'.nextId ≠ L.nextId) ∨
      (∀ c L', ¬ L.Grown b size c L') ∧ L.Makes n)

/-- What is recorded when `n` bytes are asked for. -/
def asking (L : Ledger) (n : Nat) : List Event :=
  match L.settings.blockSize n with
  | .ok size => L.handing size
  | .error _ => []

section Counts

variable {L L' : Ledger} {rs : List Region} {b c : Block} {s : Option Span} {n size : Nat}

/-- No block is handed out for a request that is refused. -/
theorem Refuses.not_handed {failure : Failure} (refused : L.Refuses n failure)
    (valid : L.settings.blockSize n = .ok size) : ¬ L.Handed size c s L' := by
  intro handed
  cases refused with
  | size invalid => exact nomatch valid.symm.trans invalid
  | mapping valid' full refused =>
    obtain rfl := Except.ok.inj (valid.symm.trans valid')
    cases handed with
    | reused found => exact nomatch found.symm.trans full
    | mapped _ place => exact nomatch place.symm.trans refused

/-- A request that is refused makes no block. -/
theorem Refuses.not_makes {failure : Failure} (refused : L.Refuses n failure) : ¬ L.Makes n := by
  rintro ⟨size, c, s, L', valid, handed, _⟩
  exact refused.not_handed valid handed

/-- What is asked for is less than the address range. -/
theorem Makes.lt (usable : L.settings.Usable) (makes : L.Makes n) : n < wordLimit := by
  obtain ⟨size, _, _, _, valid, _⟩ := makes
  have := Settings.blockSize_eq_ok usable valid
  omega

theorem Handed.counts (S : L.Laid rs) (valid : L.settings.blockSize n = .ok size)
    (handed : L.Handed size c s L') : L.Counts (L.Makes n) L' := by
  constructor
  · rintro ⟨size', c', s', L'', valid', handed', ne⟩
    obtain rfl := Except.ok.inj (valid.symm.trans valid')
    obtain ⟨rfl, rfl⟩ := handed.unique S handed'
    exact handed'.nextId.resolve_left ne
  · intro none
    refine handed.nextId.resolve_right fun next => none ⟨size, c, s, L', valid, handed, ?_⟩
    rw [next]
    exact Nat.succ_ne_self _

/-- A block that grows where it is. -/
theorem Grown.counts (S : L.Laid rs) (less : b.size < n) (valid : L.settings.blockSize n = .ok size)
    (grown : L.Grown b size c L') : L.Counts (L.Remakes b n) L' := by
  constructor
  · rintro ⟨_, size', valid', ⟨c', L'', grown', ne⟩ | ⟨stays, _⟩⟩
    all_goals obtain rfl := Except.ok.inj (valid.symm.trans valid')
    · obtain rfl := grown.unique S grown'
      exact grown'.nextId.resolve_left ne
    · exact absurd grown (stays _ _)
  · intro none
    refine grown.nextId.resolve_right fun next => none ⟨less, size, valid, .inl ⟨c, L', grown, ?_⟩⟩
    rw [next]
    exact Nat.succ_ne_self _

/-- A block that cannot grow where it is. -/
theorem remakes_iff (less : b.size < n) (valid : L.settings.blockSize n = .ok size)
    (stays : ∀ c L', ¬ L.Grown b size c L') : L.Remakes b n ↔ L.Makes n := by
  constructor
  · rintro ⟨_, size', valid', ⟨c, L', grown, _⟩ | ⟨_, makes⟩⟩
    · obtain rfl := Except.ok.inj (valid.symm.trans valid')
      exact absurd grown (stays c L')
    · exact makes
  · exact fun makes => ⟨less, size, valid, .inr ⟨stays, makes⟩⟩

end Counts

end Ledger

namespace Heap

variable {E : Fault → Prop} {h : Heap} {L : Ledger} {rs : List Region} {b : Block}

/-! ### Pointers -/

theorem payload_aligned (K : h.Keeps L) (hb : b ∈ L.blocks) : b.payload % wordSize = 0 := by
  have := (K.aligned b hb).addr
  unfold Block.payload Header.payload Header.length wordSize at *
  omega

/-- The pointer to a payload leads to its block. -/
theorem ofPayload_eq (K : h.Keeps L) (S : L.Sound rs) (hb : b ∈ L.blocks) :
    Header.ofPayload h.memory b.payload = .ok b.addr := by
  have aligned := payload_aligned K hb
  have positive := (K.spaced.address _ (Keeps.addr_mem hb)).1
  have well : b.payload % wordSize = 0 ∧ Header.length < b.payload :=
    ⟨aligned, Nat.lt_add_of_pos_left positive⟩
  have back : b.payload - Header.length = b.addr := Nat.add_sub_cancel _ _
  unfold Header.ofPayload
  rw [if_pos well]
  dsimp only
  rw [back, K.intact_eq hb, if_pos (S.fit hb).intact]

/-! ### Allocating -/

/-- A block for at least `n` bytes is handed out, or nothing happens, and why. -/
theorem allocate_handed {n : Nat} (K : h.Keeps L) (S : L.Sound rs)
    (ids : L.Makes n → L.nextId + 1 < wordLimit ∨ E .additionOverflow) :
    Yields E (allocate n) h fun answer h' =>
      match answer with
      | .error failure => L.Refuses n failure ∧ Passed h L {} h' L ∧
          h.Recorded L (L.asking n) h' L
      | .ok p => ∃ size L' c s, L.settings.blockSize n = .ok size ∧ L.Handed size c s L' ∧
          Passed h L { given := some c, mapped := s } h' L' ∧ h.Recorded L (L.asking n) h' L' ∧
          c.payload = p ∧ n ≤ c.size := by
  unfold allocate Ledger.asking
  rw [yields_get_bind, K.settings]
  cases e : L.settings.blockSize n with
  | error failure =>
    exact ⟨.size e, Passed.of_moved S (.refl K fun _ => False) fun _ _ _ _ _ quiet => quiet,
      .of_log rfl rfl⟩
  | ok size =>
    obtain ⟨words, large, enough, fits⟩ := Settings.blockSize_eq_ok S.settings e
    have ids : ∀ c s L', L.Handed size c s L' → L'.nextId ≠ L.nextId →
        L.nextId + 1 < wordLimit ∨ E .additionOverflow :=
      fun c s L' handed number => ids ⟨size, c, s, L', e, handed, number⟩
    refine (reuse_passed K S words large ids).bind fun answer h₁ post => ?_
    cases answer with
    | some a =>
      obtain ⟨L', c, handed, P, recorded, rfl, room⟩ := post
      exact yields_pure.2 ⟨size, L', c, none, rfl, handed, P, recorded, rfl, enough.trans room⟩
    | none =>
      obtain ⟨rfl, full⟩ := post
      refine (open_passed K S words large fits (Settings.blockSize_le e) full ids).bind fun answer h₂ post => ?_
      cases answer with
      | error failure =>
        obtain ⟨⟨cause, place, rfl⟩, P, recorded⟩ := post
        exact ⟨.mapping e full place, P, recorded⟩
      | ok a =>
        refine Yields.bind post fun _ h₃ post => ?_
        obtain ⟨L', c, s, handed, P, recorded, rfl, room⟩ := post
        exact yields_pure.2 ⟨size, L', c, some s, rfl, handed, P, recorded, rfl, enough.trans room⟩

/-- A block for at least `n` bytes is handed out, or nothing happens. -/
theorem allocate_passed {n : Nat} (K : h.Keeps L) (S : L.Sound rs)
    (ids : L.Makes n → L.nextId + 1 < wordLimit ∨ E .additionOverflow) :
    Yields E (allocate n) h fun answer h' =>
      match answer with
      | .error _ => ¬ L.Makes n ∧ Passed h L {} h' L
      | .ok p => ∃ L' c s, L.Counts (L.Makes n) L' ∧
          Passed h L { given := some c, mapped := s } h' L' ∧ c.payload = p ∧ n ≤ c.size := by
  refine (allocate_handed K S ids).mono fun answer h' post => ?_
  cases answer with
  | error failure => exact ⟨post.1.not_makes, post.2.1⟩
  | ok p =>
    obtain ⟨_, L', c, s, valid, handed, P, _, rest⟩ := post
    exact ⟨L', c, s, handed.counts S.toLaid valid, P, rest⟩

theorem malloc_passed {n : Nat} (K : h.Keeps L) (S : L.Sound rs)
    (ids : L.Makes n → L.nextId + 1 < wordLimit ∨ E .additionOverflow) :
    Yields E (malloc n) h fun answer h' =>
      match answer with
      | none => ¬ L.Makes n ∧ Passed h L {} h' L
      | some p => ∃ L' c s, L.Counts (L.Makes n) L' ∧
          Passed h L { given := some c, mapped := s } h' L' ∧ c.payload = p ∧ n ≤ c.size := by
  unfold malloc
  refine (allocate_passed K S ids).bind fun answer h' post => ?_
  cases answer with
  | error failure => exact post
  | ok p => exact post

/-- Bytes written within a block's payload. -/
theorem sameBut_setBytes {m : Memory} {bytes : List UInt8} (room : bytes.length ≤ b.size) :
    Memory.SameBut (fun i => b.payload ≤ i ∧ i < b.finish) m (m.setBytes b.payload bytes) := by
  intro i hi
  apply Memory.byte_setBytes_of_outside
  unfold Block.finish at hi
  omega

/-- A block for `count` times `n` bytes is handed out, all 0, or nothing happens. -/
theorem allocateZeroed_passed {count n : Nat} (K : h.Keeps L) (S : L.Sound rs)
    (ids : count * n ≠ 0 → L.Makes (count * n) → L.nextId + 1 < wordLimit ∨ E .additionOverflow) :
    Yields E (allocateZeroed count n) h fun answer h' =>
      match answer with
      | .error _ => ¬ (count * n ≠ 0 ∧ L.Makes (count * n)) ∧ Passed h L {} h' L
      | .ok p => ∃ L' c s, L.Counts (count * n ≠ 0 ∧ L.Makes (count * n)) L' ∧
          Passed h L { given := some c, mapped := s } h' L' ∧ c.payload = p ∧
          count * n ≤ c.size ∧ ∀ i < count * n, h'.memory.byte (p + i) = 0 := by
  have idle : Passed h L {} h L := .of_moved S (.refl K fun _ => False) fun _ _ _ _ _ quiet => quiet
  unfold allocateZeroed
  dsimp only
  split
  · next large => exact ⟨fun made => Nat.not_lt.2 large (made.2.lt S.settings), idle⟩
  split
  · next zero => exact ⟨fun made => made.1 zero, idle⟩
  next some =>
  refine (allocate_passed K S (ids some)).bind fun answer h₁ post => ?_
  cases answer with
  | error failure => exact ⟨fun made => post.1 made.2, post.2⟩
  | ok p =>
    obtain ⟨L', c, s, counts, P, rfl, room⟩ := post
    rw [← and_iff_right (b := L.Makes (count * n)) some] at counts
    dsimp only
    rw [yields_write_bind, yields_pure]
    have length : (List.replicate (count * n) (0 : UInt8)).length = count * n :=
      List.length_replicate
    have quiet : h₁.memory.QuietBut (fun _ => False)
        (h₁.memory.setBytes c.payload (List.replicate (count * n) 0)) := by
      apply Memory.QuietBut.setBytes
      intro v hv
      rw [List.eq_of_mem_replicate hv]
      decide
    refine ⟨L', c, s, counts, P.writing (sameBut_setBytes (by omega)) fun _ => quiet, rfl, room, ?_⟩
    intro i hi
    rw [memory_withMemory, Memory.byte_setBytes_of_inside (by omega), List.getElem_replicate]

theorem calloc_passed {count n : Nat} (K : h.Keeps L) (S : L.Sound rs)
    (ids : count * n ≠ 0 → L.Makes (count * n) → L.nextId + 1 < wordLimit ∨ E .additionOverflow) :
    Yields E (calloc count n) h fun answer h' =>
      match answer with
      | none => ¬ (count * n ≠ 0 ∧ L.Makes (count * n)) ∧ Passed h L {} h' L
      | some p => ∃ L' c s, L.Counts (count * n ≠ 0 ∧ L.Makes (count * n)) L' ∧
          Passed h L { given := some c, mapped := s } h' L' ∧ c.payload = p ∧
          count * n ≤ c.size ∧ ∀ i < count * n, h'.memory.byte (p + i) = 0 := by
  unfold calloc
  refine (allocateZeroed_passed K S ids).bind fun answer h' post => ?_
  cases answer with
  | error failure => exact post
  | ok p => exact post

/-! ### Giving back and resizing -/

/-- The block behind a pointer is given back. -/
theorem free_passed (K : h.Keeps L) (S : L.Sound rs) (hb : b ∈ L.used) :
    Yields E (free (some b.payload)) h fun _ h' =>
      ∃ L' u, Passed h L { taken := some b, unmapped := u } h' L' ∧ L'.nextId = L.nextId ∧
        L'.Sound (Region.giveBack L.settings.retained b.payload rs) := by
  have found := ofPayload_eq K S (Ledger.mem_used.1 hb).1
  unfold free
  rw [yields_look_bind, id, yields_lift_bind found]
  exact giveBack_passed K S hb

/-- In a tidy heap no payload holds a mark, and so its copy brings none. -/
theorem quiet_copy {c : Block} (K : h.Keeps L) (S : L.Sound rs) (hb : b ∈ L.blocks)
    (hc : c ∈ L.blocks) (clean : h.Tidy) : h.memory.QuietBut (fun _ => False)
      (h.memory.setBytes c.payload (h.memory.bytes b.payload b.size)) := by
  have target := payload_aligned K hc
  have source := payload_aligned K hb
  have words := (K.aligned b hb).size
  intro a aligned marked
  refine (Memory.QuietBut.copy target words a aligned marked).imp_right ?_
  rintro ⟨lo, up, copied⟩
  refine clean (b.payload + (a - c.payload)) (K.stray_iff.2 ⟨?_, copied, ?_⟩)
  · unfold wordSize at *
    omega
  · intro listed
    obtain ⟨x, hx, e⟩ := List.mem_map.1 listed
    refine S.payload_clear hb (Nat.le_add_right _ _) ?_ ⟨x, hx, Nat.le_of_eq e, ?_⟩
    · unfold Block.finish
      omega
    · unfold Header.length
      omega

/-- The block behind a pointer moves: another one, for no fewer bytes, is handed out with its contents,
and it is given back. -/
theorem relocate_passed {n : Nat} (K : h.Keeps L) (S : L.Sound rs) (hb : b ∈ L.used)
    (more : b.size ≤ n) (ids : L.Makes n → L.nextId + 1 < wordLimit ∨ E .additionOverflow) :
    Yields E (relocate b.payload b.size n) h fun answer h' =>
      match answer with
      | none => ¬ L.Makes n ∧ Passed h L {} h' L
      | some q => ∃ L' c s u, L.Counts (L.Makes n) L' ∧ Passed h L ⟨some b, some c, s, u⟩ h' L' ∧
          c.payload = q ∧ n ≤ c.size ∧ ∀ i, i < b.size →
            h'.memory.byte (q + i) = h.memory.byte (b.payload + i) := by
  unfold relocate
  refine (malloc_passed K S ids).bind fun answer h₁ post => ?_
  cases answer with
  | none => exact post
  | some q =>
    obtain ⟨L₁, c, s, counts, P, rfl, room⟩ := post
    dsimp only
    rw [yields_write_bind, Nat.min_eq_left more]
    have length : (h₁.memory.bytes b.payload b.size).length = b.size := by
      simp [Memory.bytes]
    have copy : ∀ i, i < b.size → (h₁.memory.setBytes c.payload
        (h₁.memory.bytes b.payload b.size)).byte (c.payload + i) = h.memory.byte (b.payload + i) := by
      intro i hi
      rw [Memory.byte_setBytes_of_inside (by omega), ← P.same b hb (by simp) _ (Nat.le_add_right _ i)
        (Nat.add_lt_add_left hi _)]
      simp [Memory.bytes]
    have hb₁ : b ∈ L₁.used := P.survives hb (by simp)
    have hc₁ : c ∈ L₁.used := P.given_used rfl
    obtain ⟨rs₁, S₁⟩ := P.sound
    have P₂ := P.writing (@sameBut_setBytes c h₁.memory (h₁.memory.bytes b.payload b.size) (by omega))
      (quiet_copy P.keeps S₁ (Ledger.mem_used.1 hb₁).1 (Ledger.mem_used.1 hc₁).1)
    generalize h₁.memory.setBytes _ _ = m at copy P₂ ⊢
    refine (free_passed P₂.keeps S₁ hb₁).bind fun _ h₃ post => ?_
    obtain ⟨L', u, P₃, number, _⟩ := post
    rw [yields_pure]
    refine ⟨L', c, s, u, counts.trans number, P₂.andThen P₃ hb, rfl, room, ?_⟩
    intro i hi
    have ne : b ≠ c := P.given_ne hb
    rw [P₃.same c hc₁ (by simpa using ne) _ (Nat.le_add_right _ i)
      (Nat.add_lt_add_left (by omega) _)]
    exact copy i hi

/-- To resize a block to some bytes is to look at its size first. -/
theorem yields_realloc {n size : Nat} {Q : Option Nat → Heap → Prop} (K : h.Keeps L) (S : L.Sound rs)
    (hb : b ∈ L.used) (positive : n ≠ 0) (valid : L.settings.blockSize n = .ok size) :
    Yields E (realloc (some b.payload) n) h Q ↔
      Yields E (if n ≤ b.size then pure (some b.payload) else do
        if ← growInPlace b.addr size then
          return some b.payload
        relocate b.payload b.size n) h Q := by
  obtain ⟨mem, used⟩ := Ledger.mem_used.1 hb
  have busy : ¬ (!Header.used h.memory b.addr) = true := by
    rw [K.used_eq mem, used]
    simp
  unfold realloc
  dsimp only
  rw [if_neg positive, yields_get_bind, K.settings, valid]
  dsimp only
  rw [yields_look_bind, id, yields_lift_bind (ofPayload_eq K S mem), yields_look_bind, if_neg busy,
    yields_look_bind, K.size_eq mem]

/-- The block behind a pointer is given back, or stays as it is, or is handed out anew with at least
`n` bytes and with its contents. -/
theorem realloc_passed {n : Nat} (K : h.Keeps L) (S : L.Sound rs) (hb : b ∈ L.used)
    (ids : n ≠ 0 → L.Remakes b n → L.nextId + 1 < wordLimit ∨ E .additionOverflow) :
    Yields E (realloc (some b.payload) n) h fun answer h' =>
      match answer with
      | none => ∃ L' u, L.Counts (n ≠ 0 ∧ L.Remakes b n) L' ∧
          Passed h L { taken := if n = 0 then some b else none, unmapped := u } h' L'
      | some q => n ≠ 0 ∧ ∃ L' c s u, L.Counts (n ≠ 0 ∧ L.Remakes b n) L' ∧
          Passed h L ⟨some b, some c, s, u⟩ h' L' ∧ c.payload = q ∧ n ≤ c.size ∧
          ∀ i, i < b.size → i < n →
            h'.memory.byte (q + i) = h.memory.byte (b.payload + i) := by
  have idle : Passed h L {} h L := .of_moved S (.refl K fun _ => False) fun _ _ _ _ _ quiet => quiet
  by_cases zero : n = 0
  · unfold realloc
    dsimp only
    rw [if_pos zero]
    refine (free_passed K S hb).bind fun _ h' post => ?_
    obtain ⟨L', u, P, number, _⟩ := post
    rw [yields_pure]
    exact ⟨L', u, ⟨fun made => absurd zero made.1, fun _ => number⟩, by rwa [if_pos zero]⟩
  rw [if_neg zero]
  have made : (n ≠ 0 ∧ L.Remakes b n) ↔ L.Remakes b n := and_iff_right zero
  simp only [made]
  cases e : L.settings.blockSize n with
  | error failure =>
    unfold realloc
    dsimp only
    rw [if_neg zero, yields_get_bind, K.settings, e]
    refine ⟨L, none, .nothing ?_, idle⟩
    rintro ⟨_, size, valid, _⟩
    exact nomatch valid.symm.trans e
  | ok wanted =>
    obtain ⟨words, large, enough, _⟩ := Settings.blockSize_eq_ok S.settings e
    rw [yields_realloc K S hb zero e]
    by_cases room : n ≤ b.size
    · rw [if_pos room, yields_pure]
      refine ⟨zero, L, b, none, none, .nothing fun made => Nat.not_lt.2 room made.1, ?_, rfl, room,
        fun _ _ _ => rfl⟩
      have used : L.used.Perm (b :: L.used.erase b) := List.perm_cons_erase hb
      exact ⟨K, ⟨rs, S⟩, rfl, rfl, rfl, ⟨_, used, used⟩, fun _ _ _ _ _ _ => rfl, by simp, id,
        Nat.le_refl _, fun _ => id, by simp⟩
    rw [if_neg room]
    have ids := fun remakes => ids zero ⟨Nat.lt_of_not_le room, wanted, e, remakes⟩
    refine (growInPlace_passed K S hb words large fun c L' grown number =>
      ids (.inl ⟨c, L', grown, number⟩)).bind fun answer h₁ post => ?_
    cases answer with
    | true =>
      obtain ⟨L', c, grown, P, addr, size, same⟩ := post
      have counts := grown.counts S.toLaid (Nat.lt_of_not_le room) e
      refine yields_pure.2 ⟨zero, L', c, none, none, counts, P, congrArg Header.payload addr,
        enough.trans size, ?_⟩
      exact fun i hi hi' => same i hi (Nat.lt_of_lt_of_le hi' enough)
    | false =>
      obtain ⟨rfl, stays⟩ := post
      have moves := Ledger.remakes_iff (Nat.lt_of_not_le room) e stays
      refine (relocate_passed K S hb (Nat.le_of_not_le room) fun makes =>
        ids (.inr ⟨stays, makes⟩)).mono fun answer h' post => ?_
      cases answer with
      | none => exact ⟨L, none, .nothing fun made => post.1 (moves.1 made), post.2⟩
      | some q =>
        obtain ⟨L', c, s, u, counts, P, payload, size, same⟩ := post
        rw [← moves] at counts
        exact ⟨zero, L', c, s, u, counts, P, payload, size, fun i hi _ => same i hi⟩

end Heap

end RegionHeap
