import RegionHeap.Proofs.Atomicity
import RegionHeap.Proofs.Retention
import RegionHeap.Proofs.Sound.Decisions

/-!
# Zeroed bytes

A request for zeroed bytes has one of four reasons to fail, and they can be told before it is made. If it
has none it is the same request without zeroing, after which the bytes that were asked for are set to 0,
whatever was left in them.

* `Heap.Lacks` — why so many zeroed bytes are not to be had.
* `Heap.Zeroed` — some bytes became 0 and nothing else changed.
* `Heap.allocateZeroed_run` — the request for zeroed bytes, by what the request without zeroing does.
* `Heap.allocateZeroed_of_lacks`, `Heap.allocateZeroed_yields` — what happens when something lacks, and when
  nothing does.
* `Tenancy.run_zeroed` — each outcome of a request after everything that may happen.
-/

set_option autoImplicit false

namespace RegionHeap

namespace Heap

/-- Why `total` zeroed bytes are not to be had: the number is no word, or zero, or the words for it are
more than a payload may have, or no free block has room and the mapping is refused. -/
inductive Lacks (h : Heap) (total : Nat) : Failure → Prop
  | word (large : wordLimit ≤ total) : Lacks h total (.sizeOverflow (wordLimit - 1))
  | nothing (zero : total = 0) : Lacks h total .zeroSize
  | payload (word : total < wordLimit) (large : maxPayload < wholeWords total) :
      Lacks h total (.sizeOverflow total)
  | memory {size : Nat} {cause : Refusal} (some : 0 < total) (fits : wholeWords total ≤ maxPayload)
      (served : size = max (wholeWords total) h.settings.minBlock)
      (full : ∀ b ∈ h.snapshot.catalogue.items, b.used = false → b.size < size)
      (place : h.space.place h.space.transfers (Header.length + size) = .error cause) :
      Lacks h total (.mapFailed (Header.length + size) cause)

/-- In the heap `h'` the `n` bytes from `p` on are 0, and otherwise it is the heap `h`: headers, chains,
counters, log and all other bytes. -/
structure Zeroed (h : Heap) (p n : Nat) (h' : Heap) : Prop where
  zero : ∀ i < n, h'.memory.byte (p + i) = 0
  others : ∀ i, i < p ∨ p + n ≤ i → h'.memory.byte i = h.memory.byte i
  rest : h' = h.withMemory h'.memory
  snapshot : h'.snapshot = h.snapshot

variable {E : Fault → Prop} {h h' : Heap} {L : Ledger} {rs : List Region} {count size total p : Nat}
  {failure : Failure}

/-! ### Zeroing after the request -/

/-- What becomes of a request for zeroed bytes, by what becomes of the same request without zeroing. -/
theorem allocateZeroed_run (count size : Nat) (h : Heap) : allocateZeroed count size h =
    if wordLimit ≤ count * size then .ok (.error (.sizeOverflow (wordLimit - 1))) h
    else if count * size = 0 then .ok (.error .zeroSize) h
    else match allocate (count * size) h with
      | .ok (.ok p) h' =>
        .ok (.ok p) (h'.withMemory (h'.memory.setBytes p (List.replicate (count * size) 0)))
      | .ok (.error failure) h' => .ok (.error failure) h'
      | .error fault h' => .error fault h' := by
  unfold allocateZeroed
  split
  · rfl
  split
  · rfl
  show EStateM.bind _ _ h = _
  unfold EStateM.bind
  cases allocate (count * size) h with
  | error fault h' => rfl
  | ok answer h' => cases answer <;> rfl

theorem calloc_run (count size : Nat) (h : Heap) : calloc count size h =
    match allocateZeroed count size h with
      | .ok a h' => .ok a.toOption h'
      | .error fault h' => .error fault h' := by
  show EStateM.bind _ _ h = _
  unfold EStateM.bind
  cases allocateZeroed count size h <;> rfl

/-- The null pointer stands for each failure. -/
theorem calloc_eq_none_iff : calloc count size h = .ok none h' ↔
    ∃ failure, allocateZeroed count size h = .ok (.error failure) h' := by
  rw [calloc_run]
  cases allocateZeroed count size h with
  | error fault h₁ => simp
  | ok a h₁ => cases a <;> simp [Except.toOption]

/-- A pointer stands for itself. -/
theorem calloc_eq_some_iff : calloc count size h = .ok (some p) h' ↔
    allocateZeroed count size h = .ok (.ok p) h' := by
  rw [calloc_run]
  cases allocateZeroed count size h with
  | error fault h₁ => simp
  | ok a h₁ => cases a <;> simp [Except.toOption]

/-- Bytes of the payload of a block are set to 0. -/
theorem zeroed_setBytes {c : Block} (K : h.Keeps L) (S : L.Laid rs) (hc : c ∈ L.blocks)
    (room : total ≤ c.size) : h.Zeroed c.payload total
      (h.withMemory (h.memory.setBytes c.payload (List.replicate total 0))) := by
  have length : (List.replicate total (0 : UInt8)).length = total := List.length_replicate
  refine ⟨?_, ?_, rfl, ?_⟩
  · intro i hi
    rw [memory_withMemory, Memory.byte_setBytes_of_inside (by omega), List.getElem_replicate]
  · intro i outside
    rw [memory_withMemory]
    apply Memory.byte_setBytes_of_outside
    omega
  · have K' := S.keeps_setBytes K hc (length.trans_le room)
    rw [snapshot_eq K, snapshot_eq K']

/-! ### Reasons to refuse -/

/-- No free block has room. -/
theorem Keeps.full_iff (K : h.Keeps L) (S : L.Laid rs) :
    (L.free.find? fun x => size ≤ x.size) = none ↔
      ∀ b ∈ h.snapshot.catalogue.items, b.used = false → b.size < size := by
  have listed : h.snapshot.catalogue.items = L.blocks := by
    rw [snapshot_eq K]
    rfl
  rw [listed]
  simp [S.mem_free_iff]

/-- A block is refused for a reason that could be told before, if some bytes are asked for and no more than
a word can count. -/
theorem lacks_of_refuses (K : h.Keeps L) (S : L.Laid rs) (word : total < wordLimit)
    (some : total ≠ 0) (refused : L.Refuses total failure) : h.Lacks total failure := by
  cases refused with
  | size invalid =>
    rw [Settings.blockSize_eq] at invalid
    split at invalid
    · cases invalid
    · next large =>
      cases invalid
      exact .payload word (Nat.lt_of_not_le large)
  | mapping valid full place =>
    obtain ⟨fits, served⟩ := Settings.blockSize_eq_ok_iff.1 valid
    rw [← K.settings] at served
    rw [← K.place, ← K.transfers] at place
    exact .memory (Nat.pos_of_ne_zero some) fits served ((K.full_iff S).1 full) place

/-- A request that is refused a block fails, and nothing else happens. -/
theorem allocateZeroed_of_refuses (K : h.Keeps L) (S : L.Sound rs) (word : count * size < wordLimit)
    (some : count * size ≠ 0) (refused : L.Refuses (count * size) failure) :
    ∃ h', allocateZeroed count size h = .ok (.error failure) h' ∧ h.Untouched h' := by
  have answered := (refused.decides S).yields (fun _ => False) h K fun ne => absurd rfl ne
  obtain ⟨a, h', run, rfl, _⟩ := answered.exists_ok
  refine ⟨h', ?_, (allocate_error (count * size)).of_ok run failure rfl⟩
  rw [allocateZeroed_run, if_neg (Nat.not_le.2 word), if_neg some, run]

/-- What lacks is the answer, and nothing else happens. -/
theorem allocateZeroed_of_lacks (K : h.Keeps L) (S : L.Sound rs)
    (lacks : h.Lacks (count * size) failure) :
    ∃ h', allocateZeroed count size h = .ok (.error failure) h' ∧ h.Untouched h' := by
  cases lacks with
  | word large =>
    refine ⟨h, ?_, .inl rfl⟩
    rw [allocateZeroed_run, if_pos large]
  | nothing zero =>
    refine ⟨h, ?_, .inl rfl⟩
    rw [allocateZeroed_run, zero]
    rfl
  | payload word large =>
    have some : count * size ≠ 0 := by
      intro zero
      rw [zero] at large
      exact absurd large (by decide)
    refine allocateZeroed_of_refuses K S word some (.size ?_)
    rw [Settings.blockSize_eq, if_neg (Nat.not_le.2 large)]
  | memory some fits served full place =>
    have word : count * size < wordLimit := by
      have := (le_wholeWords _).trans fits
      unfold maxPayload maxSpan at this
      unfold wordLimit
      omega
    rw [K.settings] at served
    rw [K.place, K.transfers] at place
    exact allocateZeroed_of_refuses K S word some.ne'
      (.mapping (Settings.blockSize_eq_ok_iff.2 ⟨fits, served⟩) ((K.full_iff S.toLaid).2 full) place)

/-- When nothing lacks, the request without zeroing hands out a block, and its first bytes are set to 0. -/
theorem allocateZeroed_yields (K : h.Keeps L) (S : L.Sound rs)
    (ids : L.Makes (count * size) → L.nextId + 1 < wordLimit ∨ E .additionOverflow)
    (enough : ∀ failure, ¬ h.Lacks (count * size) failure) :
    Yields E (allocateZeroed count size) h fun answer h' => ∃ p h₁,
      allocate (count * size) h = .ok (.ok p) h₁ ∧ answer = .ok p ∧
        h₁.Zeroed p (count * size) h' := by
  have word : count * size < wordLimit := Nat.lt_of_not_le fun large => enough _ (.word large)
  have some : count * size ≠ 0 := fun zero => enough _ (.nothing zero)
  have handed := allocate_handed K S ids
  unfold Yields at *
  rw [allocateZeroed_run, if_neg (Nat.not_le.2 word), if_neg some]
  split at handed
  · next answer h₁ run =>
    cases answer with
    | error failure =>
      exact absurd (lacks_of_refuses K S.toLaid word some handed.1) (enough failure)
    | ok p =>
      obtain ⟨_, L', c, s, _, _, P, _, rfl, room⟩ := handed
      obtain ⟨rs', S'⟩ := P.sound
      have hc := (Ledger.mem_used.1 (P.given_used rfl)).1
      rw [run]
      exact ⟨_, h₁, rfl, rfl, zeroed_setBytes P.keeps S'.toLaid hc room⟩
  · next fault h₁ run =>
    rw [run]
    exact handed

end Heap

namespace Tenancy

variable {settings : Settings} {place : Placement} {as : List Action} {t : Tenancy}

/-- **Zeroed bytes are a request and zeros.** After everything that may happen, a request for `count` times
`size` zeroed bytes fails for the reason that can be told before, and then nothing else happens. If there
is none it returns, unless it takes a number and there is none left, with the pointer that the same request
without zeroing returns and with the heap that that one leaves, but for the bytes that were asked for: they
are 0, and no other byte was written. The null pointer is answered instead of each failure, and for nothing
else. -/
theorem run_zeroed (built : settings.Built) (lawful : place.Lawful)
    (run : Run (opened settings place) as t) (count size : Nat) :
    t.heap.settings = settings ∧
    (∀ failure, t.heap.Lacks (count * size) failure →
      ∃ h', Heap.allocateZeroed count size t.heap = .ok (.error failure) h' ∧
        t.heap.Untouched h') ∧
    ((∀ failure, ¬ t.heap.Lacks (count * size) failure) →
      Heap.Yields t.heap.Spent (Heap.allocateZeroed count size) t.heap fun answer h' => ∃ p h₁,
        Heap.allocate (count * size) t.heap = .ok (.ok p) h₁ ∧ answer = .ok p ∧
          h₁.Zeroed p (count * size) h') ∧
    (∀ h', Heap.calloc count size t.heap = .ok none h' ↔
      ∃ failure, Heap.allocateZeroed count size t.heap = .ok (.error failure) h') ∧
    ∀ p h', Heap.calloc count size t.heap = .ok (some p) h' ↔
      Heap.allocateZeroed count size t.heap = .ok (.ok p) h' := by
  obtain ⟨L, R⟩ := run.exists_retained built lawful
  have K := R.held.keeps
  obtain ⟨rs, S⟩ := R.held.sound
  exact ⟨K.settings.trans R.settings_eq, fun _ => Heap.allocateZeroed_of_lacks K S,
    Heap.allocateZeroed_yields K S fun _ => R.held.left_or_spent, fun _ => Heap.calloc_eq_none_iff,
    fun _ _ => Heap.calloc_eq_some_iff⟩

/-- A block that holds what an earlier owner stored is handed out again with zeros, and four requests fail,
each for a reason of its own. -/
theorem run_zeroed_recycled : ∃ t,
    Run (opened {} .standard)
      [.call (.malloc 500) (some 140737219915848),
        .store 140737219915848 0 (List.replicate 16 255),
        .call (.free (some 140737219915848)) none] t ∧
      t.heap.memory.byte 140737219915850 = 255 ∧
      (Heap.Yields t.heap.Spent (Heap.allocateZeroed 3 8) t.heap fun answer h' => ∃ p h₁,
        Heap.allocate 24 t.heap = .ok (.ok p) h₁ ∧ answer = .ok p ∧ h₁.Zeroed p 24 h') ∧
      (∃ h', Heap.allocateZeroed (1 <<< 32) (1 <<< 32) t.heap =
        .ok (.error (.sizeOverflow (wordLimit - 1))) h' ∧ t.heap.Untouched h') ∧
      (∃ h', Heap.allocateZeroed 0 8 t.heap = .ok (.error .zeroSize) h' ∧ t.heap.Untouched h') ∧
      (∃ h', Heap.allocateZeroed 1 (1 <<< 63) t.heap = .ok (.error (.sizeOverflow (1 <<< 63))) h' ∧
        t.heap.Untouched h') ∧
      ∃ h', Heap.allocateZeroed 1 (1 <<< 50) t.heap =
        .ok (.error (.mapFailed (Header.length + 1 <<< 50) .outOfMemory)) h' ∧
          t.heap.Untouched h' := by
  refine exists_of_replay_where (q := fun t => decide (t.heap.memory.byte 140737219915850 = 255) &&
    (t.heap.snapshot.catalogue.items.any fun b => !b.used && decide (24 ≤ b.size)) &&
    (t.heap.snapshot.catalogue.items.all fun b => decide (b.used = false → b.size < 1 <<< 50)) &&
    decide (t.heap.space.place t.heap.space.transfers (Header.length + 1 <<< 50) =
      .error .outOfMemory)) (by decide +kernel) fun t run checked => ?_
  simp only [Bool.and_eq_true, decide_eq_true_eq, List.any_eq_true, List.all_eq_true,
    Bool.not_eq_true'] at checked
  obtain ⟨⟨⟨dirty, b, hb, free, large⟩, full⟩, refused⟩ := checked
  have outcomes := run_zeroed .default Placement.standard_lawful run
  refine ⟨dirty, (outcomes 3 8).2.2.1 ?_, (outcomes _ _).2.1 _ (.word (by decide)),
    (outcomes _ _).2.1 _ (.nothing rfl), (outcomes _ _).2.1 _ (.payload (by decide) (by decide)),
    (outcomes _ _).2.1 _ (.memory (by decide) (by decide) ?_ full refused)⟩
  · intro failure lacks
    cases lacks with
    | word long => exact absurd long (by decide)
    | nothing zero => cases zero
    | payload _ long => exact absurd long (by decide)
    | memory _ _ served none =>
      rw [(outcomes 3 8).1] at served
      subst served
      exact absurd large (Nat.not_le.2 (none b hb free))
  · rw [(outcomes 0 0).1]
    decide

end Tenancy

end RegionHeap
