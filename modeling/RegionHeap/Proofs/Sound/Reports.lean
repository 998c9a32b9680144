import Mathlib.Algebra.Order.BigOperators.Group.List
import Mathlib.Algebra.Order.Ring.Nat
import RegionHeap.Proofs.Fusion
import RegionHeap.Proofs.Multiples
import RegionHeap.Proofs.Sound
import RegionHeap.Snapshot.Audit

/-!
# Reports of a sound heap

What a snapshot of a sound heap shows. The walks follow both chains to their ends, no sum leaves its
range, and the audit finds nothing.

* `Heap.snapshot_eq` — a snapshot shows the ledger.
* `regionRuns_flatMap` — the runs that a snapshot finds are the regions.
* `Laid.idle_eq` — the runs without a block in use are the idle regions.
* `Laid.sum_extents` — the blocks take what is mapped.
* `Heap.statistics_eq`, `Heap.inventory_eq`, `Heap.leaks_eq` — the reports of a sound heap.
* `Heap.audit_eq` — the audit of a sound heap.
-/

set_option autoImplicit false

namespace RegionHeap

variable {h : Heap} {L : Ledger} {rs : List Region} {b x : Block}

/-- A snapshot shows the blocks and the free list of the ledger. -/
theorem Heap.snapshot_eq (K : h.Keeps L) : h.snapshot =
    ⟨L.regions, L.blocks.length, L.free.length, .ofList L.blocks, .ofList L.free⟩ := by
  have blocks : (L.blocks.map Block.addr).map (Block.read h.memory) = L.blocks := by
    rw [List.map_map]
    refine (List.map_congr_left ?_).trans (List.map_id L.blocks)
    exact K.headers
  have free : (L.free.map Block.addr).map (Block.read h.memory) = L.free := by
    rw [List.map_map]
    refine (List.map_congr_left ?_).trans (List.map_id L.free)
    exact fun c hc => K.headers c (K.listed c hc)
  unfold snapshot
  rw [Chain.walk_eq K.catalogue, Chain.walk_eq K.freeList, Walk.map_ofList, Walk.map_ofList, blocks,
    free, K.regions, K.catalogue.ends, K.freeList.ends]
  simp [Chain.ofNodes]

/-! ### Sums -/

/-- The blocks take exactly what is mapped for the regions. -/
theorem Ledger.Laid.sum_extents (S : L.Laid rs) :
    (L.blocks.map Block.extent).sum = ((outstanding L.transfers).map Span.length).sum := by
  have tiled := S.tiled
  rw [S.blocks, ← S.spans, List.map_map]
  clear S
  induction rs with
  | nil => rfl
  | cons r rs ih =>
    have first := (tiled r (by simp)).sum_extents
    have rest := ih fun u hu => tiled u (by simp [hu])
    rw [List.flatMap_cons, List.map_append, List.sum_append, List.map_cons, List.sum_cons, first,
      rest]
    rfl

/-- The bytes of all blocks are fewer than there are addresses. -/
theorem Ledger.Laid.sum_extents_lt (S : L.Laid rs) :
    (L.blocks.map Block.extent).sum < wordLimit := by
  rw [S.sum_extents]
  refine Nat.lt_of_le_of_lt (List.sum_le_sum ?_) S.settled.sum_pages_lt
  exact fun s _ => le_pageCeil s.length

/-- The payload bytes of some of the blocks are fewer than there are addresses. -/
theorem Ledger.Laid.sum_sizes_lt (S : L.Laid rs) {bs : List Block} (p : Block → Bool)
    (perm : bs.Perm (L.blocks.filter p)) : (bs.map Block.size).sum < wordLimit := by
  refine Nat.lt_of_le_of_lt ?_ S.sum_extents_lt
  rw [(perm.map Block.size).sum_nat]
  generalize L.blocks = cs
  induction cs with
  | nil => exact Nat.le_refl 0
  | cons c cs ih =>
    have extent : c.size ≤ c.extent := Nat.le_add_left _ _
    rw [List.filter_cons, List.map_cons, List.sum_cons]
    split
    · rw [List.map_cons, List.sum_cons]
      omega
    · omega

theorem mapM_eq_ok {α β : Type} {f : α → Except Fault β} {g : α → β} {xs : List α}
    (e : ∀ x ∈ xs, f x = .ok (g x)) : xs.mapM f = .ok (xs.map g) := by
  induction xs with
  | nil => rfl
  | cons x xs ih =>
    rw [List.mapM_cons, e x (by simp), ih fun y hy => e y (by simp [hy])]
    rfl

/-- Rounding a word up to whole pages. -/
theorem roundUp_page {n : Nat} (fits : n + pageSize < wordLimit) :
    roundUp n pageSize = .ok (pageCeil n) :=
  (roundUp_eq_ok_iff (k := 12) (by decide) rfl).2 ⟨fits, rfl⟩

/-! ### Regions in a snapshot -/

namespace Snapshot

/-- Blocks that start no region belong to the run before them. -/
theorem regionRuns_append {bs cs : List Block} (inner : ∀ x ∈ bs, x.isRegionHead = false) :
    regionRuns (bs ++ cs) = regionRuns cs := by
  induction bs with
  | nil => rfl
  | cons b bs ih =>
    have head := inner b (by simp)
    rw [List.cons_append, regionRuns, if_neg (by simp [head]), ih fun x hx => inner x (by simp [hx])]

/-- The first block of a region is its head, and no other one is. -/
theorem heads_of_tiled {least : Nat} {r : Region} (h : r.Tiled least) :
    ∃ b bs, r.blocks = b :: bs ∧ b.isRegionHead = true ∧ ∀ x ∈ bs, x.isRegionHead = false := by
  obtain ⟨b, bs, e⟩ := List.exists_cons_of_ne_nil h.nonempty
  have tiles := h.tiles
  rw [e] at tiles
  refine ⟨b, bs, e, ?_, ?_⟩
  · unfold Block.isRegionHead
    rw [tiles.2.1, tiles.1, beq_self_eq_true]
  · intro x hx
    have := (tiles.2.2.bounds hx).1
    have := b.addr_lt_finish
    have := tiles.1
    unfold Block.isRegionHead
    rw [tiles.region_eq (List.mem_cons_of_mem b hx), beq_eq_false_iff_ne]
    omega

/-- The runs of a snapshot are the regions. -/
theorem regionRuns_flatMap (S : L.Laid rs) :
    regionRuns (rs.flatMap Region.blocks) = rs.map Region.blocks := by
  have tiled := S.tiled
  have apart := S.spans_apart
  have placed := fun r hr => (S.placed (r := r) hr).nonempty
  clear S
  induction rs with
  | nil => rfl
  | cons r rs ih =>
    obtain ⟨ne, apart⟩ := List.pairwise_cons.1 apart
    have ih := ih (fun u hu => tiled u (by simp [hu])) apart fun u hu => placed u (by simp [hu])
    have this_region := tiled r (by simp)
    obtain ⟨b, bs, e, head, inner⟩ := heads_of_tiled this_region
    have b_region := this_region.region_eq (b := b) (by simp [e])
    have same : ∀ x ∈ bs, (x.region == b.region) = true := by
      intro x hx
      rw [this_region.region_eq (by simp [e, hx]), b_region, beq_self_eq_true]
    have other : ∀ y ∈ (rs.flatMap Region.blocks).head?, (y.region == b.region) = false := by
      intro y hy
      obtain ⟨u, hu, inside⟩ := List.mem_flatMap.1 (List.mem_of_mem_head? hy)
      have apart := ne u hu
      have := placed r (by simp)
      have := placed u (by simp [hu])
      have := le_pageCeil r.span.length
      have := le_pageCeil u.span.length
      rw [(tiled u (by simp [hu])).region_eq inside, b_region, beq_eq_false_iff_ne]
      unfold Span.Apart Span.pageFinish at apart
      omega
    rw [List.flatMap_cons, List.map_cons, e, List.cons_append, regionRuns, if_pos head,
      regionRuns_append inner, ih]
    congr 2
    rw [List.takeWhile_append_of_pos same]
    have none : (rs.flatMap Region.blocks).takeWhile (fun y => y.region == b.region) = [] := by
      cases tail : rs.flatMap Region.blocks with
      | nil => rfl
      | cons y ys =>
        rw [List.takeWhile_cons_of_neg]
        simp [other y (by simp [tail])]
    rw [none, List.append_nil]

end Snapshot

/-- The runs of the catalogue in which no block is in use. -/
def Ledger.idle (L : Ledger) : Nat :=
  (Snapshot.regionRuns L.blocks).countP fun run => run.all fun b => !b.used

/-- They are the idle regions. -/
theorem Ledger.Laid.idle_eq (S : L.Laid rs) : L.idle = rs.countP Region.idle := by
  unfold Ledger.idle
  rw [S.blocks, Snapshot.regionRuns_flatMap S, List.countP_map]
  rfl

/-- A region in the place of another one that is no more idle. -/
theorem Ledger.Laid.idle_replace {L' : Ledger} {rs₁ rs₂ : List Region} {r r' : Region}
    (S : L.Laid (rs₁ ++ r :: rs₂)) (S' : L'.Laid (rs₁ ++ r' :: rs₂))
    (busy : r'.idle = true → r.idle = true) : L'.idle ≤ L.idle := by
  have one : [r'].countP Region.idle ≤ [r].countP Region.idle := by
    cases e : r'.idle with
    | true => simp [e, busy e]
    | false => simp [e]
  rw [S.idle_eq, S'.idle_eq, List.append_cons rs₁ r, List.append_cons rs₁ r']
  simp only [List.countP_append]
  omega

/-- Giving a block back leaves no more idle regions than are kept. -/
theorem Ledger.Laid.idle_giveBack {L' : Ledger} {retained p : Nat} (S : L.Laid rs)
    (S' : L'.Laid (Region.giveBack retained p rs)) (few : L.idle ≤ retained) :
    L'.idle ≤ retained := by
  rw [S.idle_eq] at few
  rw [S'.idle_eq]
  exact Region.countP_idle_giveBack few

/-- The statistics of a sound heap. -/
theorem Heap.statistics_eq (K : h.Keeps L) (S : L.Laid rs) : h.statistics = .ok
    { regions := L.regions
      blocks := L.blocks.length
      freeBlocks := L.free.length
      usedBytes := (L.used.map Block.size).sum
      freeBytes := (L.free.map Block.size).sum
      mappedBytes := ((outstanding L.transfers).map fun s => pageCeil s.length).sum } := by
  have free := S.sum_sizes_lt Block.vacant S.free
  have used := S.sum_sizes_lt Block.used (.refl _)
  have pages := S.settled.sum_pages_lt
  have runs : (rs.map Region.blocks).mapM (fun run => do roundUp (← Snapshot.runExtent run) pageSize) =
      .ok (rs.map fun r => pageCeil r.span.length) := by
    rw [List.mapM_map]
    apply mapM_eq_ok
    intro r hr
    have placed := S.placed hr
    have extent := (S.tiled r hr).sum_extents
    have fits := placed.fits
    have page := le_pageCeil r.span.length
    have first : pageSize ≤ r.span.start := by
      have := placed.aligned
      have := placed.positive
      unfold pageSize at *
      omega
    unfold Span.pageFinish at fits
    show (Snapshot.runExtent r.blocks >>= fun len => roundUp len pageSize) = _
    unfold Snapshot.runExtent
    rw [Word.sum_eq_ok (by omega), extent]
    dsimp only [bind, Except.bind]
    exact @roundUp_page r.span.length (by omega)
  have mapped : h.snapshot.mappedBytes =
      .ok ((outstanding L.transfers).map fun s => pageCeil s.length).sum := by
    rw [snapshot_eq K]
    unfold Snapshot.mappedBytes
    show ((Snapshot.regionRuns L.blocks).mapM _ >>= _) = _
    rw [S.blocks, Snapshot.regionRuns_flatMap S, runs]
    rw [← S.spans, List.map_map] at pages ⊢
    exact Word.sum_eq_ok pages
  unfold statistics Snapshot.statistics
  rw [mapped, snapshot_eq K]
  unfold Snapshot.payloadBytes Snapshot.used
  dsimp only
  have sum : Word.sum (((Walk.ofList L.blocks).items.filter Block.used).map Block.size) =
      .ok (L.used.map Block.size).sum := Word.sum_eq_ok used
  rw [Walk.total_ofList free, sum]
  rfl

/-- The inventory of a sound heap. -/
theorem Heap.inventory_eq (K : h.Keeps L) (S : L.Laid rs) : h.inventory = .ok
    { regions := L.regions
      blockCount := L.blocks.length
      freeCount := L.free.length
      blocks := L.blocks
      free := L.free
      totalBytes := (L.blocks.map Block.size).sum
      freeBytes := (L.free.map Block.size).sum
      mappedBytes := ((outstanding L.transfers).map fun s => pageCeil s.length).sum } := by
  have all : (L.blocks.map Block.size).sum < wordLimit :=
    S.sum_sizes_lt (fun _ => true) (by rw [List.filter_true])
  have statistics := statistics_eq K S
  unfold Heap.statistics at statistics
  unfold inventory Snapshot.inventory
  rw [statistics, snapshot_eq K]
  dsimp only
  rw [Walk.total_ofList all, Walk.all_ofList]
  rfl

/-- What a listing adds up to from some bytes and some count on. -/
theorem Snapshot.foldlM_tallyBlock {bs : List Block} {bytes count : Nat}
    (fits : bytes + (bs.map Block.size).sum < wordLimit) (counted : count < countLimit) :
    bs.foldlM tallyBlock (bytes, count) =
      if count + bs.length < countLimit then .ok (bytes + (bs.map Block.size).sum, count + bs.length)
      else .error .countOverflow := by
  induction bs generalizing bytes count with
  | nil => exact (if_pos counted).symm
  | cons b bs ih =>
    rw [List.map_cons, List.sum_cons, ← Nat.add_assoc] at fits
    rw [List.foldlM_cons, List.map_cons, List.sum_cons, List.length_cons, ← Nat.add_assoc,
      Nat.add_right_comm count, ← Nat.add_assoc]
    unfold tallyBlock
    rw [Word.add_eq_ok (by omega)]
    by_cases last : count + 1 < countLimit
    · have next : countUp count = .ok (count + 1) := if_pos last
      rw [next]
      exact ih fits last
    · have stopped : countUp count = .error .countOverflow := if_neg last
      rw [stopped, if_neg (by omega)]
      rfl

/-- A listing adds up the bytes and counts the blocks, as long as 32 bits hold the count. -/
theorem Snapshot.tally_eq {bs : List Block} (fits : (bs.map Block.size).sum < wordLimit) :
    tally bs = if bs.length < countLimit then .ok ((bs.map Block.size).sum, bs.length)
      else .error .countOverflow := by
  have := @foldlM_tallyBlock bs 0 0 (by omega) (by decide)
  rwa [Nat.zero_add, Nat.zero_add] at this

/-- The blocks of a sound heap that are handed out are listed, unless they are too many to be counted. -/
theorem Heap.leaks_eq (K : h.Keeps L) (S : L.Laid rs) : h.leaks =
    if L.used.length < countLimit then
      .ok (if L.used = [] then none
        else some ⟨L.regions, L.blocks.length, L.used, L.used.length, (L.used.map Block.size).sum⟩)
    else .error .countOverflow := by
  have tallied := @Snapshot.tally_eq L.used (S.sum_sizes_lt Block.used (.refl _))
  have used : (Snapshot.used ⟨L.regions, L.blocks.length, L.free.length, .ofList L.blocks,
      .ofList L.free⟩) = L.used := rfl
  unfold leaks Snapshot.leaks
  rw [snapshot_eq K, used, tallied]
  split
  · simp only [List.length_eq_zero_iff, bind, Except.bind]
    rfl
  · rfl

/-! ### The audit -/

namespace Snapshot

/-- When the audit finds nothing along the free list. -/
theorem auditFree_eq_ok_iff {last : Nat} {bs : List Block} : auditFree last bs = .ok () ↔
    (∀ b ∈ bs, b.intact = true ∧ b.used = false) ∧ (∀ b ∈ bs, last ≤ b.size) ∧
      bs.Pairwise Block.NoLarger := by
  induction bs generalizing last with
  | nil => simp [auditFree]
  | cons b bs ih =>
    unfold auditFree
    cases intact : b.intact with
    | false => simp [intact]
    | true =>
      cases used : b.used with
      | true => simp [used]
      | false =>
        by_cases less : b.size < last
        · simp [less, Nat.not_le.2 less]
        · simp only [Bool.true_eq_false, if_false, if_neg less, ih, List.forall_mem_cons,
            List.pairwise_cons, Bool.false_eq_true, intact, used]
          constructor
          · rintro ⟨fine, large, sorted⟩
            exact ⟨⟨⟨trivial, trivial⟩, fine⟩, ⟨by omega, fun x hx => Nat.le_trans (by omega) (large x hx)⟩,
              large, sorted⟩
          · rintro ⟨⟨_, fine⟩, _, large, sorted⟩
            exact ⟨fine, large, sorted⟩

/-- A block that is as it should be leaves the rest of the catalogue to be audited. -/
theorem auditBlocks_cons {before : Option Block} {bs : List Block} (intact : b.intact = true)
    (neighbour : auditNeighbour before b = .ok ()) :
    auditBlocks before (b :: bs) = auditBlocks (some b) bs := by
  rw [auditBlocks, if_neg (by simp [intact]), neighbour]
  rfl

/-- Along the blocks of a region the audit finds nothing. -/
theorem auditBlocks_region {head z : Nat} {bs : List Block} (cs : List Block)
    (named : x.region = head) (tiles : Tiles head x.finish bs z)
    (merged : (x :: bs).IsChain Block.Separate) (intact : ∀ b ∈ bs, b.intact = true) :
    ∃ y, y.region = head ∧ auditBlocks (some x) (bs ++ cs) = auditBlocks (some y) cs := by
  induction bs generalizing x with
  | nil => exact ⟨x, named, rfl⟩
  | cons b bs ih =>
    obtain ⟨addr, region, tiles⟩ := tiles
    rw [List.isChain_cons_cons] at merged
    have same : (x.region == b.region) = true := by rw [named, region, beq_self_eq_true]
    have separate : ¬ (x.used = false ∧ b.used = false) := by
      rintro ⟨hx, hb⟩
      rcases merged.1 with used | used
      · rw [hx] at used
        cases used
      · rw [hb] at used
        cases used
    have neighbour : auditNeighbour (some x) b = .ok () := by
      unfold auditNeighbour
      simp only [Option.filter, same, if_true]
      rw [if_neg (by simp [addr]), if_neg separate]
    obtain ⟨y, hy, e⟩ := ih region tiles merged.2 fun c hc => intact c (by simp [hc])
    exact ⟨y, hy, by rw [List.cons_append, auditBlocks_cons (intact b (by simp)) neighbour, e]⟩

/-- Along the catalogue of a sound heap the audit finds nothing. -/
theorem auditBlocks_flatMap {least : Nat} {before : Option Block} (tiled : ∀ r ∈ rs, r.Tiled least)
    (merged : ∀ r ∈ rs, r.Merged) (apart : rs.Pairwise fun r u => r.span.start ≠ u.span.start)
    (fresh : ∀ x ∈ before, ∀ r ∈ rs, x.region ≠ r.span.start) :
    auditBlocks before (rs.flatMap Region.blocks) = .ok () := by
  induction rs generalizing before with
  | nil => cases before <;> rfl
  | cons r rs ih =>
    obtain ⟨ne, apart⟩ := List.pairwise_cons.1 apart
    have this_region := tiled r (by simp)
    obtain ⟨b, bs, e, head, _⟩ := heads_of_tiled this_region
    have b_region := this_region.region_eq (b := b) (by simp [e])
    have tiles := this_region.tiles
    have chain : r.blocks.IsChain Block.Separate := merged r (by simp)
    rw [e] at tiles chain
    have first : before.filter (fun x => x.region == b.region) = none := by
      cases before with
      | none => rfl
      | some x =>
        have := fresh x rfl r (by simp)
        simp [Option.filter, b_region, this]
    have neighbour : auditNeighbour before b = .ok () := by
      unfold auditNeighbour
      rw [first]
      exact if_pos head
    have intact : ∀ c ∈ r.blocks, c.intact = true := fun c hc => (this_region.fit c hc).intact
    obtain ⟨y, hy, run⟩ := auditBlocks_region (rs.flatMap Region.blocks) b_region tiles.2.2
      chain fun c hc => intact c (by simp [e, hc])
    rw [List.flatMap_cons, e, List.cons_append, auditBlocks_cons (intact b (by simp [e])) neighbour,
      run]
    apply ih (fun u hu => tiled u (by simp [hu])) (fun u hu => merged u (by simp [hu])) apart
    rintro x ⟨⟩ u hu
    rw [hy]
    exact ne u hu

/-- There are as many heads as regions. -/
theorem countP_heads {least : Nat} (tiled : ∀ r ∈ rs, r.Tiled least) :
    (rs.flatMap Region.blocks).countP Block.isRegionHead = rs.length := by
  induction rs with
  | nil => rfl
  | cons r rs ih =>
    obtain ⟨b, bs, e, head, inner⟩ := heads_of_tiled (tiled r (by simp))
    have none : bs.countP Block.isRegionHead = 0 := by
      rw [List.countP_eq_zero]
      intro x hx
      simp [inner x hx]
    rw [List.flatMap_cons, List.countP_append, e, List.countP_cons_of_pos head, none,
      ih fun u hu => tiled u (by simp [hu]), List.length_cons]
    omega

end Snapshot

/-- The audit of a sound heap finds nothing. -/
theorem Heap.audit_eq (K : h.Keeps L) (S : L.Sound rs) : h.audit = .ok (.ok ()) := by
  have listed : ∀ b ∈ L.free, b ∈ L.blocks ∧ b.used = false := fun b hb => S.mem_free_iff.1 hb
  have intact : ∀ b ∈ L.blocks, b.intact = true := fun b hb => (S.fit hb).intact
  have free := (@Snapshot.auditFree_eq_ok_iff 0 L.free).2
    ⟨fun b hb => ⟨intact b (listed b hb).1, (listed b hb).2⟩, fun b _ => Nat.zero_le b.size, S.sorted⟩
  have blocks := @Snapshot.auditBlocks_flatMap rs _ none S.tiled S.merged S.starts_ne (by simp)
  rw [← S.blocks] at blocks
  have heads := Snapshot.countP_heads S.tiled
  rw [← S.blocks, ← S.count] at heads
  have vacant : L.blocks.countP (fun b => b.used == false) = L.free.length := by
    rw [S.free.length_eq, List.countP_eq_length_filter]
    congr 1
    apply List.filter_congr
    intro b _
    unfold Block.vacant
    cases b.used <;> rfl
  have counts : h.snapshot.auditCounts = .ok () := by
    rw [snapshot_eq K]
    unfold Snapshot.auditCounts
    dsimp only [Walk.ofList]
    rw [heads, vacant, if_neg (by simp), if_neg (by simp)]
    rfl
  unfold audit Snapshot.audit
  rw [snapshot_eq K] at counts ⊢
  rw [counts]
  dsimp only [Walk.ofList]
  rw [free, blocks]
  rfl

end RegionHeap
