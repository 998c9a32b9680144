import RegionHeap.Proofs.Requests
import RegionHeap.Proofs.Tiling

/-!
# Sound ledgers and sound heaps

What is true of a heap between two calls, as a property of its ledger, and in terms of its memory, its
chains and its counters.

* `Ledger.Laid` — the outstanding mappings are the regions, their blocks fill them, and the free list
  holds the free blocks in the order of their sizes.
* `Ledger.Sound` — besides, no two neighbours are both free.
* `Laid.apart`, `Laid.owns`, `Laid.payload_clear` — blocks share no byte, and no header lies in a
  payload.
* `Laid.edit` — some blocks of one region are replaced by others that fill the same bytes.
* `Heap.Sound` — what a sound ledger says of the heap that keeps it.
-/

set_option autoImplicit false

namespace RegionHeap

/-- Whether a block is free, as the free list has it. -/
def Block.vacant (b : Block) : Bool :=
  !b.used

namespace Ledger

/-- The blocks that are handed out. -/
def used (L : Ledger) : List Block :=
  L.blocks.filter Block.used

/-- The regions `rs` are what is mapped, and the blocks and the free list agree with them. Two free
blocks may still be neighbours. -/
structure Laid (L : Ledger) (rs : List Region) : Prop where
  settings : L.settings.Usable
  lawful : L.place.Lawful
  settled : Settled L.transfers
  spans : rs.map Region.span = outstanding L.transfers
  blocks : L.blocks = rs.flatMap Region.blocks
  tiled : ∀ r ∈ rs, r.Tiled L.settings.minBlock
  count : L.regions = rs.length
  ids : (L.blocks.map Block.id).Nodup
  id_lt : ∀ b ∈ L.blocks, b.id < L.nextId
  free : L.free.Perm (L.blocks.filter Block.vacant)
  sorted : L.free.Pairwise Block.NoLarger

/-- The ledger of a heap between two calls. -/
structure Sound (L : Ledger) (rs : List Region) : Prop extends Laid L rs where
  merged : ∀ r ∈ rs, r.Merged

namespace Laid

variable {L : Ledger} {rs rs₁ rs₂ : List Region} {r : Region} {span : Span} {b x y : Block}
  {us vs seg seg' : List Block}

/-! ### Where blocks are -/

theorem placed (h : L.Laid rs) (hr : r ∈ rs) : r.span.Placed := by
  apply h.settled.placed
  rw [← h.spans]
  exact List.mem_map_of_mem hr

/-- Each block is in a region. -/
theorem exists_mem (h : L.Laid rs) (hb : b ∈ L.blocks) : ∃ r ∈ rs, b ∈ r.blocks := by
  rw [h.blocks] at hb
  exact List.mem_flatMap.1 hb

theorem fit (h : L.Laid rs) (hb : b ∈ L.blocks) : b.Fit L.settings.minBlock := by
  obtain ⟨r, hr, inside⟩ := h.exists_mem hb
  exact (h.tiled r hr).fit b inside

/-- The regions on either side of the one that a block is in, and the blocks in it. -/
theorem exists_region (h : L.Laid rs) (hb : b ∈ L.blocks) :
    ∃ rs₁ span us vs rs₂, rs = rs₁ ++ ⟨span, us ++ b :: vs⟩ :: rs₂ := by
  rw [h.blocks] at hb
  exact exists_region_of_mem hb

/-- The catalogue around some blocks of a region. -/
theorem blocks_eq (h : L.Laid (rs₁ ++ ⟨span, us ++ (seg ++ vs)⟩ :: rs₂)) :
    L.blocks = (rs₁.flatMap Region.blocks ++ us) ++ (seg ++ (vs ++ rs₂.flatMap Region.blocks)) := by
  rw [h.blocks]
  simp

theorem mem_blocks (h : L.Laid rs) (hr : r ∈ rs) (hb : b ∈ r.blocks) : b ∈ L.blocks := by
  rw [h.blocks]
  exact List.mem_flatMap.2 ⟨r, hr, hb⟩

/-- A block lies in the span of its region. -/
theorem bounds (h : L.Laid rs) (hr : r ∈ rs) (hb : b ∈ r.blocks) :
    r.span.start ≤ b.addr ∧ b.finish ≤ r.span.pageFinish :=
  have := (h.tiled r hr).tiles.bounds hb
  ⟨this.1, this.2.trans r.span.finish_le_pageFinish⟩

theorem spans_apart (h : L.Laid rs) : rs.Pairwise fun r u => r.span.Apart u.span := by
  have := h.settled.apart
  rw [← h.spans, List.pairwise_map] at this
  exact this

/-- No two regions start at the same address. -/
theorem starts_ne (h : L.Laid rs) : rs.Pairwise fun r u => r.span.start ≠ u.span.start := by
  apply List.Pairwise.imp_of_mem _ h.spans_apart
  intro r u hr hu apart
  have := (h.placed hr).nonempty
  have := (h.placed hu).nonempty
  have := le_pageCeil r.span.length
  have := le_pageCeil u.span.length
  unfold Span.Apart Span.pageFinish at apart
  omega

theorem eq_of_start {u : Region} (h : L.Laid rs) (hr : r ∈ rs) (hu : u ∈ rs)
    (e : r.span.start = u.span.start) : r = u := by
  have symm : Std.Symm fun r u : Region => r.span.start ≠ u.span.start := ⟨fun _ _ ne => ne.symm⟩
  by_contra ne
  exact h.starts_ne.forall hr hu ne e

/-- No byte belongs to two blocks. -/
theorem apart (h : L.Laid rs) :
    L.blocks.Pairwise fun x y => x.finish ≤ y.addr ∨ y.finish ≤ x.addr := by
  rw [h.blocks]
  refine List.pairwise_flatMap.2 ⟨?_, ?_⟩
  · intro r hr
    exact (h.tiled r hr).tiles.in_order.imp fun le => .inl le
  · apply List.Pairwise.imp_of_mem _ h.spans_apart
    intro r u hr hu apart x hx y hy
    have := h.bounds hr hx
    have := h.bounds hu hy
    unfold Span.Apart at apart
    omega

theorem apart_of_ne (h : L.Laid rs) (hx : x ∈ L.blocks) (hy : y ∈ L.blocks) (ne : x ≠ y) :
    x.finish ≤ y.addr ∨ y.finish ≤ x.addr := by
  have symm : Std.Symm fun x y : Block => x.finish ≤ y.addr ∨ y.finish ≤ x.addr :=
    ⟨fun _ _ h => h.symm⟩
  exact h.apart.forall hx hy ne

theorem nodup (h : L.Laid rs) : L.blocks.Nodup := by
  apply h.apart.imp
  rintro x y apart rfl
  have := x.addr_lt_finish
  omega

/-- What is on either side of a block of the catalogue. -/
theorem around_eq {xs ys : List Block} (h : L.Laid rs) (e : L.blocks = xs ++ b :: ys)
    (e' : L.blocks = us ++ b :: vs) : xs = us ∧ ys = vs := by
  have nodup := h.nodup
  rw [e, List.nodup_middle, List.nodup_cons, List.mem_append, not_or] at nodup
  obtain ⟨before, _, after⟩ :=
    (List.append_cons_inj_of_notMem nodup.1.1 nodup.1.2).1 (e.symm.trans e')
  exact ⟨before, after⟩

/-- The region around a block of the catalogue. -/
theorem exists_region_around {xs ys : List Block} (h : L.Laid rs) (blocks : L.blocks = xs ++ b :: ys) :
    ∃ rs₁ span us vs rs₂, rs = rs₁ ++ ⟨span, us ++ b :: vs⟩ :: rs₂ ∧
      xs = rs₁.flatMap Region.blocks ++ us ∧ ys = vs ++ rs₂.flatMap Region.blocks := by
  obtain ⟨rs₁, span, us, vs, rs₂, rfl⟩ := h.exists_region (b := b) (by simp [blocks])
  have around : L.blocks =
      (rs₁.flatMap Region.blocks ++ us) ++ b :: (vs ++ rs₂.flatMap Region.blocks) := by
    rw [h.blocks]
    simp
  exact ⟨rs₁, span, us, vs, rs₂, rfl, h.around_eq blocks around⟩

/-- Blocks are told apart by their pointers. -/
theorem payload_inj (h : L.Laid rs) (hx : x ∈ L.blocks) (hy : y ∈ L.blocks)
    (e : x.payload = y.payload) : x = y := by
  by_contra ne
  have := h.apart_of_ne hx hy ne
  have := x.addr_lt_finish
  have := y.addr_lt_finish
  have : x.addr = y.addr := Nat.add_right_cancel e
  omega

/-- The payload of a block lies in the address range, and no header lies in it. -/
theorem owns (h : L.Laid rs) (hb : b ∈ L.blocks) : L.Owns b := by
  obtain ⟨r, hr, inside⟩ := h.exists_mem hb
  have := (h.bounds hr inside).2
  have := (h.placed hr).fits
  exact .of_apart hb (by omega) h.apart

/-- The pointers of the blocks that are handed out are different. -/
theorem nodup_payloads (h : L.Laid rs) : (L.used.map Block.payload).Nodup :=
  (h.nodup.filter _).map_on fun _ hx _ hy e =>
    h.payload_inj (List.mem_of_mem_filter hx) (List.mem_of_mem_filter hy) e

theorem payload_clear (h : L.Laid rs) (hb : b ∈ L.blocks) {i : Nat} (hi : b.payload ≤ i)
    (hi' : i < b.finish) : ¬ L.Headers i := by
  rintro ⟨x, hx, covers⟩
  have := (h.owns hb).clear x hx
  unfold Header.Covers at covers
  unfold Block.payload Header.payload at *
  omega

theorem payload_apart (h : L.Laid rs) (hx : x ∈ L.blocks) (hy : y ∈ L.blocks) (ne : x ≠ y) :
    x.finish ≤ y.payload ∨ y.finish ≤ x.payload := by
  have := h.apart_of_ne hx hy ne
  unfold Block.finish Block.payload Header.payload at *
  omega

theorem mem_free_iff (h : L.Laid rs) : b ∈ L.free ↔ b ∈ L.blocks ∧ b.used = false := by
  rw [h.free.mem_iff, List.mem_filter]
  simp [Block.vacant]

theorem extent_lt (h : L.Laid rs) (hb : b ∈ L.blocks) : b.extent < wordLimit := by
  obtain ⟨r, hr, inside⟩ := h.exists_mem hb
  have := (h.bounds hr inside).2
  have := (h.placed hr).fits
  rw [b.finish_eq] at *
  omega

/-- Headers have room for each other. -/
theorem spaced (h : L.Laid rs) : Header.Spaced (L.blocks.map Block.addr) := by
  constructor
  · intro a ha
    obtain ⟨b, hb, rfl⟩ := List.mem_map.1 ha
    have limit := (h.owns hb).finish_le
    obtain ⟨r, hr, inside⟩ := h.exists_mem hb
    have := (h.bounds hr inside).1
    have := (h.placed hr).positive
    unfold Block.finish Block.payload Header.payload at limit
    omega
  · rw [List.pairwise_map]
    apply h.apart.imp
    intro x y apart
    unfold Block.finish Block.payload Header.payload at apart
    omega

/-- Every byte of a block is mapped. -/
theorem mapped_of_mem (h : L.Laid rs) (hb : b ∈ L.blocks) {i : Nat} (hi : b.addr ≤ i)
    (hi' : i < b.finish) : Mapped L.transfers i := by
  obtain ⟨r, hr, inside⟩ := h.exists_mem hb
  obtain ⟨lo, up⟩ := h.bounds hr inside
  have outstanding : r.span ∈ outstanding L.transfers := by
    rw [← h.spans]
    exact List.mem_map_of_mem hr
  exact h.settled.live r.span outstanding i (lo.trans hi) (Nat.lt_of_lt_of_le hi' up)

/-- Blocks of other regions name other heads. -/
theorem region_ne (h : L.Laid (rs₁ ++ r :: rs₂))
    (hx : x ∈ rs₁.flatMap Region.blocks ++ rs₂.flatMap Region.blocks) :
    x.region ≠ r.span.start := by
  rw [← List.flatMap_append] at hx
  obtain ⟨u, hu, inside⟩ := List.mem_flatMap.1 hx
  have apart := h.spans_apart
  have symm : ∀ {w v : Region}, w.span.Apart v.span → v.span.Apart w.span := Or.symm
  rw [List.perm_middle.pairwise_iff symm, List.pairwise_cons] at apart
  have apart := apart.1 u hu
  have mem : u ∈ rs₁ ++ r :: rs₂ := by
    simp only [List.mem_append, List.mem_cons] at hu ⊢
    tauto
  rw [(h.tiled u mem).region_eq inside]
  have := (h.placed (r := r) (by simp)).nonempty
  have := (h.placed mem).nonempty
  have := le_pageCeil r.span.length
  have := le_pageCeil u.span.length
  unfold Span.Apart Span.pageFinish at apart
  omega

/-! ### Counts -/

theorem length_le (h : L.Laid rs) : rs.length ≤ L.blocks.length := by
  have tiled := h.tiled
  rw [h.blocks]
  clear h
  induction rs with
  | nil => exact Nat.le_refl 0
  | cons r rs ih =>
    have := ih fun u hu => tiled u (by simp [hu])
    have := List.length_pos_of_ne_nil (tiled r (by simp)).nonempty
    rw [List.flatMap_cons, List.length_append, List.length_cons]
    omega

theorem regions_lt (h : L.Laid rs) : L.regions < wordLimit := by
  have := h.length_le
  have := h.spaced.length_lt
  have := h.count
  rw [List.length_map] at *
  omega

theorem small (h : L.Laid rs) : Header.length + L.settings.minBlock < wordLimit := by
  have := h.settings.most
  unfold Header.length wordLimit
  unfold maxSpan at this
  omega

/-! ### Replacing blocks of a region -/

theorem perm_filter_middle (p : Block → Bool) (xs seg ys : List Block) :
    ((xs ++ (seg ++ ys)).filter p).Perm (seg.filter p ++ (xs ++ ys).filter p) := by
  simp only [List.filter_append]
  exact List.perm_append_comm_assoc _ _ _

/-- The free list around some blocks of a region. -/
theorem perm_free (h : L.Laid (rs₁ ++ ⟨span, us ++ (seg ++ vs)⟩ :: rs₂)) :
    L.free.Perm (seg.filter Block.vacant ++ ((rs₁.flatMap Region.blocks ++ us) ++
      (vs ++ rs₂.flatMap Region.blocks)).filter Block.vacant) := by
  have := h.free
  rw [h.blocks_eq] at this
  exact this.trans (perm_filter_middle _ _ _ _)

/-- Some blocks of one region are replaced by others that fill the same bytes. The new ones bear
numbers of the old ones or the next numbers. -/
theorem edit (h : L.Laid (rs₁ ++ ⟨span, us ++ (seg ++ vs)⟩ :: rs₂)) {bs F : List Block} {k : Nat}
    (blocks : bs = (rs₁.flatMap Region.blocks ++ us) ++
      (seg' ++ (vs ++ rs₂.flatMap Region.blocks))) (some : seg' ≠ [])
    (same : ∀ head a z, Tiles head a seg z → Tiles head a seg' z)
    (fit : ∀ b ∈ seg', b.Fit L.settings.minBlock)
    (ids : (seg'.map Block.id).Sublist (seg.map Block.id ++ List.range' L.nextId k))
    (free : F.Perm (seg'.filter Block.vacant ++ ((rs₁.flatMap Region.blocks ++ us) ++
      (vs ++ rs₂.flatMap Region.blocks)).filter Block.vacant)) (sorted : F.Pairwise Block.NoLarger) :
    (((L.withBlocks bs).withFree F).withNextId (L.nextId + k)).Laid
      (rs₁ ++ ⟨span, us ++ (seg' ++ vs)⟩ :: rs₂) := by
  subst blocks
  have old := h.blocks_eq
  have numbers : ((L.blocks.map Block.id) ++ List.range' L.nextId k).Nodup := by
    refine List.nodup_append.2 ⟨h.ids, List.nodup_range', ?_⟩
    rintro i hi j hj rfl
    obtain ⟨x, hx, rfl⟩ := List.mem_map.1 hi
    have := h.id_lt x hx
    rw [List.mem_range'_1] at hj
    omega
  have subperm : ((((rs₁.flatMap Region.blocks ++ us) ++
      (seg' ++ (vs ++ rs₂.flatMap Region.blocks))).map Block.id)).Subperm
      (L.blocks.map Block.id ++ List.range' L.nextId k) := by
    rw [old]
    generalize rs₁.flatMap Region.blocks ++ us = xs
    generalize vs ++ rs₂.flatMap Region.blocks = ys
    simp only [List.map_append]
    have step : (xs.map Block.id ++ (seg'.map Block.id ++ ys.map Block.id)).Sublist
        (xs.map Block.id ++ ((seg.map Block.id ++ List.range' L.nextId k) ++ ys.map Block.id)) :=
      (ids.append_right _).append_left _
    refine step.subperm.trans (List.Perm.subperm ?_)
    simp only [List.append_assoc]
    exact ((List.perm_append_comm).append_left _).append_left _
  refine ⟨h.settings, h.lawful, h.settled, ?_, ?_, ?_, ?_, ?_, ?_, ?_, sorted⟩
  · refine Eq.trans ?_ h.spans
    simp
  · simp
  · intro r hr
    have tiled := h.tiled
    simp only [List.mem_append, List.mem_cons] at hr tiled
    rcases hr with hr | rfl | hr
    · exact tiled r (.inl hr)
    · exact (tiled _ (.inr (.inl rfl))).replace some same fit
    · exact tiled r (.inr (.inr hr))
  · have := h.count
    simpa using this
  · obtain ⟨l, perm, sub⟩ := subperm
    exact perm.nodup_iff.1 (numbers.sublist sub)
  · intro x hx
    have := subperm.subset (List.mem_map_of_mem hx)
    rcases List.mem_append.1 this with hi | hi
    · obtain ⟨y, hy, e⟩ := List.mem_map.1 hi
      have := h.id_lt y hy
      show x.id < L.nextId + k
      omega
    · rw [List.mem_range'_1] at hi
      exact hi.2
  · exact free.trans (perm_filter_middle _ _ _ _).symm

end Laid

end Ledger

/-! ### Sound heaps -/

/-- The heap is as it should be between two calls: `rs` are its regions in the order in which they were
mapped, and `unused` is its free list. -/
structure Heap.Sound (h : Heap) (rs : List Region) (unused : List Block) : Prop where
  /-- The catalogue leads through the blocks of all regions, one region after the other. -/
  catalogue : h.catalogue.Holds h.memory ((rs.flatMap Region.blocks).map Block.addr)
  /-- The blocks are what their headers say. -/
  headers : ∀ b ∈ rs.flatMap Region.blocks, Block.read h.memory b.addr = b
  /-- No block stands in the catalogue twice. -/
  once : ((rs.flatMap Region.blocks).map Block.addr).Nodup
  /-- The regions are what was mapped and not given back. -/
  spans : rs.map Region.span = outstanding h.space.transfers
  /-- The blocks of each region fill it, bear the mark and name its first block. -/
  tiled : ∀ r ∈ rs, r.Tiled h.settings.minBlock
  /-- Headers and payloads are as long as what was mapped. -/
  lengths : ∀ r ∈ rs, (r.blocks.map Block.extent).sum = r.span.length
  /-- No two neighbours are both free. -/
  merged : ∀ r ∈ rs, r.Merged
  ids : ((rs.flatMap Region.blocks).map Block.id).Nodup
  id_lt : ∀ b ∈ rs.flatMap Region.blocks, b.id < h.nextId
  /-- The free list leads through the free blocks. -/
  freeList : h.freeList.Holds h.memory (unused.map Block.addr)
  free : unused.Perm ((rs.flatMap Region.blocks).filter fun b => !b.used)
  sorted : unused.Pairwise fun x y => x.size ≤ y.size
  regions : h.regions = rs.length

/-- A heap that keeps a sound ledger is sound. -/
theorem Heap.Keeps.sound {h : Heap} {L : Ledger} {rs : List Region} (K : h.Keeps L)
    (S : L.Sound rs) : h.Sound rs L.free := by
  have blocks := S.blocks
  have spans := S.spans
  have tiled := S.tiled
  rw [← K.transfers] at spans
  rw [← K.settings] at tiled
  refine ⟨?_, ?_, ?_, spans, tiled, fun r hr => (tiled r hr).sum_extents, S.merged, ?_, ?_,
    K.freeList, ?_, S.sorted, ?_⟩
  · exact blocks ▸ K.catalogue
  · exact blocks ▸ K.headers
  · exact blocks ▸ K.spaced.nodup
  · exact blocks ▸ S.ids
  · rw [← blocks, K.nextId]
    exact S.id_lt
  · rw [← blocks]
    exact S.free
  · rw [K.regions, S.count]

end RegionHeap
