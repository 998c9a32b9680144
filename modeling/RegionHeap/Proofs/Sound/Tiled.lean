import RegionHeap.Proofs.Sound.Edits

/-!
# Tiled heaps

While a call is at work, two free blocks may be neighbours. A heap is tiled when its blocks fill its regions
and its free list has the free ones in the order of their sizes. That is said of its memory and its chains;
the counters, the settings and what was mapped may be anything.

* `exists_orderedInsert` — where a block goes in a sorted free list.
* `Heap.Tiled` — the property, which can be decided.
* `Keeps.tiled` — heaps between calls are tiled.
* `Heap.ledger`, `Tiled.keeps` — a tiled heap keeps a ledger.
* `Tiled.edit` — some blocks of one region are replaced by others that fill the same bytes.
-/

set_option autoImplicit false

namespace RegionHeap

/-- A block is put into a sorted list behind all smaller ones and in front of all that are as large. -/
theorem exists_orderedInsert {F : List Block} (b : Block) (sorted : F.Pairwise Block.NoLarger) :
    ∃ us vs, F = us ++ vs ∧ (∀ x ∈ us, x.size < b.size) ∧ (∀ x ∈ vs, b.size ≤ x.size) ∧
      F.orderedInsert Block.NoLarger b = us ++ b :: vs := by
  induction F with
  | nil => exact ⟨[], [], rfl, by simp, by simp, rfl⟩
  | cons y F ih =>
    obtain ⟨least, sorted⟩ := List.pairwise_cons.1 sorted
    by_cases first : b.NoLarger y
    · refine ⟨[], y :: F, rfl, by simp, ?_, List.orderedInsert_cons_of_le _ _ first⟩
      intro x hx
      rcases List.mem_cons.1 hx with rfl | hx
      · exact first
      · exact Nat.le_trans first (least x hx)
    · obtain ⟨us, vs, rfl, less, rest, e⟩ := ih sorted
      refine ⟨y :: us, vs, rfl, ?_, rest, ?_⟩
      · intro x hx
        rcases List.mem_cons.1 hx with rfl | hx
        · exact Nat.lt_of_not_le first
        · exact less x hx
      · rw [List.orderedInsert_of_not_le _ _ first, e, List.cons_append]

/-- The regions `rs` of the heap are tiled by runs of the catalogue, one after the other, whose blocks are
what their headers say, and the free list leads through `free`, which are the free blocks in the order of
their sizes. The regions lie apart and do not start at 0, and everything is aligned. -/
structure Heap.Tiled (h : Heap) (rs : List Region) (free : List Block) : Prop where
  catalogue : h.catalogue.Holds h.memory ((rs.flatMap Region.blocks).map Block.addr)
  headers : ∀ b ∈ rs.flatMap Region.blocks, Block.read h.memory b.addr = b
  tiles : ∀ r ∈ rs, Tiles r.span.start r.span.start r.blocks r.span.finish
  words : ∀ b ∈ rs.flatMap Region.blocks, b.size % wordSize = 0
  spans : ∀ s ∈ rs.map Region.span, 0 < s.start ∧ s.start % wordSize = 0 ∧ s.finish ≤ wordLimit
  apart : (rs.map Region.span).Pairwise fun s u => s.finish ≤ u.start ∨ u.finish ≤ s.start
  freeList : h.freeList.Holds h.memory (free.map Block.addr)
  unused : free.Perm ((rs.flatMap Region.blocks).filter Block.vacant)
  sorted : free.Pairwise Block.NoLarger

/-- A heap whose ledger is laid out is tiled. -/
theorem Heap.Keeps.tiled {h : Heap} {L : Ledger} {rs : List Region} (K : h.Keeps L) (S : L.Laid rs) :
    h.Tiled rs L.free where
  catalogue := S.blocks ▸ K.catalogue
  headers := S.blocks ▸ K.headers
  tiles r hr := (S.tiled r hr).tiles
  words b hb := (K.aligned b (S.blocks ▸ hb)).size
  spans s hs := by
    obtain ⟨aligned, positive, _, fits⟩ := S.settled.placed s (S.spans ▸ hs)
    have := s.finish_le_pageFinish
    unfold pageSize at aligned
    unfold wordSize
    omega
  apart := by
    rw [S.spans]
    apply S.settled.apart.imp
    intro s u apart
    have := s.finish_le_pageFinish
    have := u.finish_le_pageFinish
    unfold Span.Apart at apart
    omega
  freeList := K.freeList
  unused := S.blocks ▸ S.free
  sorted := S.sorted

/-! ### Deciding it -/

instance Chain.Linked.decidable (hook : Nat) (m : Memory) :
    ∀ (before : Option Nat) (xs : List Nat) (after : Option Nat),
      Decidable (Chain.Linked hook m before xs after)
  | _, [], _ => isTrue trivial
  | _, x :: xs, after =>
    have := Chain.Linked.decidable hook m (some x) xs after
    inferInstanceAs (Decidable (_ ∧ _ ∧ Chain.Linked hook m (some x) xs after))

instance {hook : Nat} (c : Chain hook) (m : Memory) (xs : List Nat) : Decidable (c.Holds m xs) :=
  decidable_of_iff (c = Chain.ofNodes xs ∧ Chain.Linked hook m none xs none)
    ⟨fun ⟨ends, links⟩ => ⟨ends, links⟩, fun holds => ⟨holds.ends, holds.links⟩⟩

instance Tiles.decidable (head : Nat) : ∀ (a : Nat) (bs : List Block) (z : Nat),
    Decidable (Tiles head a bs z)
  | a, [], z => inferInstanceAs (Decidable (a = z))
  | _, b :: bs, z =>
    have := Tiles.decidable head b.finish bs z
    inferInstanceAs (Decidable (_ ∧ _ ∧ Tiles head b.finish bs z))

instance (h : Heap) (rs : List Region) (free : List Block) : Decidable (h.Tiled rs free) :=
  decidable_of_iff
    (h.catalogue.Holds h.memory ((rs.flatMap Region.blocks).map Block.addr) ∧
      (∀ b ∈ rs.flatMap Region.blocks, Block.read h.memory b.addr = b) ∧
      (∀ r ∈ rs, Tiles r.span.start r.span.start r.blocks r.span.finish) ∧
      (∀ b ∈ rs.flatMap Region.blocks, b.size % wordSize = 0) ∧
      (∀ s ∈ rs.map Region.span, 0 < s.start ∧ s.start % wordSize = 0 ∧ s.finish ≤ wordLimit) ∧
      ((rs.map Region.span).Pairwise fun s u => s.finish ≤ u.start ∨ u.finish ≤ s.start) ∧
      h.freeList.Holds h.memory (free.map Block.addr) ∧
      free.Perm ((rs.flatMap Region.blocks).filter Block.vacant) ∧ free.Pairwise Block.NoLarger)
    ⟨fun ⟨a, b, c, d, e, f, g, i, j⟩ => ⟨a, b, c, d, e, f, g, i, j⟩,
      fun ⟨a, b, c, d, e, f, g, i, j⟩ => ⟨a, b, c, d, e, f, g, i, j⟩⟩

/-! ### The ledger of a tiled heap -/

/-- The ledger of the heap, given its blocks and its free list. -/
def Heap.ledger (h : Heap) (blocks free : List Block) : Ledger :=
  ⟨h.settings, h.space.place, h.space.transfers, blocks, free, h.regions, h.nextId⟩

/-- Blocks that fill aligned bytes with whole words are aligned. -/
theorem Tiles.addr_mod {head a z : Nat} {bs : List Block} (h : Tiles head a bs z)
    (aligned : a % wordSize = 0) (words : ∀ b ∈ bs, b.size % wordSize = 0) :
    ∀ b ∈ bs, b.addr % wordSize = 0 := by
  induction bs generalizing a with
  | nil => simp
  | cons b bs ih =>
    obtain ⟨rfl, _, rest⟩ := h
    have finish : b.finish % wordSize = 0 := by
      have := words b (by simp)
      unfold Block.finish Block.payload Header.payload Header.length
      unfold wordSize at *
      omega
    intro x hx
    rcases List.mem_cons.1 hx with rfl | hx
    · exact aligned
    · exact ih rest finish (fun y hy => words y (List.mem_cons_of_mem b hy)) x hx

namespace Heap.Tiled

variable {h h' : Heap} {L' : Ledger} {rs rs₁ rs₂ : List Region} {r : Region} {span : Span}
  {b x : Block} {us vs seg seg' free : List Block}

theorem mem_free_iff (T : h.Tiled rs free) :
    b ∈ free ↔ b ∈ rs.flatMap Region.blocks ∧ b.used = false := by
  rw [T.unused.mem_iff, List.mem_filter]
  simp [Block.vacant]

/-- No byte belongs to two blocks. -/
theorem blocks_apart (T : h.Tiled rs free) :
    (rs.flatMap Region.blocks).Pairwise fun x y => x.finish ≤ y.addr ∨ y.finish ≤ x.addr := by
  refine List.pairwise_flatMap.2 ⟨?_, ?_⟩
  · intro r hr
    exact (T.tiles r hr).in_order.imp fun le => .inl le
  · apply List.Pairwise.imp_of_mem _ (List.pairwise_map.1 T.apart)
    intro r u hr hu apart x hx y hy
    have := (T.tiles r hr).bounds hx
    have := (T.tiles u hu).bounds hy
    omega

theorem keeps (T : h.Tiled rs free) : h.Keeps (h.ledger (rs.flatMap Region.blocks) free) := by
  have region : ∀ b ∈ rs.flatMap Region.blocks, ∃ r ∈ rs, b ∈ r.blocks :=
    fun b hb => List.mem_flatMap.1 hb
  have spaced : Header.Spaced ((rs.flatMap Region.blocks).map Block.addr) := by
    constructor
    · intro a ha
      obtain ⟨b, hb, rfl⟩ := List.mem_map.1 ha
      obtain ⟨r, hr, inside⟩ := region b hb
      have bounds := (T.tiles r hr).bounds inside
      have := T.spans r.span (List.mem_map_of_mem hr)
      unfold Block.finish Block.payload Header.payload at bounds
      omega
    · rw [List.pairwise_map]
      apply T.blocks_apart.imp
      intro x y apart
      unfold Block.finish Block.payload Header.payload at apart
      omega
  refine ⟨rfl, rfl, rfl, rfl, rfl, spaced, T.headers, T.catalogue, fun b hb => (T.mem_free_iff.1 hb).1,
    T.unused.nodup_iff.2 (spaced.nodup.of_map.filter _), T.freeList, ?_⟩
  intro b hb
  obtain ⟨r, hr, inside⟩ := region b hb
  have words : ∀ x ∈ r.blocks, x.size % wordSize = 0 :=
    fun x hx => T.words x (List.mem_flatMap.2 ⟨r, hr, hx⟩)
  have aligned := (T.spans r.span (List.mem_map_of_mem hr)).2.1
  refine ⟨(T.tiles r hr).addr_mod aligned words b inside, words b inside, ?_⟩
  rw [(T.tiles r hr).region_eq inside]
  exact aligned

/-- Blocks of other regions name other heads. -/
theorem region_ne (T : h.Tiled (rs₁ ++ r :: rs₂) free) (hb : b ∈ r.blocks)
    (hx : x ∈ rs₁.flatMap Region.blocks ++ rs₂.flatMap Region.blocks) :
    x.region ≠ r.span.start := by
  rw [← List.flatMap_append] at hx
  obtain ⟨u, hu, inside⟩ := List.mem_flatMap.1 hx
  have apart := List.pairwise_map.1 T.apart
  rw [List.perm_middle.pairwise_iff Or.symm, List.pairwise_cons] at apart
  have mem : u ∈ rs₁ ++ r :: rs₂ := by
    simp only [List.mem_append, List.mem_cons] at hu ⊢
    tauto
  have apart := apart.1 u hu
  have own := (T.tiles r (by simp)).bounds hb
  have other := (T.tiles u mem).bounds inside
  have := b.addr_lt_finish
  have := x.addr_lt_finish
  rw [(T.tiles u mem).region_eq inside]
  omega

/-- Some blocks of one region are replaced by others that fill the same bytes. -/
theorem edit (T : h.Tiled (rs₁ ++ ⟨span, us ++ (seg ++ vs)⟩ :: rs₂) free) (K : h'.Keeps L')
    (blocks : L'.blocks = (rs₁.flatMap Region.blocks ++ us) ++
      (seg' ++ (vs ++ rs₂.flatMap Region.blocks)))
    (same : ∀ head a z, Tiles head a seg z → Tiles head a seg' z)
    (unused : L'.free.Perm (L'.blocks.filter Block.vacant))
    (sorted : L'.free.Pairwise Block.NoLarger) :
    h'.Tiled (rs₁ ++ ⟨span, us ++ (seg' ++ vs)⟩ :: rs₂) L'.free := by
  have listed : (rs₁ ++ ⟨span, us ++ (seg' ++ vs)⟩ :: rs₂).flatMap Region.blocks = L'.blocks := by
    rw [blocks]
    simp
  have spans : (rs₁ ++ ⟨span, us ++ (seg' ++ vs)⟩ :: rs₂).map Region.span =
      (rs₁ ++ ⟨span, us ++ (seg ++ vs)⟩ :: rs₂).map Region.span := by simp
  refine ⟨listed ▸ K.catalogue, listed ▸ K.headers, ?_,
    fun b hb => (K.aligned b (listed ▸ hb)).size, spans ▸ T.spans, spans ▸ T.apart, K.freeList,
    listed ▸ unused, sorted⟩
  have tiles := T.tiles
  intro r hr
  simp only [List.mem_append, List.mem_cons] at hr tiles
  rcases hr with hr | rfl | hr
  · exact tiles r (.inl hr)
  · obtain ⟨a, before, rest⟩ := tiles_append.1 (tiles _ (.inr (.inl rfl)))
    obtain ⟨z, middle, after⟩ := tiles_append.1 rest
    exact tiles_append.2 ⟨a, before, tiles_append.2 ⟨z, same _ _ _ middle, after⟩⟩
  · exact tiles r (.inr (.inr hr))

end Heap.Tiled

end RegionHeap
