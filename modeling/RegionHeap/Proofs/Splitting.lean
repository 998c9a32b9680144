import RegionHeap.Proofs.Sequence
import RegionHeap.Proofs.Sound.Tiled

/-!
# Cutting a block and mending it

In a tiled heap any number of free blocks may be neighbours. To cut a used block makes a free block of what is
left over, if that can be one, and to merge the two again undoes that to the byte.

* `Memory.byte_eq_of_word`, `Chain.Holds.byte_eq` — words and links determine their bytes.
* `Heap.Cut`, `Heap.Mended` — what a heap is after a cut, and after the merge that undoes it.
* `Ledger.absorb_cut`, `Heap.absorb_rest` — the ledger is as it was but for the number of the next block, and
  the bytes but for the header of the rest.
* `Tiled.regionLength_eq` — how many bytes a region has.
* `Tiled.split_undone` — a cut is made when there is room for it, and undone.
-/

set_option autoImplicit false

namespace RegionHeap

/-! ### Words and links determine their bytes -/

section Bytes

variable {m m' : Memory} {a i : Nat}

theorem Memory.byte_eq_of_word (same : m'.word a = m.word a) (lo : a ≤ i) (up : i < a + wordSize) :
    m'.byte i = m.byte i := by
  obtain ⟨k, rfl⟩ : ∃ k, i = a + k := ⟨i - a, by omega⟩
  have digit : k < wordSize := by omega
  apply UInt8.toNat.inj
  rw [Memory.byte_eq_load digit, Memory.byte_eq_load digit]
  exact congrArg (fun n => n >>> (8 * k) % 256) same

theorem Memory.word_eq_of_link (same : m'.link a = m.link a) : m'.word a = m.word a := by
  unfold Memory.link at same
  split at same <;> split at same <;> simp_all

/-- Where two chains stand for the same nodes, the links of these nodes are spelled alike. -/
theorem Chain.Holds.byte_eq {hook x : Nat} {c c' : Chain hook} {xs : List Nat} (holds : c.Holds m xs)
    (holds' : c'.Holds m' xs) (hx : x ∈ xs) (lo : x + hook ≤ i) (up : i < x + hook + 2 * wordSize) :
    m'.byte i = m.byte i := by
  obtain ⟨us, vs, rfl⟩ := List.append_of_mem hx
  obtain ⟨prev, next⟩ := holds.links.neighbours
  obtain ⟨prev', next'⟩ := holds'.links.neighbours
  by_cases first : i < x + hook + wordSize
  · exact Memory.byte_eq_of_word (Memory.word_eq_of_link (prev'.trans prev.symm)) lo first
  · exact Memory.byte_eq_of_word (Memory.word_eq_of_link (next'.trans next.symm)) (by omega) (by omega)

end Bytes

/-- Two heaps that keep one ledger agree on the bytes that a cut and a merge write between them, but for the
header of the rest. -/
theorem Heap.Keeps.byte_eq {h h' : Heap} {L : Ledger} {n i : Nat} {b next : Block} (K : h.Keeps L)
    (K' : h'.Keeps (L.withNextId n)) (hb : b ∈ L.blocks) (written : L.Rewired b next i)
    (off : ¬ Header.Covers next.addr i) : h'.memory.byte i = h.memory.byte i := by
  rcases written with covers | ⟨lo, up⟩ | ⟨x, hx, lo, up⟩ | ⟨x, hx, lo, up⟩
  · exact absurd covers off
  · exact Memory.byte_eq_of_word ((K'.size_eq hb).trans (K.size_eq hb).symm) lo up
  · exact K.catalogue.byte_eq K'.catalogue (List.mem_map_of_mem hx) lo up
  · exact K.freeList.byte_eq K'.freeList (List.mem_map_of_mem hx) lo up

/-- A heap is its ledger, its memory and its log. -/
theorem Heap.Keeps.heap_eq {h h' : Heap} {L : Ledger} {n : Nat} (K : h.Keeps L)
    (K' : h'.Keeps (L.withNextId n)) :
    h' = { h.withMemory h'.memory with nextId := n, log := h'.log } := by
  obtain ⟨settings, ⟨memory, transfers, place⟩, catalogue, freeList, regions, nextId, log⟩ := h
  obtain ⟨settings', ⟨memory', transfers', place'⟩, catalogue', freeList', regions', nextId', log'⟩ := h'
  obtain rfl : settings' = settings := K'.settings.trans K.settings.symm
  obtain rfl : place' = place := K'.place.trans K.place.symm
  obtain rfl : transfers' = transfers := K'.transfers.trans K.transfers.symm
  obtain rfl : catalogue' = catalogue := K'.catalogue.ends.trans K.catalogue.ends.symm
  obtain rfl : freeList' = freeList := K'.freeList.ends.trans K.freeList.ends.symm
  obtain rfl : regions' = regions := K'.regions.trans K.regions.symm
  obtain rfl : nextId' = n := K'.nextId
  rfl

/-! ### The ledger of a cut -/

section Rest

variable {L : Ledger} {b : Block} {xs ys : List Block} {size : Nat}

/-- A used block that was cut and has taken in its rest is what it was, and so is the free list. -/
theorem Ledger.absorb_cut (blocks : L.blocks = xs ++ b :: ys) (new : b.rest size L.nextId ∉ L.free)
    (nodup : (L.cut xs b ys size).free.Nodup) (busy : b.withSize size ∉ (L.cut xs b ys size).free)
    (parts : Header.length + L.settings.minBlock ≤ b.size - size) :
    (L.cut xs b ys size).absorb xs (b.withSize size) [b.rest size L.nextId] ys =
      L.withNextId (L.nextId + 1) := by
  have header : 0 < Header.length := by decide
  have free : (L.free.orderedInsert Block.NoLarger (b.rest size L.nextId)).erase (b.rest size L.nextId) =
      L.free := List.erase_orderedInsert_of_notMem new
  have sum : size + (Header.length + (b.size - size - Header.length)) = b.size := by omega
  have whole : (b.withSize size).joined [b.rest size L.nextId] = b := by
    rw [Block.joined_singleton]
    show (b.withSize size).withSize (size + (Header.length + (b.size - size - Header.length))) = b
    rw [sum]
    rfl
  rw [Ledger.absorb_singleton nodup busy, whole, ← blocks, Ledger.cut_of_le parts]
  show (⟨L.settings, L.place, L.transfers, L.blocks, (L.free.orderedInsert Block.NoLarger
    (b.rest size L.nextId)).erase (b.rest size L.nextId), L.regions, L.nextId + 1⟩ : Ledger) = _
  rw [free]
  rfl

/-- Once a block was cut, no other bytes are written to merge it with its rest. -/
theorem Ledger.Rewired.of_cut {i : Nat} (blocks : L.blocks = xs ++ b :: ys)
    (parts : Header.length + L.settings.minBlock ≤ b.size - size)
    (written : (L.cut xs b ys size).Rewired (b.withSize size) (b.rest size L.nextId) i) :
    L.Rewired b (b.rest size L.nextId) i := by
  rw [Ledger.cut_of_le parts] at written
  rcases written with covers | size | linked | linked
  · exact .inl covers
  · exact .inr (.inl size)
  · exact Ledger.rewired_of_catalogue blocks linked
  · exact Ledger.rewired_of_freeList linked

/-- When a block that was cut takes in its rest, the ledger is what it was but for the number, and so is each
byte that was written but for the header of the rest. -/
theorem Heap.absorb_rest {h h' : Heap} (K : h.Keeps L) (own : L.Owns b)
    (blocks : L.blocks = xs ++ b :: ys) (busy : b.withSize size ∉ (L.cut xs b ys size).free)
    (parts : Header.length + L.settings.minBlock ≤ b.size - size)
    (M : h.Moved (L.Rewired b (b.rest size L.nextId)) (L.cut xs b ys size) h') :
    ∃ h₂, absorb b.addr (b.rest size L.nextId).addr h' = .ok () h₂ ∧
      h₂.Keeps (L.withNextId (L.nextId + 1)) ∧
      h.memory.SameBut (Header.Covers (b.rest size L.nextId).addr) h₂.memory ∧
      Header.intact h₂.memory (b.rest size L.nextId).addr = false ∧
      h₂.log = .fresh b :: .mergingRight (b.rest size L.nextId) :: .mergingLeft (b.withSize size) :: h'.log := by
  have header : 0 < Header.length := by decide
  have hb : b ∈ L.blocks := by simp [blocks]
  have cut_blocks : (L.cut xs b ys size).blocks = xs ++ b.withSize size :: b.rest size L.nextId :: ys := by
    rw [Ledger.cut_of_le parts]
    rfl
  have listed : b.rest size L.nextId ∈ (L.cut xs b ys size).free := by
    rw [Ledger.cut_of_le parts]
    exact (List.mem_orderedInsert _).2 (.inl rfl)
  have new : b.rest size L.nextId ∉ L.free :=
    fun hx => Heap.rest_notMem own (Heap.rest_inside (by omega) (by omega)) (K.listed _ hx)
  have sum : size + (Header.length + (b.rest size L.nextId).size) = b.size := by
    unfold Block.rest
    dsimp only
    omega
  have fits : (b.withSize size).size + (Header.length + (b.rest size L.nextId).size) < wordLimit := by
    rw [Block.withSize_size, sum]
    exact K.size_lt hb
  have merged := @absorb_within (fun _ => False) h' _ (b.withSize size) (b.rest size L.nextId) xs ys M.keeps
    cut_blocks ⟨rfl, rfl⟩ listed fits
  obtain ⟨_, h₂, run, M₂, log₂, dead⟩ := merged.exists_ok
  have K₂ := M₂.keeps
  rw [Ledger.absorb_cut blocks new M.keeps.nodupFree busy parts] at K₂
  refine ⟨h₂, run, K₂, ?_, dead, ?_⟩
  · intro i off
    by_cases written : L.Rewired b (b.rest size L.nextId) i
    · exact K.byte_eq K₂ hb written off
    · exact (M₂.same i fun again => written (again.of_cut blocks parts)).trans (M.same i written)
  · rw [log₂]
    unfold Block.absorbing
    rw [Block.joined_singleton, Block.withSize_size, sum]
    rfl

end Rest

/-! ### Tiled heaps -/

/-- The block `b` of a heap with the regions `rs` and the free list `free` has been cut to `size` bytes, and
`r` is the rest: a free block right after `b` in the catalogue, which is in the free list in front of all that
are as large. Only the header of the rest was written, the size of `b`, and links of the two lists. -/
structure Heap.Cut (h : Heap) (rs : List Region) (free : List Block) (b : Block) (size : Nat) (r : Block)
    (h' : Heap) : Prop where
  start : r.addr = b.payload + size
  finish : r.finish = b.finish
  bytes : size + Header.length + r.size = b.size
  intact : r.intact = true
  unused : r.used = false
  region : r.region = b.region
  fromBreak : r.fromBreak = b.fromBreak
  number : r.id = h.nextId
  tiled : ∃ rs₁ span us vs rs₂ fs gs, rs = rs₁ ++ ⟨span, us ++ b :: vs⟩ :: rs₂ ∧ free = fs ++ gs ∧
    (∀ x ∈ fs, x.size < r.size) ∧ (∀ x ∈ gs, r.size ≤ x.size) ∧
    h'.Tiled (rs₁ ++ ⟨span, us ++ { b with size } :: r :: vs⟩ :: rs₂) (fs ++ r :: gs)
  regionLength : ∃ n, h.regionLength b.region = .ok n ∧ h'.regionLength b.region = .ok n
  same : h.memory.SameBut (fun i => Header.Covers r.addr i ∨ Header.SizeWord b.addr i ∨
    Block.Links Header.catalogueHook (rs.flatMap Region.blocks) i ∨
    Block.Links Header.freeHook free i) h'.memory
  settings : h'.settings = h.settings
  place : h'.space.place = h.space.place
  transfers : h'.space.transfers = h.space.transfers
  regions : h'.regions = h.regions
  nextId : h'.nextId = h.nextId + 1
  log : h'.log = .fresh r :: .front { b with size } :: .cutting b :: h.log

/-- The heap `h` has been mended: its blocks, its free list and both chains are what they were, and so is
every byte but for the dead header of the rest `r`. A number was taken. -/
structure Heap.Mended (h : Heap) (rs : List Region) (free : List Block) (b : Block) (size : Nat) (r : Block)
    (h' : Heap) : Prop where
  tiled : h'.Tiled rs free
  alike : h' = { h.withMemory h'.memory with nextId := h.nextId + 1, log := h'.log }
  same : h.memory.SameBut (Header.Covers r.addr) h'.memory
  dead : Header.intact h'.memory r.addr = false
  log : h'.log = .fresh b :: .mergingRight r :: .mergingLeft { b with size } :: .fresh r ::
    .front { b with size } :: .cutting b :: h.log

namespace Heap.Tiled

variable {h h' : Heap} {L' : Ledger} {rs rs₁ rs₂ : List Region} {span : Span} {free us vs : List Block}
  {b : Block} {size : Nat}

/-- The payload of a block lies in the address range, and no header lies in it. -/
theorem owns (T : h.Tiled rs free) (hb : b ∈ rs.flatMap Region.blocks) :
    (h.ledger (rs.flatMap Region.blocks) free).Owns b := by
  obtain ⟨r, hr, inside⟩ := List.mem_flatMap.1 hb
  have := ((T.tiles r hr).bounds inside).2
  have := (T.spans r.span (List.mem_map_of_mem hr)).2.2
  exact .of_apart hb (by omega) T.blocks_apart

/-- The bytes that were mapped for a region are found by going through its blocks. -/
theorem regionLength_eq (T : h.Tiled (rs₁ ++ ⟨span, us ++ b :: vs⟩ :: rs₂) free) :
    h.regionLength b.region = .ok span.length := by
  have tiles := T.tiles ⟨span, us ++ b :: vs⟩ (by simp)
  have start := (T.spans span (by simp)).1
  have finish := (T.spans span (by simp)).2.2
  obtain ⟨first, others, run⟩ : ∃ f fs, us ++ b :: vs = f :: fs := List.exists_cons_of_ne_nil (by simp)
  rw [tiles.region_eq (b := b) (by simp)]
  rw [run] at T tiles
  have head := tiles.region_eq (b := first) List.mem_cons_self
  have extents : ((first :: others).map Block.extent).sum = span.length := by
    have sum := tiles.finish_eq
    unfold Span.finish at sum
    exact (Nat.add_left_cancel sum).symm
  have blocks : (h.ledger ((rs₁ ++ ⟨span, first :: others⟩ :: rs₂).flatMap Region.blocks) free).blocks =
      rs₁.flatMap Region.blocks ++ first :: (others ++ rs₂.flatMap Region.blocks) := by
    simp [Heap.ledger]
  have length := Heap.regionLength_eq T.keeps blocks
    (fun x hx => (tiles.region_eq (List.mem_cons_of_mem _ hx)).trans head.symm) ?_ ?_
  · rwa [tiles.1, extents] at length
  · intro y hy
    rw [head]
    exact T.region_ne (b := first) List.mem_cons_self
      (List.mem_append_right _ (List.mem_of_mem_head? hy))
  · rw [extents]
    unfold Span.finish at finish
    omega

/-- A heap with the same blocks and the same free list is tiled as well. -/
theorem of_keeps (T : h.Tiled rs free) (K : h'.Keeps L') (blocks : L'.blocks = rs.flatMap Region.blocks)
    (same : L'.free = free) : h'.Tiled rs free :=
  ⟨blocks ▸ K.catalogue, blocks ▸ K.headers, T.tiles, T.words, T.spans, T.apart, same ▸ K.freeList, T.unused,
    T.sorted⟩

section Cut

variable {L : Ledger} {xs ys : List Block} (T : h.Tiled (rs₁ ++ ⟨span, us ++ b :: vs⟩ :: rs₂) free)
  (ledger : L = h.ledger ((rs₁ ++ ⟨span, us ++ b :: vs⟩ :: rs₂).flatMap Region.blocks) free)
  (before : xs = rs₁.flatMap Region.blocks ++ us) (after : ys = vs ++ rs₂.flatMap Region.blocks)
  (used : b.used = true) (parts : Header.length + h.settings.minBlock ≤ b.size - size)

include T ledger before after used parts

/-- The regions and the free list after the cut. -/
theorem tiled_cut (K : h'.Keeps (L.cut xs b ys size)) :
    h'.Tiled (rs₁ ++ ⟨span, us ++ b.withSize size :: b.rest size h.nextId :: vs⟩ :: rs₂)
      (L.cut xs b ys size).free := by
  subst ledger before after
  rw [Ledger.cut_of_le parts] at K ⊢
  have header : 0 < Header.length := by decide
  have front : (b.withSize size).vacant = false := by simp [Block.vacant, used]
  have rest : (b.rest size h.nextId).vacant = true := rfl
  have old : b.vacant = false := by simp [Block.vacant, used]
  replace T : h.Tiled (rs₁ ++ ⟨span, us ++ ([b] ++ vs)⟩ :: rs₂) free := T
  have tiles : ∀ head a z, Tiles head a [b] z →
      Tiles head a [b.withSize size, b.rest size h.nextId] z := by
    intro head a z tiles
    rw [← Block.parts_of_le parts]
    exact tiles.parts (Nat.le_add_right _ _) (by omega)
  refine T.edit K ?_ tiles ?_ (List.Pairwise.orderedInsert _ _ T.sorted)
  · rfl
  · have others : free.Perm (((rs₁.flatMap Region.blocks ++ us) ++
        (vs ++ rs₂.flatMap Region.blocks)).filter Block.vacant) := by
      have perm := T.unused
      simp only [List.flatMap_append, List.flatMap_cons, List.filter_append, List.filter_cons, old] at perm
      simpa using perm
    refine (List.perm_orderedInsert _ _ _).trans ((others.cons _).trans ?_)
    have new := Ledger.Laid.perm_filter_middle Block.vacant (rs₁.flatMap Region.blocks ++ us)
      [b.withSize size, b.rest size h.nextId] (vs ++ rs₂.flatMap Region.blocks)
    simp only [List.filter_cons, front, rest, List.filter_nil] at new
    exact new.symm

/-- What a cut does to a tiled heap. -/
theorem cut_of_moved (M : h.Moved (L.Rewired b (b.rest size h.nextId)) (L.cut xs b ys size) h')
    (log : h'.log = .fresh (b.rest size h.nextId) :: .front (b.withSize size) :: .cutting b :: h.log) :
    h.Cut (rs₁ ++ ⟨span, us ++ b :: vs⟩ :: rs₂) free b size (b.rest size h.nextId) h' := by
  have T₁ := T.tiled_cut ledger before after used parts M.keeps
  have header : 0 < Header.length := by decide
  obtain ⟨fs, gs, others, less, rest, inserted⟩ := exists_orderedInsert (b.rest size h.nextId) T.sorted
  subst ledger before after
  rw [Ledger.cut_of_le parts] at T₁ M
  have K := M.keeps
  have bytes : size + Header.length + (b.rest size h.nextId).size = b.size := by
    unfold Block.rest
    dsimp only
    omega
  have finish : (b.rest size h.nextId).finish = b.finish := by
    unfold Block.finish
    rw [← bytes]
    show b.payload + size + Header.length + _ = _
    omega
  have tiled : h'.Tiled (rs₁ ++ ⟨span, us ++ { b with size } :: b.rest size h.nextId :: vs⟩ :: rs₂)
      (fs ++ b.rest size h.nextId :: gs) := by
    rw [← inserted]
    exact T₁
  exact {
    start := rfl
    finish
    bytes
    intact := rfl
    unused := rfl
    region := rfl
    fromBreak := rfl
    number := rfl
    tiled := ⟨rs₁, span, us, vs, rs₂, fs, gs, rfl, others, less, rest, tiled⟩
    regionLength := ⟨span.length, T.regionLength_eq, tiled.regionLength_eq (b := b.withSize size)⟩
    same := M.same
    settings := K.settings
    place := K.place
    transfers := K.transfers
    regions := K.regions
    nextId := K.nextId
    log }

/-- What the merge that follows does. -/
theorem mended_of_moved (M : h.Moved (L.Rewired b (b.rest size h.nextId)) (L.cut xs b ys size) h')
    (log : h'.log = .fresh (b.rest size h.nextId) :: .front (b.withSize size) :: .cutting b :: h.log) :
    ∃ h₂, absorb b.addr (b.rest size h.nextId).addr h' = .ok () h₂ ∧
      h.Mended (rs₁ ++ ⟨span, us ++ b :: vs⟩ :: rs₂) free b size (b.rest size h.nextId) h₂ := by
  have T₁ := T.tiled_cut ledger before after used parts M.keeps
  have own := T.owns (b := b) (by simp)
  have K := T.keeps
  rw [← ledger] at own K
  have number : h.nextId = L.nextId := K.nextId
  have least : h.settings = L.settings := K.settings
  have blocks : L.blocks = xs ++ b :: ys := by
    rw [ledger, before, after]
    simp [Heap.ledger]
  have busy : b.withSize size ∉ (L.cut xs b ys size).free := by
    intro hx
    have unused := (T₁.mem_free_iff.1 hx).2
    rw [Block.withSize_used, used] at unused
    cases unused
  rw [number] at M log ⊢
  rw [least] at parts
  obtain ⟨h₂, run, K₂, same, dead, log₂⟩ := Heap.absorb_rest K own blocks busy parts M
  refine ⟨h₂, run, T.of_keeps K₂ (by rw [ledger]; rfl) (by rw [ledger]; rfl), ?_, same, dead, ?_⟩
  · rw [number]
    exact K.heap_eq K₂
  · rw [log₂, log]
    rfl

end Cut

/-- **A merge undoes a cut.** In a tiled heap, a used block may be cut to so many whole words. When what would
be left over cannot hold a header and the smallest block, nothing is done. Otherwise the rest becomes a free
block right after the front, which is on the free list where its size belongs, and the region is as long as
before. When the two are merged then, the heap is what it was to the byte, but for the header of the rest, which
is dead, and for the number that was taken. -/
theorem split_undone (T : h.Tiled rs free) (hb : b ∈ rs.flatMap Region.blocks) (used : b.used = true)
    (words : size % wordSize = 0) (fits : size ≤ b.size)
    (small : Header.length + h.settings.minBlock < wordLimit) (ids : h.nextId + 1 < wordLimit) :
    (split b.addr size h = .ok none h ↔ b.size - size < Header.length + h.settings.minBlock) ∧
    (Header.length + h.settings.minBlock ≤ b.size - size → ∃ r h₁ h₂,
      split b.addr size h = .ok (some r.addr) h₁ ∧ h.Cut rs free b size r h₁ ∧
      absorb b.addr r.addr h₁ = .ok () h₂ ∧ h.Mended rs free b size r h₂) := by
  obtain ⟨rs₁, span, us, vs, rs₂, rfl⟩ := exists_region_of_mem hb
  have K := T.keeps
  have cut : Header.length + h.settings.minBlock ≤ b.size - size → ∃ r h₁ h₂,
      split b.addr size h = .ok (some r.addr) h₁ ∧
        h.Cut (rs₁ ++ ⟨span, us ++ b :: vs⟩ :: rs₂) free b size r h₁ ∧
        absorb b.addr r.addr h₁ = .ok () h₂ ∧
        h.Mended (rs₁ ++ ⟨span, us ++ b :: vs⟩ :: rs₂) free b size r h₂ := by
    intro parts
    have busy : b ∉ free := by
      intro hx
      have unused := (T.mem_free_iff.1 hx).2
      rw [used] at unused
      cases unused
    have blocks : (h.ledger ((rs₁ ++ ⟨span, us ++ b :: vs⟩ :: rs₂).flatMap Region.blocks) free).blocks =
        (rs₁.flatMap Region.blocks ++ us) ++ b :: (vs ++ rs₂.flatMap Region.blocks) := by
      simp [Heap.ledger]
    have done := @split_within (fun _ => False) h _ b _ _ size K blocks busy (T.owns hb) words small parts
      (.inl ids)
    obtain ⟨_, h₁, run, rfl, M, _, log⟩ := done.exists_ok
    obtain ⟨h₂, run₂, mended⟩ := T.mended_of_moved rfl rfl rfl used parts M log
    exact ⟨_, h₁, h₂, run, T.cut_of_moved rfl rfl rfl used parts M log, run₂, mended⟩
  refine ⟨⟨?_, ?_⟩, cut⟩
  · intro none
    by_contra long
    obtain ⟨r, h₁, _, run, _⟩ := cut (Nat.le_of_not_lt long)
    rw [none] at run
    cases run
  · intro short
    obtain ⟨_, _, run, rfl, rfl⟩ := (@split_short_yields (fun _ => False) h _ b size K hb fits small
      short).exists_ok
    exact run

/-- With no least size, a rest without payload can be a block. Behind the block there is a free one. -/
theorem split_undone_empty_rest : ∃ h : Heap, ∃ rs free b, h.Tiled rs free ∧
    b ∈ rs.flatMap Region.blocks ∧ b.used = true ∧ b.size = 96 ∧ (∃ x ∈ free, x.addr = b.finish) ∧
    split b.addr 32 h = .ok none h ∧ ∃ r h₁ h₂, r.size = 0 ∧
      split b.addr 24 h = .ok (some r.addr) h₁ ∧ h.Cut rs free b 24 r h₁ ∧
      absorb b.addr r.addr h₁ = .ok () h₂ ∧ h.Mended rs free b 24 r h₂ := by
  let regions : Heap → List Region := fun h =>
    [⟨⟨140737219915776, 584⟩, h.snapshot.catalogue.items⟩]
  have built : (answer? (do
      discard (malloc 512)
      free (some 140737219915848)
      discard (malloc 96)
      get) (.ofSettings { minBlock := 0 })).any (fun h =>
        decide (h.Tiled (regions h) h.snapshot.freeList.items) &&
        decide (h.settings.minBlock = 0 ∧ h.nextId + 1 < wordLimit) &&
        ((regions h).flatMap Region.blocks).any fun b => b.used && decide (b.size = 96) &&
          h.snapshot.freeList.items.any fun x => x.addr == b.finish) = true := by
    decide +kernel
  obtain ⟨h, _, checked⟩ := (Option.any_eq_true _ _).1 built
  simp only [Bool.and_eq_true, decide_eq_true_eq, List.any_eq_true, beq_iff_eq] at checked
  obtain ⟨⟨T, least, ids⟩, b, hb, ⟨used, size⟩, behind⟩ := checked
  have small : Header.length + h.settings.minBlock < wordLimit := by
    rw [least]
    decide
  have whole := @split_undone h _ _ b 32 T hb used rfl (by omega) small ids
  have cut := @split_undone h _ _ b 24 T hb used rfl (by omega) small ids
  rw [size, least] at whole cut
  obtain ⟨r, h₁, h₂, run, done, run₂, mended⟩ := cut.2 (by decide)
  have empty := done.bytes
  rw [size] at empty
  refine ⟨h, _, _, b, T, hb, used, size, behind, whole.1.2 (by decide), r, h₁, h₂, ?_, run, done, run₂, mended⟩
  unfold Header.length at empty
  omega

end Heap.Tiled

end RegionHeap
