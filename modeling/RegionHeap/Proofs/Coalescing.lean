import RegionHeap.Proofs.Sound.Exchange
import RegionHeap.Proofs.Sound.Tiled

/-!
# Coalescing

In a tiled heap any number of free blocks may be neighbours. To coalesce at one of them makes one block of
the run of free blocks around it, as far as the run goes in its region, and nothing else.

* `Stretch` — some blocks that follow each other in the catalogue, and those around them.
* `Stretch.Maximal` — a run of free blocks of one region that cannot be made longer.
* `Heap.Coalesced` — what a heap is after a stretch has become one block.
* `Tiled.exists_stretch` — there is such a run around every free block.
* `Tiled.coalesce_eq` — wherever in the run a merge starts, it is the same one.
* `Tiled.coalesce_stretch` — the run becomes one block.
-/

set_option autoImplicit false

namespace RegionHeap

/-- Some blocks that follow each other in a catalogue, at least one, and those around them. -/
structure Stretch where
  before : List Block
  first : Block
  others : List Block
  after : List Block

namespace Stretch

variable (s : Stretch)

def members : List Block :=
  s.first :: s.others

def catalogue : List Block :=
  s.before ++ (s.members ++ s.after)

/-- The first one, with the bytes of all of them and of the headers between them. -/
def whole : Block :=
  { s.first with size := (s.members.map Block.size).sum + Header.length * s.others.length }

/-- The catalogue in which they are one block. -/
def merged : List Block :=
  s.before ++ s.whole :: s.after

/-- A run of free blocks of one region that cannot be made longer. -/
structure Maximal (s : Stretch) : Prop where
  run : ∀ x ∈ s.members, x.Mergeable s.first.region
  start : ∀ x ∈ s.before.getLast?, ¬ x.Mergeable s.first.region
  stop : ∀ x ∈ s.after.head?, ¬ x.Mergeable s.first.region

theorem whole_eq : s.whole = s.first.joined s.others := by
  have extents : ∀ bs : List Block, (bs.map Block.extent).sum =
      (bs.map Block.size).sum + Header.length * bs.length := by
    intro bs
    induction bs with
    | nil => rfl
    | cons b bs ih =>
      simp only [List.map_cons, List.sum_cons, List.length_cons, ih]
      unfold Block.extent Header.length
      omega
  unfold whole Block.joined Block.withSize members
  rw [extents, List.map_cons, List.sum_cons, Nat.add_assoc]

theorem merge_blocks (L : Ledger) :
    (L.merge s.before s.first s.others s.after).blocks = s.merged := by
  unfold merged
  rw [whole_eq]
  rfl

theorem merge_free (L : Ledger) : (L.merge s.before s.first s.others s.after).free =
    (L.free.filter (· ∉ s.members)).orderedInsert Block.NoLarger s.whole := by
  rw [whole_eq]
  rfl

end Stretch

/-- In the heap `h` with the regions `rs` and the free list `free`, the members of a stretch have become one
block. It stands where they stood, and in the free list in front of all that are as large. The headers of
the others are dead, and no bytes were written but those of headers. -/
structure Heap.Coalesced (h : Heap) (rs : List Region) (free : List Block) (s : Stretch) (h' : Heap) :
    Prop where
  tiled : ∃ rs' us vs, rs'.map Region.span = rs.map Region.span ∧
    rs'.flatMap Region.blocks = s.merged ∧ free.filter (· ∉ s.members) = us ++ vs ∧
    (∀ x ∈ us, x.size < s.whole.size) ∧ (∀ x ∈ vs, s.whole.size ≤ x.size) ∧
    h'.Tiled rs' (us ++ s.whole :: vs)
  dead : ∀ x ∈ s.others, Header.intact h'.memory x.addr = false
  bytes : ∀ i, (∀ x ∈ s.catalogue, ¬ Header.Covers x.addr i) → h'.memory.byte i = h.memory.byte i
  settings : h'.settings = h.settings
  place : h'.space.place = h.space.place
  transfers : h'.space.transfers = h.space.transfers
  regions : h'.regions = h.regions
  nextId : h'.nextId = h.nextId
  log : h'.log = s.first.absorbingAll s.others ++ h.log
  /-- The loops have ended because nothing was left to be merged. -/
  settled : ∀ n, Catalogue.leftmostFree h'.memory n s.first.addr = s.first.addr ∧
    Heap.absorbFree s.first.addr n h' = .ok () h'

namespace Heap.Tiled

variable {h h' : Heap} {rs rs₁ rs₂ : List Region} {span : Span} {free ws zs : List Block} {b x : Block}
  {s : Stretch}

/-- Around every free block there is a run of free blocks that cannot be made longer, and it lies in one
region. -/
theorem exists_stretch (T : h.Tiled rs free) (hb : b ∈ rs.flatMap Region.blocks)
    (unused : b.used = false) : ∃ rs₁ span ws zs rs₂, ∃ s : Stretch, s.Maximal ∧ b ∈ s.members ∧
      rs = rs₁ ++ ⟨span, ws ++ (s.members ++ zs)⟩ :: rs₂ ∧ rs.flatMap Region.blocks = s.catalogue ∧
      s.before = rs₁.flatMap Region.blocks ++ ws ∧ s.after = zs ++ rs₂.flatMap Region.blocks := by
  obtain ⟨rs₁, span, us, vs, rs₂, rfl⟩ := exists_region_of_mem hb
  obtain ⟨ws, ls, rfl, ls_free, ws_used⟩ := exists_run_before us
  obtain ⟨ms, zs, rfl, ms_free, zs_used⟩ := exists_run_after vs
  obtain ⟨l, ns, run⟩ : ∃ l ns, ls ++ b :: ms = l :: ns := List.exists_cons_of_ne_nil (by simp)
  let s : Stretch := ⟨rs₁.flatMap Region.blocks ++ ws, l, ns, zs ++ rs₂.flatMap Region.blocks⟩
  have members : s.members = ls ++ b :: ms := run.symm
  have parts : (ws ++ ls) ++ b :: (ms ++ zs) = ws ++ (s.members ++ zs) := by
    rw [members]
    simp
  rw [parts] at T
  have region : ∀ x ∈ s.members, x.region = span.start :=
    fun x hx => (T.tiles ⟨span, ws ++ (s.members ++ zs)⟩ (by simp)).region_eq (by simp [hx])
  have first : l ∈ s.members := List.mem_cons_self
  have elsewhere : ∀ x ∈ rs₁.flatMap Region.blocks ++ rs₂.flatMap Region.blocks, x.region ≠ l.region := by
    intro x hx
    rw [region l first]
    exact T.region_ne (b := l) (by simp [first]) hx
  refine ⟨rs₁, span, ws, zs, rs₂, s, ⟨?_, ?_, ?_⟩, by simp [members], by rw [parts], ?_, rfl, rfl⟩
  · intro x hx
    refine ⟨(region x hx).trans (region l first).symm, ?_⟩
    rw [members, List.mem_append, List.mem_cons] at hx
    rcases hx with hx | rfl | hx
    · exact ls_free x hx
    · exact unused
    · exact ms_free x hx
  · exact not_mergeable_getLast? (fun x hx => elsewhere x (List.mem_append_left _ hx)) ws_used
  · exact not_mergeable_head? (fun x hx => elsewhere x (List.mem_append_right _ hx)) zs_used
  · rw [parts]
    simp [Stretch.catalogue, s]

/-- Wherever in the run a merge starts, it is the same one. -/
theorem coalesce_eq (T : h.Tiled rs free) (all : rs.flatMap Region.blocks = s.catalogue)
    (maximal : s.Maximal) (hx : x ∈ s.members) : coalesce x.addr h = coalesce s.first.addr h := by
  have leftmost := fun y hy =>
    leftmostFree_of_mem (b := y) T.keeps all hy maximal.run maximal.start
  have from_left : ∀ a, coalesce a h = (fun left => (do
      absorbFree left h.catalogue.length
      unlinkFree left
      linkFree left
      return left : HeapM Nat) h) (Catalogue.leftmostFree h.memory h.catalogue.length a) := fun _ => rfl
  rw [from_left, from_left, leftmost x hx, leftmost s.first List.mem_cons_self]

/-- The members of a run stand on the free list. -/
theorem mem_free_of_members (T : h.Tiled rs free) (all : rs.flatMap Region.blocks = s.catalogue)
    (maximal : s.Maximal) : ∀ x ∈ s.members, x ∈ free := by
  intro x hx
  refine T.mem_free_iff.2 ⟨?_, (maximal.run x hx).2⟩
  rw [all]
  exact List.mem_append_right _ (List.mem_append_left _ hx)

/-- The free blocks are one block instead of the members, and those around them. -/
theorem perm_merged (T : h.Tiled rs free) (all : rs.flatMap Region.blocks = s.catalogue)
    (maximal : s.Maximal) :
    (s.whole :: free.filter (· ∉ s.members)).Perm (s.merged.filter Block.vacant) := by
  have perm := T.unused
  have nodup : (rs.flatMap Region.blocks).Nodup := T.keeps.nodup
  rw [all] at perm nodup
  have apart := (List.nodup_append.1 ((List.perm_append_comm_assoc _ _ _).nodup_iff.1 nodup)).2.2
  have kept : (free.filter (· ∉ s.members)).Perm ((s.before ++ s.after).filter Block.vacant) := by
    refine Ledger.Laid.filter_removed (perm.trans (Ledger.Laid.perm_filter_middle _ _ _ _)) ?_ ?_
    · intro x hx
      exact (List.mem_filter.1 hx).1
    · intro x hx inside
      exact apart x inside x (List.mem_filter.1 hx).1 rfl
  have whole : s.whole.vacant = true := by
    have unused : s.whole.used = false := (maximal.run s.first List.mem_cons_self).2
    simp [Block.vacant, unused]
  have new := Ledger.Laid.perm_filter_middle Block.vacant s.before [s.whole] s.after
  rw [List.filter_cons_of_pos whole, List.filter_nil] at new
  exact (kept.cons _).trans new.symm

/-- The block that fills the bytes of some blocks of a region. -/
theorem tiles_whole {head a z : Nat} (tiles : Tiles head a s.members z) :
    Tiles head a [s.whole] z := by
  rw [s.whole_eq]
  exact tiles.joined

theorem size_whole_lt (T : h.Tiled (rs₁ ++ ⟨span, ws ++ (s.members ++ zs)⟩ :: rs₂) free) :
    s.whole.size < wordLimit := by
  obtain ⟨a, _, rest⟩ := tiles_append.1 (T.tiles ⟨span, ws ++ (s.members ++ zs)⟩ (by simp))
  obtain ⟨z, middle, behind⟩ := tiles_append.1 rest
  have bounds := (tiles_whole middle).bounds (List.mem_singleton_self _)
  have := (T.spans span (by simp)).2.2
  have := behind.le
  rw [Block.finish_eq] at bounds
  unfold Block.extent Header.length at bounds
  dsimp only at this
  omega

/-- A run of free blocks becomes one block, and the heap is tiled again. -/
theorem coalesced (T : h.Tiled (rs₁ ++ ⟨span, ws ++ (s.members ++ zs)⟩ :: rs₂) free)
    (all : (rs₁ ++ ⟨span, ws ++ (s.members ++ zs)⟩ :: rs₂).flatMap Region.blocks = s.catalogue)
    (before : s.before = rs₁.flatMap Region.blocks ++ ws)
    (after : s.after = zs ++ rs₂.flatMap Region.blocks) (maximal : s.Maximal) :
    ∃ h', h.Coalesced (rs₁ ++ ⟨span, ws ++ (s.members ++ zs)⟩ :: rs₂) free s h' ∧
      coalesce s.first.addr h = .ok s.first.addr h' := by
  have K := T.keeps
  rw [all] at K
  have fits := T.size_whole_lt
  rw [s.whole_eq] at fits
  have merged := @coalesce_yields (fun _ => False) h _ s.first s.first s.before s.after s.others K rfl
    List.mem_cons_self maximal.run (T.mem_free_of_members all maximal) maximal.start maximal.stop fits
  obtain ⟨_, h', run, rfl, M, log, dead⟩ := merged.exists_ok
  have K' := M.keeps
  have sorted : (free.filter (· ∉ s.members)).Pairwise Block.NoLarger :=
    T.sorted.sublist List.filter_sublist
  obtain ⟨us, vs, others, less, rest, inserted⟩ := exists_orderedInsert s.whole sorted
  have listed := (s.merge_free (h.ledger s.catalogue free)).trans inserted
  have blocks := s.merge_blocks (h.ledger s.catalogue free)
  refine ⟨h', ⟨⟨rs₁ ++ ⟨span, ws ++ ([s.whole] ++ zs)⟩ :: rs₂, us, vs, by simp, ?_, others, less, rest, ?_⟩,
    dead, ?_, K'.settings, K'.place, K'.transfers, K'.regions, K'.nextId, log, ?_⟩, run⟩
  · simp [Stretch.merged, before, after]
  · rw [← listed]
    refine T.edit K' ?_ (fun _ _ _ => tiles_whole) ?_ ?_
    · rw [blocks, Stretch.merged, before, after]
      rfl
    · rw [blocks, s.merge_free]
      exact (List.perm_orderedInsert _ _ _).trans (T.perm_merged all maximal)
    · rw [s.merge_free]
      exact List.Pairwise.orderedInsert _ _ sorted
  · intro i clear
    apply M.same
    rintro ⟨x, hx, covers⟩
    exact clear x hx covers
  · intro n
    have leftmost := @leftmostFree_eq h' _ s.whole s.whole s.before s.after [] [] n K' blocks rfl
      (by simp) maximal.start (Nat.zero_le n)
    have stays := @absorbFree_of_stop (fun _ => False) h' _ s.whole s.before s.after n K' blocks
      maximal.stop
    obtain ⟨_, _, run, rfl⟩ := stays.exists_ok
    exact ⟨leftmost, run⟩

/-- **A run of free blocks becomes one block.** In a tiled heap there is around every free block a run of
free blocks of its region that cannot be made longer. A merge that starts at any of them returns with the
first of them, whose bytes are then those of all of them and of the headers between them, and whose other
fields are as they were. The other members of the run are in neither list and their headers are dead; the
other blocks and their order in both lists stay; and the free list is sorted again, with the merged block in
front of all that are as large. Wherever in the run the merge starts, the heap is the same after it. -/
theorem coalesce_stretch (T : h.Tiled rs free) (hb : b ∈ rs.flatMap Region.blocks)
    (unused : b.used = false) :
    ∃ s : Stretch, s.catalogue = rs.flatMap Region.blocks ∧ s.Maximal ∧ b ∈ s.members ∧
      ∃ h', h.Coalesced rs free s h' ∧
        ∀ x ∈ s.members, coalesce x.addr h = .ok s.first.addr h' := by
  obtain ⟨rs₁, span, ws, zs, rs₂, s, maximal, member, rfl, all, before, after⟩ :=
    T.exists_stretch hb unused
  obtain ⟨h', post, run⟩ := T.coalesced all before after maximal
  exact ⟨s, all.symm, maximal, member, h', post, fun x hx => (T.coalesce_eq all maximal hx).trans run⟩

/-- Three of the four blocks of one region are free and not merged, and so is all of the next region. -/
theorem coalesce_stretch_neighbours : ∃ h : Heap, ∃ rs free b, h.Tiled rs free ∧
    b ∈ rs.flatMap Region.blocks ∧ b.used = false ∧
    free.map Block.size = [24, 32, 216, 600] ∧
    ∃ s : Stretch, s.catalogue = rs.flatMap Region.blocks ∧ s.Maximal ∧ b ∈ s.members ∧
      ∃ h', h.Coalesced rs free s h' ∧ ∀ x ∈ s.members, coalesce x.addr h = .ok s.first.addr h' := by
  let regions : Heap → List Region := fun h =>
    let blocks := h.snapshot.catalogue.items
    [⟨⟨140737219915776, 584⟩, blocks.take 4⟩, ⟨⟨140737219911680, 672⟩, blocks.drop 4⟩]
  let vacate : Nat → HeapM Unit := fun b => do
    write (Header.setUsed · b false)
    linkFree b
  have built : (answer? (do
      discard (malloc 512)
      free (some 140737219915848)
      discard (malloc 24)
      discard (malloc 24)
      discard (malloc 32)
      discard (malloc 600)
      vacate 140737219911680
      vacate 140737219915872
      vacate 140737219915968
      get) (.ofSettings {})).any (fun h => decide (h.Tiled (regions h) h.snapshot.freeList.items) &&
        decide (h.snapshot.freeList.items.map Block.size = [24, 32, 216, 600]) &&
        ((regions h).flatMap Region.blocks).any fun b => b.size == 32 && !b.used) = true := by
    decide +kernel
  obtain ⟨h, _, checked⟩ := (Option.any_eq_true _ _).1 built
  simp only [Bool.and_eq_true, decide_eq_true_eq, List.any_eq_true, Bool.not_eq_true'] at checked
  obtain ⟨⟨T, sizes⟩, b, hb, _, unused⟩ := checked
  exact ⟨h, _, _, b, T, hb, unused, sizes, coalesce_stretch T hb unused⟩

end Heap.Tiled

end RegionHeap
