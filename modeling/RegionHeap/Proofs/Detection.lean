import RegionHeap.Proofs.Overwrites
import RegionHeap.Proofs.Tenancy

/-!
# What an audit detects

An audit looks at each block and at the block before it, and it counts. That suffices to find out about
most headers that were written over.

* `Snapshot.Clean`, `Snapshot.exists_audit_eq` — when an audit finds nothing.
* `Clean.revised` — changes that it does not see.
* `Clean.used_eq`, `Clean.region_eq`, `Clean.resized_iff` — changes that it does see.
* `Tenancy.run_detects` — what the audit of a heap finds out after everything that may happen.
-/

set_option autoImplicit false

namespace RegionHeap

/-! ### What an audit accepts -/

/-- The block may come right after `before` in a catalogue. -/
def Block.Follows : Option Block → Block → Prop
  | none, b => b.isRegionHead = true
  | some x, b => if x.region = b.region then x.finish = b.addr ∧ x.Separate b else b.isRegionHead = true

theorem Block.follows_some {x b : Block} : b.Follows (some x) ↔
    if x.region = b.region then x.finish = b.addr ∧ x.Separate b else b.isRegionHead = true :=
  Iff.rfl

namespace Snapshot

/-- There is nothing for an audit to find. -/
structure Clean (s : Snapshot) : Prop where
  free : ∀ b ∈ s.freeList.items, b.intact = true ∧ b.used = false
  sorted : s.freeList.items.Pairwise Block.NoLarger
  intact : ∀ b ∈ s.catalogue.items, b.intact = true
  follows : ∀ xs b ys, s.catalogue.items = xs ++ b :: ys → b.Follows xs.getLast?
  heads : s.catalogue.items.countP Block.isRegionHead = s.regions
  listed : s.catalogue.items.countP (·.used == false) = s.freeCount

variable {s : Snapshot} {b : Block} {bs : List Block} {before : Option Block}

theorem auditNeighbour_eq_ok_iff : auditNeighbour before b = .ok () ↔ b.Follows before := by
  unfold auditNeighbour
  cases before with
  | none => cases head : b.isRegionHead <;> simp [Block.Follows, head]
  | some x =>
    rw [Block.follows_some]
    by_cases region : x.region = b.region
    · by_cases gap : x.finish = b.addr
      · unfold Block.Separate
        cases hx : x.used <;> cases b.used <;> simp [region, gap, hx, Option.filter]
      · simp [region, gap, Option.filter]
    · cases b.isRegionHead <;> simp [region, Option.filter]

theorem auditBlocks_cons_eq_ok_iff : auditBlocks before (b :: bs) = .ok () ↔
    b.intact = true ∧ b.Follows before ∧ auditBlocks (some b) bs = .ok () := by
  rw [← auditNeighbour_eq_ok_iff]
  cases intact : b.intact with
  | false =>
    rw [auditBlocks, if_pos intact]
    constructor
    · intro found
      cases found
    · simp
  | true =>
    rw [auditBlocks, if_neg (by simp [intact])]
    cases auditNeighbour before b with
    | error c =>
      constructor
      · intro found
        cases found
      · simp
    | ok u =>
      cases u
      simp only [true_and]
      rfl

theorem auditBlocks_eq_ok_iff : auditBlocks before bs = .ok () ↔ (∀ b ∈ bs, b.intact = true) ∧
    ∀ xs b ys, bs = xs ++ b :: ys → b.Follows (xs.getLast?.or before) := by
  induction bs generalizing before with
  | nil => simp [auditBlocks]
  | cons b bs ih =>
    rw [auditBlocks_cons_eq_ok_iff, ih, List.forall_mem_cons]
    constructor
    · rintro ⟨intact, first, fine, rest⟩
      refine ⟨⟨intact, fine⟩, ?_⟩
      intro xs c ys e
      cases xs with
      | nil =>
        obtain ⟨rfl, rfl⟩ := List.cons.inj e
        exact first
      | cons x xs =>
        obtain ⟨rfl, rfl⟩ := List.cons.inj e
        have := rest xs c ys rfl
        rw [List.getLast?_cons]
        cases last : xs.getLast? <;> rw [last] at this <;> exact this
    · rintro ⟨⟨intact, fine⟩, all⟩
      refine ⟨intact, all [] b bs rfl, fine, ?_⟩
      rintro xs c ys rfl
      have := all (b :: xs) c ys rfl
      rw [List.getLast?_cons] at this
      cases last : xs.getLast? <;> rw [last] at this <;> exact this

theorem auditCounts_eq_ok_iff : s.auditCounts = .ok () ↔
    s.catalogue.items.countP Block.isRegionHead = s.regions ∧
      s.catalogue.items.countP (·.used == false) = s.freeCount := by
  unfold auditCounts
  dsimp only
  split
  · next ne =>
    constructor
    · intro found
      cases found
    · exact fun e => absurd e.1 ne
  · next eq =>
    split
    · next ne =>
      constructor
      · intro found
        cases found
      · exact fun e => absurd e.2 ne
    · next eq' => exact ⟨fun _ => ⟨not_not.1 eq, not_not.1 eq'⟩, fun _ => rfl⟩

/-- An audit of two walks within their counts returns, and finds nothing when there is nothing to
find. -/
theorem exists_audit_eq (catalogue : s.catalogue.overruns = false)
    (freeList : s.freeList.overruns = false) :
    ∃ found, s.audit = .ok found ∧ (found = .ok () ↔ s.Clean) := by
  have free := @auditFree_eq_ok_iff 0 s.freeList.items
  have blocks := @auditBlocks_eq_ok_iff s.catalogue.items none
  have counts := @auditCounts_eq_ok_iff s
  simp only [Option.or_none] at blocks
  unfold audit Walk.finish
  rw [catalogue, freeList]
  cases e : auditFree 0 s.freeList.items with
  | error c =>
    refine ⟨.error c, rfl, nofun, fun C => ?_⟩
    cases e.symm.trans (free.2 ⟨C.free, fun b _ => Nat.zero_le b.size, C.sorted⟩)
  | ok u =>
    obtain ⟨fine, _, sorted⟩ := free.1 e
    cases e : auditBlocks none s.catalogue.items with
    | error c =>
      refine ⟨.error c, rfl, nofun, fun C => ?_⟩
      cases e.symm.trans (blocks.2 ⟨C.intact, C.follows⟩)
    | ok u =>
      obtain ⟨intact, follows⟩ := blocks.1 e
      cases e : s.auditCounts with
      | error c =>
        refine ⟨.error c, rfl, nofun, fun C => ?_⟩
        cases e.symm.trans (counts.2 ⟨C.heads, C.listed⟩)
      | ok u =>
        obtain ⟨heads, listed⟩ := counts.1 e
        exact ⟨.ok (), rfl, fun _ => ⟨fine, sorted, intact, follows, heads, listed⟩, fun _ => rfl⟩

/-! ### Changes that an audit does not see -/

theorem revised_congr {f g : Block → Block} (catalogue : ∀ b ∈ s.catalogue.items, f b = g b)
    (listed : ∀ b ∈ s.freeList.items, b ∈ s.catalogue.items) : s.revised f = s.revised g := by
  unfold revised Walk.map
  rw [List.map_congr_left catalogue, List.map_congr_left fun b hb => catalogue b (listed b hb)]

/-- An audit does not look at the numbers of blocks, and at the size of a block only if another block of
its region follows or if it is free. -/
theorem Clean.revised {f : Block → Block} (C : s.Clean)
    (listed : ∀ b ∈ s.freeList.items, b ∈ s.catalogue.items)
    (addr : ∀ b ∈ s.catalogue.items, (f b).addr = b.addr)
    (intact : ∀ b ∈ s.catalogue.items, (f b).intact = b.intact)
    (used : ∀ b ∈ s.catalogue.items, (f b).used = b.used)
    (region : ∀ b ∈ s.catalogue.items, (f b).region = b.region)
    (size : ∀ xs x c ys, s.catalogue.items = xs ++ x :: c :: ys → x.region = c.region →
      (f x).size = x.size)
    (sorted : (s.freeList.items.map f).Pairwise Block.NoLarger) : (s.revised f).Clean := by
  have head : ∀ b ∈ s.catalogue.items, (f b).isRegionHead = b.isRegionHead := by
    intro b hb
    unfold Block.isRegionHead
    rw [addr b hb, region b hb]
  refine ⟨?_, sorted, ?_, ?_, ?_, ?_⟩
  · intro b' hb'
    obtain ⟨b, hb, rfl⟩ := List.mem_map.1 hb'
    rw [intact b (listed b hb), used b (listed b hb)]
    exact C.free b hb
  · intro b' hb'
    obtain ⟨b, hb, rfl⟩ := List.mem_map.1 hb'
    rw [intact b hb]
    exact C.intact b hb
  · intro xs' b' ys' mapped
    obtain ⟨xs, zs, e, rfl, tail⟩ := List.map_eq_append_iff.1 mapped
    obtain ⟨b, ys, rfl, rfl, -⟩ := List.map_eq_cons_iff.1 tail
    have hb : b ∈ s.catalogue.items := by simp [e]
    have follows := C.follows xs b ys e
    rw [List.getLast?_map]
    rcases List.eq_nil_or_concat xs with rfl | ⟨ws, x, rfl⟩
    · exact (head b hb).trans follows
    · have hx : x ∈ s.catalogue.items := by simp [e]
      rw [List.concat_eq_append, List.getLast?_concat] at follows ⊢
      rw [Block.follows_some] at follows
      rw [Option.map_some, Block.follows_some, region x hx, region b hb, head b hb]
      split at follows
      · next same =>
        rw [if_pos same]
        have kept := size ws x b ys (by simp [e]) same
        unfold Block.Separate Block.finish Block.payload at *
        rw [addr x hx, addr b hb, used x hx, used b hb, kept]
        exact follows
      · next other =>
        rw [if_neg other]
        exact follows
  · show (s.catalogue.items.map f).countP _ = s.regions
    rw [← C.heads, List.countP_map]
    exact List.countP_congr fun b hb => by rw [Function.comp_apply, head b hb]
  · show (s.catalogue.items.map f).countP _ = s.freeCount
    rw [← C.listed, List.countP_map]
    exact List.countP_congr fun b hb => by rw [Function.comp_apply, used b hb]

/-! ### Changes that an audit sees -/

/-- Where one property follows from another one and as many members have the one as the other, they
are the same members. -/
theorem of_countP_eq {α : Type} {p q : α → Bool} {xs : List α}
    (imp : ∀ x ∈ xs, p x = true → q x = true) (count : xs.countP p = xs.countP q) :
    ∀ x ∈ xs, q x = true → p x = true := by
  induction xs with
  | nil => simp
  | cons y ys ih =>
    obtain ⟨first, rest⟩ := List.forall_mem_cons.1 imp
    have mono := List.countP_mono_left rest
    rw [List.countP_cons, List.countP_cons] at count
    have head : q y = true → p y = true := by
      intro hq
      by_contra hp
      rw [if_neg hp, if_pos hq] at count
      omega
    have same : (if p y = true then 1 else 0) = if q y = true then 1 else 0 :=
      if_congr ⟨first, head⟩ rfl rfl
    exact List.forall_mem_cons.2 ⟨head, ih rest (by omega)⟩

/-- No flag was changed: what is on the free list is free, and nothing else is, since the number of free
blocks is known. -/
theorem Clean.used_eq {f : Block → Block} (C : s.Clean) (C' : (s.revised f).Clean)
    (listed : ∀ b ∈ s.catalogue.items, b.used = false → b ∈ s.freeList.items) :
    ∀ b ∈ s.catalogue.items, (f b).used = b.used := by
  have free : ∀ b ∈ s.catalogue.items, (b.used == false) = true → ((f b).used == false) = true := by
    intro b hb unused
    rw [beq_iff_eq] at unused ⊢
    exact (C'.free (f b) (List.mem_map_of_mem (listed b hb unused))).2
  have count : s.catalogue.items.countP (fun b => b.used == false) =
      s.catalogue.items.countP fun b => (f b).used == false := by
    have := C'.listed.trans C.listed.symm
    rw [show (s.revised f).catalogue.items = s.catalogue.items.map f from rfl, List.countP_map] at this
    exact this.symm
  intro b hb
  have back := of_countP_eq free count b hb
  have forth := free b hb
  rw [beq_iff_eq, beq_iff_eq] at back forth
  cases h : b.used with
  | false => exact forth h
  | true =>
    cases h' : (f b).used with
    | true => rfl
    | false => rw [back h'] at h; cases h

/-- No region was changed if the sizes are as they were and no block ends where a region starts. The
first block of each region still is one, and no other block became one, since the number of regions is
known. -/
theorem Clean.region_eq {f : Block → Block} (C : s.Clean) (C' : (s.revised f).Clean)
    (addr : ∀ b ∈ s.catalogue.items, (f b).addr = b.addr)
    (size : ∀ b ∈ s.catalogue.items, (f b).size = b.size)
    (apart : ∀ x ∈ s.catalogue.items, ∀ b ∈ s.catalogue.items, b.isRegionHead = true →
      x.finish ≠ b.addr) :
    ∀ b ∈ s.catalogue.items, (f b).region = b.region := by
  have follows : ∀ xs b ys, s.catalogue.items = xs ++ b :: ys →
      (f b).Follows (xs.getLast?.map f) := by
    intro xs b ys e
    rw [← List.getLast?_map]
    apply C'.follows (xs.map f) (f b) (ys.map f)
    show s.catalogue.items.map f = _
    rw [e, List.map_append, List.map_cons]
  have heads : ∀ b ∈ s.catalogue.items, b.isRegionHead = true → (f b).isRegionHead = true := by
    intro b hb head
    obtain ⟨xs, ys, e⟩ := List.append_of_mem hb
    have follows := follows xs b ys e
    rcases List.eq_nil_or_concat xs with rfl | ⟨ws, x, rfl⟩
    · exact follows
    · have hx : x ∈ s.catalogue.items := by simp [e]
      rw [List.concat_eq_append, List.getLast?_concat] at follows
      rw [Option.map_some, Block.follows_some] at follows
      split at follows
      · have finish : (f x).finish = x.finish := by
          unfold Block.finish Block.payload
          rw [addr x hx, size x hx]
        rw [finish, addr b hb] at follows
        exact absurd follows.1 (apart x hx b hb head)
      · exact follows
  have count : s.catalogue.items.countP Block.isRegionHead =
      s.catalogue.items.countP fun b => (f b).isRegionHead := by
    have := C'.heads.trans C.heads.symm
    rw [show (s.revised f).catalogue.items = s.catalogue.items.map f from rfl, List.countP_map] at this
    exact this.symm
  have back := of_countP_eq heads count
  have named : ∀ b ∈ s.catalogue.items, b.isRegionHead = true → (f b).region = b.region := by
    intro b hb head
    have new : (f b).region = (f b).addr := beq_iff_eq.1 (heads b hb head)
    have old : b.region = b.addr := beq_iff_eq.1 head
    rw [new, old, addr b hb]
  -- from the first block on, each block names the same head as before
  have along : ∀ xs b ys, s.catalogue.items = xs ++ b :: ys → (f b).region = b.region := by
    intro xs
    induction xs using List.reverseRecOn with
    | nil =>
      intro b ys e
      have hb : b ∈ s.catalogue.items := by simp [e]
      exact named b hb (C.follows [] b ys e)
    | append_singleton xs x ih =>
      intro b ys e
      have hb : b ∈ s.catalogue.items := by simp [e]
      have old := C.follows _ b ys e
      have new := follows _ b ys e
      rw [List.getLast?_concat] at old new
      rw [Option.map_some] at new
      rw [Block.follows_some] at old new
      by_cases head : b.isRegionHead = true
      · exact named b hb head
      · have old : x.region = b.region := by
          by_contra ne
          rw [if_neg ne] at old
          exact head old
        have new : (f x).region = (f b).region := by
          by_contra ne
          rw [if_neg ne] at new
          exact head (back b hb new)
        rw [← new, ← old]
        exact ih x (b :: ys) (by simp [e])
  intro b hb
  obtain ⟨xs, ys, e⟩ := List.append_of_mem hb
  exact along xs b ys e

/-- The size of one block was changed. An audit sees that if another block of its region follows, or if
the free list is no longer in order. -/
theorem Clean.resized_iff {n : Nat} (C : s.Clean) (nodup : s.catalogue.items.Nodup)
    (listed : ∀ x ∈ s.freeList.items, x ∈ s.catalogue.items) (ne : n ≠ b.size) :
    (s.revised (Block.swap b (b.withSize n))).Clean ↔
      ¬ (∃ xs c ys, s.catalogue.items = xs ++ b :: c :: ys ∧ c.region = b.region) ∧
        (s.freeList.items.map (Block.swap b (b.withSize n))).Pairwise Block.NoLarger := by
  constructor
  · intro C'
    refine ⟨?_, C'.sorted⟩
    rintro ⟨xs, c, ys, e, region⟩
    have apart : b ∉ xs ++ c :: ys := by
      rw [e, List.nodup_middle, List.nodup_cons] at nodup
      exact nodup.1
    have catalogue : (s.revised (Block.swap b (b.withSize n))).catalogue.items =
        xs ++ b.withSize n :: c :: ys := by
      show s.catalogue.items.map _ = _
      exact e ▸ map_swap_zipper (fun h => apart (List.mem_append_left _ h))
        fun h => apart (List.mem_append_right _ h)
    have old := C.follows (xs ++ [b]) c ys (by simp [e])
    have new := C'.follows (xs ++ [b.withSize n]) c ys (by simp [catalogue])
    rw [List.getLast?_concat, Block.follows_some, if_pos region.symm] at old
    rw [List.getLast?_concat, Block.follows_some, Block.withSize_region, if_pos region.symm] at new
    -- the block ends where the next one starts, before and after
    have same : b.payload + n = b.payload + b.size := new.1.trans old.1.symm
    exact ne (Nat.add_left_cancel same)
  · rintro ⟨last, sorted⟩
    have field : ∀ {α : Type} (g : Block → α), g (b.withSize n) = g b →
        ∀ x ∈ s.catalogue.items, g (Block.swap b (b.withSize n) x) = g x := by
      intro α g e x _
      unfold Block.swap
      split
      · next hx => rw [e, hx]
      · rfl
    refine C.revised listed (field Block.addr rfl) (field Block.intact rfl) (field Block.used rfl)
      (field Block.region rfl) ?_ sorted
    intro xs x c ys e region
    unfold Block.swap
    rw [if_neg]
    rintro rfl
    exact last ⟨xs, c, ys, e, region.symm⟩

end Snapshot

/-! ### Heaps -/

/-- A field of a header of the regions is written over, and the payloads stay in the address range. -/
def Overwrite.Within (rs : List Region) (o : Overwrite) : Prop :=
  o.block ∈ (rs.flatMap Region.blocks).map Block.addr ∧ o.Fits

/-- What the audit of a heap finds out about headers of its blocks that were written over. -/
structure Heap.Detects (h : Heap) (rs : List Region) (unused : List Block) : Prop where
  /-- The audit returns. -/
  returns : ∀ os, (∀ o ∈ os, o.Within rs) → (h.overwrite os).audit = .ok (.ok ()) ∨
    ∃ c, (h.overwrite os).audit = .ok (.error (.corrupted c))
  /-- If it finds nothing, every mark and every flag is as it was. -/
  used : ∀ os, (∀ o ∈ os, o.Within rs) → (h.overwrite os).audit = .ok (.ok ()) →
    ∀ b ∈ rs.flatMap Region.blocks, Header.intact (h.overwrite os).memory b.addr = true ∧
      Header.used (h.overwrite os).memory b.addr = b.used
  /-- If besides no size was written over and no region ends where another one starts, every block names
  the region that it did. -/
  region : ∀ os, (∀ o ∈ os, o.Within rs) → (h.overwrite os).audit = .ok (.ok ()) →
    (∀ o ∈ os, ∀ b n, o ≠ .size b n) → (∀ r ∈ rs, ∀ u ∈ rs, r.span.finish ≠ u.span.start) →
    ∀ b ∈ rs.flatMap Region.blocks, Header.region (h.overwrite os).memory b.addr = b.region
  /-- It finds out about the size of one block if another block of its region follows, or if the block is
  free and the free list is no longer in the order of sizes. -/
  size : ∀ b ∈ rs.flatMap Region.blocks, ∀ n, b.payload + n < wordLimit → n ≠ b.size →
    ((∃ c, (h.overwrite [.size b.addr n]).audit = .ok (.error (.corrupted c))) ↔
      (∃ xs c ys, rs.flatMap Region.blocks = xs ++ b :: c :: ys ∧ c.region = b.region) ∨
        b.used = false ∧ ¬ (unused.map fun c => if c = b then n else c.size).Pairwise (· ≤ ·))
  /-- It does not find out about numbers of blocks and about where their memory is said to come from. -/
  harmless : ∀ os, (∀ o ∈ os, o.Within rs ∧ o.Harmless) → (h.overwrite os).audit = .ok (.ok ())

namespace Heap

variable {h : Heap} {L : Ledger} {rs : List Region} {os : List Overwrite}

/-- The audit returns, and finds nothing when there is nothing to find. -/
theorem audit_overwrite (K : h.Keeps L) (targets : ∀ o ∈ os, o.block ∈ L.blocks.map Block.addr)
    (fits : ∀ o ∈ os, o.Fits) :
    (h.overwrite os).audit = .ok (.ok ()) ∧ (h.snapshot.revised (Block.overwritten os)).Clean ∨
      (∃ c, (h.overwrite os).audit = .ok (.error (.corrupted c))) ∧
        ¬ (h.snapshot.revised (Block.overwritten os)).Clean := by
  have shown := snapshot_eq K
  have whole : (h.snapshot.revised (Block.overwritten os)).catalogue.overruns = false := by
    rw [shown]
    rfl
  have whole' : (h.snapshot.revised (Block.overwritten os)).freeList.overruns = false := by
    rw [shown]
    rfl
  obtain ⟨found, e, clean⟩ := Snapshot.exists_audit_eq whole whole'
  unfold audit
  rw [snapshot_overwrite K targets fits, e]
  cases found with
  | ok u => exact .inl ⟨rfl, clean.1 rfl⟩
  | error c => exact .inr ⟨⟨c, rfl⟩, fun C => nomatch clean.2 C⟩

/-- There is nothing to find in a sound heap. -/
theorem Keeps.clean (K : h.Keeps L) (S : L.Sound rs) : h.snapshot.Clean := by
  have shown := snapshot_eq K
  have fine := audit_eq K S
  obtain ⟨found, e, clean⟩ := @Snapshot.exists_audit_eq h.snapshot (by rw [shown]; rfl)
    (by rw [shown]; rfl)
  unfold audit at fine
  rw [e] at fine
  cases found with
  | ok u => exact clean.1 rfl
  | error c => cases fine

/-- No block ends where a region starts if no region does. -/
theorem finish_ne_of_head (S : L.Laid rs)
    (gaps : ∀ r ∈ rs, ∀ u ∈ rs, r.span.finish ≠ u.span.start) {x b : Block} (hx : x ∈ L.blocks)
    (hb : b ∈ L.blocks) (head : b.isRegionHead = true) : x.finish ≠ b.addr := by
  rw [S.blocks] at hx hb
  obtain ⟨r, hr, hx⟩ := List.mem_flatMap.1 hx
  obtain ⟨u, hu, hb⟩ := List.mem_flatMap.1 hb
  have start : u.span.start = b.addr := ((S.tiled u hu).region_eq hb).symm.trans (beq_iff_eq.1 head)
  have inside := (S.tiled r hr).tiles.bounds hx
  have short := x.addr_lt_finish
  rw [← start]
  intro e
  by_cases same : r = u
  · subst same
    omega
  · have symm : Std.Symm fun r u : Region => r.span.Apart u.span := ⟨fun _ _ => Or.symm⟩
    have apart := S.spans_apart.forall hr hu same
    have gap := gaps r hr u hu
    have := r.span.finish_le_pageFinish
    have := (S.placed hu).nonempty
    have := le_pageCeil u.span.length
    unfold Span.Apart Span.pageFinish at apart
    unfold Span.pageFinish at *
    omega

section Audit

variable (K : h.Keeps L) (S : L.Sound rs) (within : ∀ o ∈ os, o.Within rs)

include K in
theorem snapshot_items :
    h.snapshot.catalogue.items = L.blocks ∧ h.snapshot.freeList.items = L.free := by
  rw [snapshot_eq K]
  exact ⟨rfl, rfl⟩

include S within in
theorem targets_of_within : ∀ o ∈ os, o.block ∈ L.blocks.map Block.addr := by
  intro o ho
  rw [S.blocks]
  exact (within o ho).1

include K S within in
theorem audit_overwrite_iff : (h.overwrite os).audit = .ok (.ok ()) ↔
    (h.snapshot.revised (Block.overwritten os)).Clean := by
  rcases audit_overwrite K (targets_of_within S within) fun o ho => (within o ho).2 with
    ⟨e, clean⟩ | ⟨⟨c, e⟩, found⟩
  · exact iff_of_true e clean
  · refine iff_of_false ?_ found
    rw [e]
    nofun

include K S within in
/-- The audit returns. -/
theorem audit_found_iff : (∃ c, (h.overwrite os).audit = .ok (.error (.corrupted c))) ↔
    ¬ (h.overwrite os).audit = .ok (.ok ()) := by
  rcases audit_overwrite K (targets_of_within S within) fun o ho => (within o ho).2 with
    ⟨e, _⟩ | ⟨⟨c, e⟩, _⟩
  · rw [e]
    simp
  · rw [e]
    simp

include K S within in
/-- Every mark and every flag is as it was. -/
theorem overwritten_used {b : Block} (fine : (h.overwrite os).audit = .ok (.ok ()))
    (hb : b ∈ L.blocks) : (b.overwritten os).intact = true ∧ (b.overwritten os).used = b.used := by
  obtain ⟨blocks, free⟩ := snapshot_items K
  have C := K.clean S
  have C' := (audit_overwrite_iff K S within).1 fine
  rw [← blocks] at hb
  refine ⟨C'.intact _ (List.mem_map_of_mem hb), C.used_eq C' ?_ b hb⟩
  intro x hx unused
  rw [blocks] at hx
  rw [free]
  exact S.mem_free_iff.2 ⟨hx, unused⟩

include K S within in
/-- Every block names the region that it did. -/
theorem overwritten_region {b : Block} (fine : (h.overwrite os).audit = .ok (.ok ()))
    (sizes : ∀ o ∈ os, ∀ b n, o ≠ .size b n)
    (gaps : ∀ r ∈ rs, ∀ u ∈ rs, r.span.finish ≠ u.span.start) (hb : b ∈ L.blocks) :
    (b.overwritten os).region = b.region := by
  obtain ⟨blocks, free⟩ := snapshot_items K
  have C := K.clean S
  have C' := (audit_overwrite_iff K S within).1 fine
  have size : ∀ o ∈ os, ∀ c : Block, (o.change c).size = c.size := by
    intro o ho c
    cases o with
    | size b n => exact absurd rfl (sizes _ ho b n)
    | _ => rfl
  rw [← blocks] at hb
  refine C.region_eq C' (fun _ _ => Block.addr_overwritten)
    (fun _ _ => Block.overwritten_eq Block.size size) ?_ b hb
  rw [blocks]
  exact fun x hx b hb head => finish_ne_of_head S.toLaid gaps hx hb head

include S in
theorem within_size {b : Block} {n : Nat} (hb : b ∈ L.blocks) (fits : b.payload + n < wordLimit) :
    ∀ o ∈ [Overwrite.size b.addr n], o.Within rs := by
  intro o ho
  rw [List.mem_singleton.1 ho]
  refine ⟨?_, fits⟩
  rw [← S.blocks]
  exact Keeps.addr_mem hb

include S in
/-- The order of the free list with another size for one block. The list does not have the block when
that is in use. -/
theorem pairwise_resized_iff {b : Block} {n : Nat} :
    (L.free.map (Block.swap b (b.withSize n))).Pairwise Block.NoLarger ↔
      (b.used = false → (L.free.map fun c => if c = b then n else c.size).Pairwise (· ≤ ·)) := by
  have size : ∀ x : Block, (Block.swap b (b.withSize n) x).size = if x = b then n else x.size := by
    intro x
    unfold Block.swap
    split <;> rfl
  have all : (L.free.map (Block.swap b (b.withSize n))).Pairwise Block.NoLarger ↔
      (L.free.map fun c => if c = b then n else c.size).Pairwise (· ≤ ·) := by
    rw [List.pairwise_map, List.pairwise_map]
    simp only [Block.NoLarger, size]
  cases used : b.used with
  | false => simpa using all
  | true =>
    have other : b ∉ L.free := by
      intro hb
      have := (S.mem_free_iff.1 hb).2
      rw [used] at this
      cases this
    rw [map_swap_of_notMem other]
    exact iff_of_true S.sorted nofun

include K S in
/-- One size was written over. -/
theorem audit_resized_iff {b : Block} {n : Nat} (hb : b ∈ L.blocks)
    (fits : b.payload + n < wordLimit) (ne : n ≠ b.size) :
    (h.overwrite [.size b.addr n]).audit = .ok (.ok ()) ↔
      ¬ (∃ xs c ys, L.blocks = xs ++ b :: c :: ys ∧ c.region = b.region) ∧
        (b.used = false → (L.free.map fun c => if c = b then n else c.size).Pairwise (· ≤ ·)) := by
  obtain ⟨blocks, free⟩ := snapshot_items K
  have within := within_size S hb fits
  have listed : ∀ x ∈ h.snapshot.freeList.items, x ∈ h.snapshot.catalogue.items := by
    rw [blocks, free]
    exact K.listed
  have same : ∀ x ∈ h.snapshot.catalogue.items,
      x.overwritten [.size b.addr n] = Block.swap b (b.withSize n) x := by
    intro x hx
    rw [blocks] at hx
    unfold Block.overwritten Block.swap
    by_cases e : x = b
    · subst e
      rw [if_pos rfl, List.filter_cons_of_pos (by simp [Overwrite.block])]
      rfl
    · have other : b.addr ≠ x.addr := fun ea => e (K.eq_of_addr hx hb ea.symm)
      rw [if_neg e, List.filter_cons_of_neg (by simp [Overwrite.block, other])]
      rfl
  rw [audit_overwrite_iff K S within, Snapshot.revised_congr same listed,
    (K.clean S).resized_iff (blocks ▸ K.nodup) listed ne, blocks, free, pairwise_resized_iff S]

include K S within in
/-- Numbers of blocks do not matter, nor where their memory is said to come from. -/
theorem audit_harmless (harmless : ∀ o ∈ os, o.Harmless) : (h.overwrite os).audit = .ok (.ok ()) := by
  obtain ⟨blocks, free⟩ := snapshot_items K
  have C := K.clean S
  have same : ∀ {α : Type} (field : Block → α), (∀ b n, field { b with id := n } = field b) →
      (∀ b v, field { b with fromBreak := v } = field b) → ∀ b, field (b.overwritten os) = field b := by
    intro α field id fromBreak b
    apply Block.overwritten_eq
    intro o ho c
    have := harmless o ho
    cases o with
    | id b n => exact id c n
    | fromBreak b v => exact fromBreak c v
    | _ => cases this
  have size := same Block.size (fun _ _ => rfl) fun _ _ => rfl
  rw [audit_overwrite_iff K S within]
  refine C.revised ?_ (fun b _ => Block.addr_overwritten)
    (fun b _ => same Block.intact (fun _ _ => rfl) (fun _ _ => rfl) b)
    (fun b _ => same Block.used (fun _ _ => rfl) (fun _ _ => rfl) b)
    (fun b _ => same Block.region (fun _ _ => rfl) (fun _ _ => rfl) b) (fun _ x _ _ _ _ => size x) ?_
  · rw [blocks, free]
    exact K.listed
  · rw [List.pairwise_map]
    apply C.sorted.imp
    intro x y le
    unfold Block.NoLarger
    rwa [size, size]

end Audit

/-- What the audit of a sound heap finds out. -/
theorem Keeps.detects (K : h.Keeps L) (S : L.Sound rs) : h.Detects rs L.free := by
  refine ⟨?_, ?_, ?_, ?_, ?_⟩
  · intro os within
    rw [audit_found_iff K S within]
    exact Classical.em _
  · intro os within fine b hb
    rw [← S.blocks] at hb
    have read := K.read_overwrite (targets_of_within S within) (fun o ho => (within o ho).2) hb
    obtain ⟨intact, used⟩ := overwritten_used K S within fine hb
    exact ⟨(congrArg Block.intact read).trans intact, (congrArg Block.used read).trans used⟩
  · intro os within fine sizes gaps b hb
    rw [← S.blocks] at hb
    have read := K.read_overwrite (targets_of_within S within) (fun o ho => (within o ho).2) hb
    exact (congrArg Block.region read).trans (overwritten_region K S within fine sizes gaps hb)
  · intro b hb n fits ne
    rw [← S.blocks] at hb ⊢
    rw [audit_found_iff K S (within_size S hb fits), audit_resized_iff K S hb fits ne,
      not_and_or, not_not, Classical.not_imp]
  · intro os harmless
    exact audit_harmless K S (fun o ho => (harmless o ho).1) fun o ho => (harmless o ho).2

end Heap

namespace Tenancy

variable {settings : Settings} {place : Placement} {as : List Action} {t : Tenancy}

/-- **An audit detects what was written over.** However a heap came about, if fields of headers of its
blocks are written over, an audit that finds nothing shows that all marks and flags are as they were. It
shows the same of the regions where sizes were not written over and no region ends where another one
starts, it finds out about a single size unless nothing depends on that, and it does not look at
numbers. -/
theorem run_detects (built : settings.Built) (lawful : place.Lawful)
    (run : Run (opened settings place) as t) :
    ∃ rs unused, t.heap.Sound rs unused ∧ t.heap.Detects rs unused := by
  obtain ⟨L, H⟩ := run.exists_held built lawful
  obtain ⟨rs, S⟩ := H.sound
  exact ⟨rs, L.free, H.keeps.sound S, H.keeps.detects S⟩

/-- A region with a block in use before a free one, and another region. -/
theorem run_detects_two_regions : ∃ t,
    Run (opened {} .standard)
      [.call (.malloc 500) (some 140737219915848),
        .call (.free (some 140737219915848)) none,
        .call (.malloc 24) (some 140737219915848),
        .call (.malloc 900) (some 140737219911752)] t ∧
      ∃ rs unused, t.heap.Sound rs unused ∧ t.heap.Detects rs unused :=
  exists_of_replay (by decide +kernel) fun _ run => run_detects .default Placement.standard_lawful run

end Tenancy

end RegionHeap
