import RegionHeap.Proofs.Retention

/-!
# The order in which blocks are given back

Which neighbours a block finds free when it is given back, and which regions go, depends on what was
given back before it. What is left in the end hardly does.

* `Region.giveBackAll` — the regions after several blocks were given back, one after the other.
* `inUse_giveBackAll`, `mem_giveBackAll`, `length_giveBackAll` — the blocks in use, the regions, and how
  many of them are left.
* `Heap.freeAll_sound` — a heap whose client gives several blocks back.
* `Tenancy.run_frees` — any two orders agree.
-/

set_option autoImplicit false

namespace RegionHeap

/-! ### Regions -/

namespace Region

variable {retained p : Nat} {ps qs : List Nat} {r : Region} {rs us : List Region}

/-- The blocks of some regions that are in use. -/
def inUse (rs : List Region) : List Block :=
  (rs.flatMap Region.blocks).filter Block.used

/-- The regions after the blocks behind the pointers `ps` were given back one after the other. -/
def giveBackAll (retained : Nat) (ps : List Nat) (rs : List Region) : List Region :=
  ps.foldl (fun us p => giveBack retained p us) rs

/-- How many regions are left then: those that are emptied go until no more than `retained` are left. -/
def left (retained : Nat) (ps : List Nat) (rs : List Region) : Nat :=
  if rs.length ≤ retained then rs.length
  else max (rs.length - rs.countP (emptied ps)) retained

/-- Giving back more blocks leaves no more blocks in use. -/
theorem idle_freed_of_subset (sub : ∀ q ∈ qs, q ∈ ps) (idle : (r.freed qs).idle = true) :
    (r.freed ps).idle = true := by
  rw [idle_freed_iff] at idle ⊢
  exact fun b hb used => sub _ (idle b hb used)

theorem idle_freed (idle : r.idle = true) : (r.freed ps).idle = true := by
  rw [idle_freed_iff]
  intro b hb used
  have := List.all_eq_true.1 idle b hb
  rw [used] at this
  cases this

/-- A region that some blocks empty is emptied by them and others. -/
theorem emptied_of_subset (sub : ∀ q ∈ qs, q ∈ ps) (emptied : r.emptied qs = true) :
    r.emptied ps = true := by
  rw [emptied_eq, Bool.and_eq_true] at emptied ⊢
  exact ⟨emptied.1, idle_freed_of_subset sub emptied.2⟩

/-- Of the regions that are emptied in the end, the first block empties some. -/
theorem emptied_freed :
    (r.freed [p]).emptied ps = (r.emptied (p :: ps) && !r.emptied [p]) := by
  simp only [emptied_eq, freed_freed, List.singleton_append]
  cases idle : r.idle with
  | true =>
    have : (r.freed [p]).idle = true := idle_freed idle
    simp [this]
  | false => simp [Bool.and_comm]

theorem inUse_cons (r : Region) (rs : List Region) :
    inUse (r :: rs) = r.blocks.filter Block.used ++ inUse rs := by
  unfold inUse
  rw [List.flatMap_cons, List.filter_append]

theorem inUse_map_freed (ps : List Nat) (rs : List Region) :
    inUse (rs.map (freed ps)) = (inUse rs).filter fun b => b.payload ∉ ps := by
  induction rs with
  | nil => rfl
  | cons r rs ih => rw [List.map_cons, inUse_cons, inUse_cons, List.filter_append, ih,
      filter_used_freed]

/-- Regions that are emptied have no block in use afterwards, so it makes no difference whether they are
kept. -/
theorem inUse_filter_emptied (ps : List Nat) (rs : List Region) :
    inUse ((rs.filter fun r => !r.emptied ps).map (freed ps)) = inUse (rs.map (freed ps)) := by
  induction rs with
  | nil => rfl
  | cons r rs ih =>
    rw [List.map_cons, inUse_cons, List.filter_cons]
    cases e : r.emptied ps with
    | false => rw [if_pos (by simp), List.map_cons, inUse_cons, ih]
    | true =>
      rw [emptied_eq, Bool.and_eq_true] at e
      rw [if_neg (by simp), ih, idle_iff.1 e.2, List.nil_append]

theorem inUse_giveBack (retained p : Nat) (rs : List Region) :
    inUse (giveBack retained p rs) = (inUse rs).filter fun b => b.payload ≠ p := by
  have all := inUse_map_freed [p] rs
  simp only [List.mem_singleton] at all
  unfold giveBack
  split
  · rw [inUse_filter_emptied, all]
  · exact all

/-- One block empties one region at most. -/
theorem countP_emptied_le_one (nodup : ((inUse rs).map Block.payload).Nodup) :
    rs.countP (emptied [p]) ≤ 1 := by
  have holds : ∀ r : Region, r.emptied [p] = true → p ∈ (r.blocks.filter Block.used).map Block.payload := by
    intro r emptied
    rw [emptied_eq, Bool.and_eq_true, Bool.not_eq_true', ← Bool.not_eq_true, idle_iff,
      idle_freed_iff] at emptied
    obtain ⟨b, hb⟩ := List.exists_mem_of_ne_nil _ emptied.1
    obtain ⟨inside, used⟩ := List.mem_filter.1 hb
    exact List.mem_map.2 ⟨b, hb, List.mem_singleton.1 (emptied.2 b inside used)⟩
  induction rs with
  | nil => exact Nat.zero_le 1
  | cons r rs ih =>
    rw [inUse_cons, List.map_append, List.nodup_append] at nodup
    obtain ⟨_, rest, apart⟩ := nodup
    rw [List.countP_cons]
    cases e : r.emptied [p] with
    | false => simpa using ih rest
    | true =>
      have none : rs.countP (emptied [p]) = 0 := by
        rw [List.countP_eq_zero]
        intro u hu emptied
        obtain ⟨b, hb, e'⟩ := List.mem_map.1 (holds u emptied)
        have inside : b ∈ inUse rs := by
          obtain ⟨hb, used⟩ := List.mem_filter.1 hb
          exact List.mem_filter.2 ⟨List.mem_flatMap.2 ⟨u, hu, hb⟩, used⟩
        exact apart p (holds r e) p (List.mem_map.2 ⟨b, inside, e'⟩) rfl
      simp [none]

/-- Those that the first block empties, and those that are emptied after that. -/
theorem countP_emptied_cons (p : Nat) (ps : List Nat) (rs : List Region) :
    rs.countP (emptied (p :: ps)) =
      rs.countP (emptied [p]) + rs.countP fun r => (r.freed [p]).emptied ps := by
  induction rs with
  | nil => rfl
  | cons r rs ih =>
    have also : r.emptied [p] = true → r.emptied (p :: ps) = true := emptied_of_subset (by simp)
    simp only [List.countP_cons, ih, emptied_freed]
    revert also
    cases r.emptied [p] <;> cases r.emptied (p :: ps) <;> simp <;> omega

/-- How many regions are left does not depend on which of them went first. -/
theorem left_giveBack (nodup : ((inUse rs).map Block.payload).Nodup) :
    left retained ps (giveBack retained p rs) = left retained (p :: ps) rs := by
  have one : rs.countP (emptied [p]) ≤ 1 := countP_emptied_le_one nodup
  have all := countP_emptied_cons p ps rs
  unfold left giveBack
  by_cases few : rs.length ≤ retained
  · rw [if_neg (Nat.not_lt.2 few), List.length_map, if_pos few, if_pos few]
  · have kept : (rs.filter fun r => !r.emptied [p]).length = rs.length - rs.countP (emptied [p]) := by
      have := rs.length_eq_countP_add_countP (emptied [p])
      rw [← List.countP_eq_length_filter]
      simp only [Bool.not_eq_true, Bool.decide_eq_false] at this
      omega
    have later : (rs.filter fun r => !r.emptied [p]).countP (emptied ps ∘ freed [p]) =
        rs.countP fun r => (r.freed [p]).emptied ps := by
      rw [List.countP_filter]
      apply List.countP_congr
      intro r _
      rw [Function.comp_apply, emptied_freed]
      cases r.emptied [p] <;> simp
    rw [if_pos (Nat.lt_of_not_le few), List.length_map, List.countP_map, kept, later, if_neg few]
    split <;> omega

/-! ### Giving back one block after the other -/

theorem giveBackAll_cons (retained p : Nat) (ps : List Nat) (rs : List Region) :
    giveBackAll retained (p :: ps) rs = giveBackAll retained ps (giveBack retained p rs) := rfl

/-- The blocks in use are those that were not given back. -/
theorem inUse_giveBackAll (retained : Nat) (ps : List Nat) (rs : List Region) :
    inUse (giveBackAll retained ps rs) = (inUse rs).filter fun b => b.payload ∉ ps := by
  induction ps generalizing rs with
  | nil => simp [giveBackAll]
  | cons p ps ih =>
    rw [giveBackAll_cons, ih, inUse_giveBack, List.filter_filter]
    apply List.filter_congr
    intro b _
    simp [Bool.and_comm]

/-- Each region is one that was there before, with the given block free. -/
theorem mem_giveBack {u : Region} (hu : u ∈ giveBack retained p rs) : ∃ r ∈ rs, u = r.freed [p] := by
  unfold giveBack at hu
  obtain ⟨r, hr, rfl⟩ := List.mem_map.1 hu
  refine ⟨r, ?_, rfl⟩
  split at hr
  · exact List.mem_of_mem_filter hr
  · exact hr

theorem merged_giveBack : ∀ u ∈ giveBack retained p rs, u.Merged := by
  intro u hu
  obtain ⟨r, _, rfl⟩ := mem_giveBack hu
  exact r.freed_merged _

/-- Each region that is left is one that was there before, with the given blocks free. -/
theorem mem_giveBackAll {u : Region} (merged : ∀ r ∈ rs, r.Merged)
    (hu : u ∈ giveBackAll retained ps rs) : ∃ r ∈ rs, u = r.freed ps := by
  induction ps generalizing rs with
  | nil => exact ⟨u, hu, (freed_eq_self (merged u hu) (by simp)).symm⟩
  | cons p ps ih =>
    obtain ⟨r', hr', rfl⟩ := ih merged_giveBack hu
    obtain ⟨r, hr, rfl⟩ := mem_giveBack hr'
    exact ⟨r, hr, freed_freed⟩

/-- How many regions are left. -/
theorem length_giveBackAll (nodup : ((inUse rs).map Block.payload).Nodup) :
    (giveBackAll retained ps rs).length = left retained ps rs := by
  induction ps generalizing rs with
  | nil =>
    have none : rs.countP (emptied []) = 0 := by
      rw [List.countP_eq_zero]
      intro r _ emptied
      rw [Region.emptied, Bool.and_eq_true, Bool.not_eq_true', Region.idle] at emptied
      simp [emptied.1] at emptied
    unfold left giveBackAll
    rw [none, List.foldl_nil]
    split <;> omega
  | cons p ps ih =>
    have later : ((inUse (giveBack retained p rs)).map Block.payload).Nodup := by
      rw [inUse_giveBack]
      exact nodup.sublist (List.filter_sublist.map _)
    rw [giveBackAll_cons, ih later, left_giveBack nodup]

/-- Of few regions none goes. -/
theorem giveBackAll_of_few (few : rs.length ≤ retained) (merged : ∀ r ∈ rs, r.Merged) :
    giveBackAll retained ps rs = rs.map (freed ps) := by
  induction ps generalizing rs with
  | nil =>
    refine ((List.map_congr_left ?_).trans (List.map_id _)).symm
    intro r hr
    exact freed_eq_self (merged r hr) (by simp)
  | cons p ps ih =>
    have all : giveBack retained p rs = rs.map (freed [p]) := by
      unfold giveBack
      rw [if_neg (Nat.not_lt.2 few)]
    rw [giveBackAll_cons, ih (by rwa [all, List.length_map]) merged_giveBack, all, List.map_map]
    apply List.map_congr_left
    intro r _
    exact freed_freed

/-- Which regions are emptied does not depend on the order of the blocks. -/
theorem left_perm (perm : ps.Perm qs) : left retained ps rs = left retained qs rs := by
  have same : emptied ps = emptied qs := by
    funext r
    simp only [emptied, perm.mem_iff]
  unfold left
  rw [same]

end Region

/-! ### Heaps -/

namespace Heap

/-- Gives back what is behind the pointers, one after the other. -/
def freeAll (ps : List Nat) : HeapM Unit :=
  forM ps fun p => free (some p)

variable {h : Heap} {L : Ledger} {ps : List Nat} {rs : List Region}

/-- Blocks that are handed out can be given back in any order. -/
theorem freeAll_sound (K : h.Keeps L) (S : L.Sound rs) (nodup : ps.Nodup)
    (held : ∀ p ∈ ps, ∃ b ∈ L.used, b.payload = p) :
    Yields (fun _ => False) (freeAll ps) h fun _ h' => ∃ L', h'.Keeps L' ∧
      L'.Sound (Region.giveBackAll L.settings.retained ps rs) := by
  induction ps generalizing h L rs with
  | nil => exact ⟨L, K, S⟩
  | cons p ps ih =>
    obtain ⟨b, hb, rfl⟩ := held p (by simp)
    obtain ⟨fresh, rest⟩ := List.nodup_cons.1 nodup
    unfold freeAll
    rw [List.forM_cons]
    refine (free_passed K S hb).bind fun _ h₁ post => ?_
    obtain ⟨L₁, u, P, _, S₁⟩ := post
    rw [Region.giveBackAll_cons]
    rw [← P.settings] at S₁ ⊢
    refine ih P.keeps S₁ rest fun q hq => ?_
    obtain ⟨c, hc, rfl⟩ := held q (by simp [hq])
    refine ⟨c, P.survives hc ?_, rfl⟩
    rintro ⟨⟩
    exact fresh hq

/-- Two heaps with the same blocks in use and with as many regions. A region that both of them have is
the same in both. -/
structure Alike (h₁ h₂ : Heap) (us vs : List Region) : Prop where
  used : Region.inUse us = Region.inUse vs
  regions : h₁.regions = h₂.regions
  shared : ∀ r ∈ us, ∀ s ∈ vs, r.span.start = s.span.start → r = s

/-- Two heaps with the same blocks. Their free lists hold the same blocks in the order of their sizes. -/
structure Same (h₁ h₂ : Heap) (us vs : List Region) (unused₁ unused₂ : List Block) : Prop where
  regions : us = vs
  catalogue : h₁.snapshot.catalogue = h₂.snapshot.catalogue
  free : unused₁.Perm unused₂
  sizes : unused₁.map Block.size = unused₂.map Block.size
  statistics : h₁.statistics = h₂.statistics

/-- Lists of the same blocks in the order of their sizes have the same sizes at each place. -/
theorem sizes_eq_of_perm {xs ys : List Block} (perm : xs.Perm ys) (hx : xs.Pairwise Block.NoLarger)
    (hy : ys.Pairwise Block.NoLarger) : xs.map Block.size = ys.map Block.size := by
  have sorted : ∀ zs : List Block, zs.Pairwise Block.NoLarger →
      (zs.map Block.size).Pairwise (· ≤ ·) := fun zs h => List.pairwise_map.2 h
  exact (perm.map Block.size).eq_of_pairwise (fun a b _ _ => Nat.le_antisymm) (sorted xs hx) (sorted ys hy)

/-- Heaps whose ledgers have the same regions are the same. -/
theorem Keeps.same {h' : Heap} {L' : Ledger} (K : h.Keeps L) (K' : h'.Keeps L') (S : L.Sound rs)
    (S' : L'.Sound rs) : h.Same h' rs rs L.free L'.free := by
  have blocks : L.blocks = L'.blocks := S.blocks.trans S'.blocks.symm
  have free : L.free.Perm L'.free := S.free.trans (blocks ▸ S'.free.symm)
  have spans : outstanding L.transfers = outstanding L'.transfers := S.spans.symm.trans S'.spans
  refine ⟨rfl, ?_, free, sizes_eq_of_perm free S.sorted S'.sorted, ?_⟩
  · rw [snapshot_eq K, snapshot_eq K', blocks]
  · rw [statistics_eq K S.toLaid, statistics_eq K' S'.toLaid, S.count, S'.count, free.length_eq,
      (free.map Block.size).sum_nat, spans]
    unfold Ledger.used
    rw [blocks]

end Heap

/-! ### Runs -/

namespace Tenancy

variable {settings : Settings} {place : Placement} {as : List Action} {t : Tenancy}
  {ps qs : List Nat}

/-- **The order of frees hardly matters.** The blocks behind some of the pointers that a client holds,
given back in any two orders, leave the same blocks in use and the same number of regions, and a region
that is left both times is left alike. When there are no more regions than the settings keep, the heaps
are the same but for the order of free blocks of one size. -/
theorem run_frees (built : settings.Built) (lawful : place.Lawful)
    (run : Run (opened settings place) as t) (held : ∀ p ∈ ps, ∃ g ∈ t.live, g.pointer = p)
    (nodup : ps.Nodup) (perm : ps.Perm qs) :
    ∃ h₁ h₂ rs us vs unused unused₁ unused₂,
      Heap.freeAll ps t.heap = .ok () h₁ ∧ Heap.freeAll qs t.heap = .ok () h₂ ∧
        t.heap.Sound rs unused ∧ h₁.Sound us unused₁ ∧ h₂.Sound vs unused₂ ∧
        h₁.Alike h₂ us vs ∧ h₁.regions = Region.left settings.retained ps rs ∧
        (rs.length ≤ settings.retained → h₁.Same h₂ us vs unused₁ unused₂) := by
  obtain ⟨L, H, rfl, _⟩ := run.exists_retained built lawful
  obtain ⟨rs, S⟩ := H.sound
  have blocks : ∀ p ∈ ps, ∃ b ∈ L.used, b.payload = p := by
    intro p hp
    obtain ⟨g, hg, rfl⟩ := held p hp
    obtain ⟨b, hb, e, _⟩ := H.exists_block hg
    exact ⟨b, hb, e⟩
  obtain ⟨_, h₁, run₁, L₁, K₁, S₁⟩ := (Heap.freeAll_sound H.keeps S nodup blocks).exists_ok
  obtain ⟨_, h₂, run₂, L₂, K₂, S₂⟩ := (Heap.freeAll_sound H.keeps S (perm.nodup_iff.1 nodup)
    fun q hq => blocks q (perm.mem_iff.2 hq)).exists_ok
  have pointers : ((Region.inUse rs).map Block.payload).Nodup := by
    rw [Region.inUse, ← S.blocks]
    exact S.nodup_payloads
  have regions₁ : h₁.regions = Region.left L.settings.retained ps rs := by
    rw [K₁.regions, S₁.count, Region.length_giveBackAll pointers]
  have regions₂ : h₂.regions = Region.left L.settings.retained qs rs := by
    rw [K₂.regions, S₂.count, Region.length_giveBackAll pointers]
  refine ⟨h₁, h₂, rs, _, _, L.free, L₁.free, L₂.free, run₁, run₂, H.keeps.sound S, K₁.sound S₁,
    K₂.sound S₂, ⟨?_, ?_, ?_⟩, regions₁, ?_⟩
  · rw [Region.inUse_giveBackAll, Region.inUse_giveBackAll]
    simp only [perm.mem_iff]
  · rw [regions₁, regions₂, Region.left_perm perm]
  · intro r hr s hs start
    obtain ⟨r, old, rfl⟩ := Region.mem_giveBackAll S.merged hr
    obtain ⟨s, old', rfl⟩ := Region.mem_giveBackAll S.merged hs
    rw [S.eq_of_start old old' start, Region.freed_perm perm]
  · intro few
    have same : rs.map (Region.freed ps) = rs.map (Region.freed qs) := by
      apply List.map_congr_left
      intro r _
      exact Region.freed_perm perm
    rw [Region.giveBackAll_of_few few S.merged] at S₁ ⊢
    rw [Region.giveBackAll_of_few few S.merged, ← same] at S₂ ⊢
    exact K₁.same K₂ S₁ S₂

/-- A heap that keeps one region has two, and in each of them a block that is handed out. -/
theorem run_frees_swapped : ∃ t,
    Run (opened (({} : Settings).withRetained 1) .standard)
      [.call (.malloc 500) (some 140737219915848),
        .call (.malloc 24) (some 140737219911752)] t ∧
    ∃ h₁ h₂ rs us vs unused unused₁ unused₂,
      Heap.freeAll [140737219915848, 140737219911752] t.heap = .ok () h₁ ∧
        Heap.freeAll [140737219911752, 140737219915848] t.heap = .ok () h₂ ∧
        t.heap.Sound rs unused ∧ h₁.Sound us unused₁ ∧ h₂.Sound vs unused₂ ∧
        h₁.Alike h₂ us vs ∧
        h₁.regions = Region.left 1 [140737219915848, 140737219911752] rs ∧
        (rs.length ≤ 1 → h₁.Same h₂ us vs unused₁ unused₂) := by
  refine exists_of_replay (by decide +kernel) fun t run => ?_
  refine run_frees (.retained .default 1) Placement.standard_lawful run ?_ (by decide) (.swap ..)
  rw [run.live_eq]
  decide

end Tenancy

end RegionHeap
