import RegionHeap.Proofs.Sound.Edits

/-!
# Closing a heap

Closing a heap gives every region back, whatever the regions hold, in the order in which they were
mapped, and is never stopped.

* `Heap.abandonRegion_laid` — one region.
* `Heap.close_laid` — all of them.
-/

set_option autoImplicit false

namespace RegionHeap.Heap

variable {E : Fault → Prop} {h : Heap} {L : Ledger} {rs : List Region} {r : Region} {b : Block}

/-- The first region is given back, and the other ones are as they were. -/
theorem abandonRegion_laid (K : h.Keeps L) (S : L.Laid (r :: rs)) (head : r.blocks.head? = some b) :
    Yields E (abandonRegion b.addr) h fun _ h' => ∃ L', h'.Keeps L' ∧ L'.Laid rs ∧
      L'.transfers = .unmapped r.span :: L.transfers := by
  have tiled := S.tiled r (by simp)
  have placed := S.placed (r := r) (by simp)
  obtain ⟨vs, e⟩ : ∃ vs, r.blocks = b :: vs := by
    cases blocks : r.blocks with
    | nil => simp [blocks] at head
    | cons x vs =>
      obtain rfl : x = b := by simpa [blocks] using head
      exact ⟨vs, rfl⟩
  have blocks : L.blocks = b :: (vs ++ rs.flatMap Region.blocks) := by
    rw [S.blocks, List.flatMap_cons, e, List.cons_append]
  have region : ∀ x ∈ r.blocks, x.region = r.span.start := fun x hx => tiled.region_eq hx
  have b_region : b.region = r.span.start := region b (by simp [e])
  have b_addr : b.addr = r.span.start := by
    have tiles := tiled.tiles
    rw [e] at tiles
    exact tiles.1
  have same : ∀ x ∈ vs, x.region = b.region :=
    fun x hx => (region x (by simp [e, hx])).trans b_region.symm
  have stop : ∀ y ∈ (rs.flatMap Region.blocks).head?, y.region ≠ b.region := by
    intro y hy
    rw [b_region]
    have first : L.Laid ([] ++ r :: rs) := S
    exact first.region_ne (by simpa using List.mem_of_mem_head? hy)
  have free : ∀ x ∈ b :: vs, x ∈ L.free ↔ x.used = false := by
    intro x hx
    rw [S.mem_free_iff, and_iff_right_iff_imp]
    intro _
    exact S.mem_blocks (r := r) (by simp) (by rwa [e])
  have count : 0 < L.regions := by
    rw [S.count, List.length_cons]
    omega
  have extent : ((b :: vs).map Block.extent).sum = r.span.length := by
    rw [← e]
    exact tiled.sum_extents
  have fits : ((b :: vs).map Block.extent).sum < wordLimit := by
    have := placed.fits
    have := le_pageCeil r.span.length
    unfold Span.pageFinish at *
    omega
  have aligned : b.addr % pageSize = 0 := b_addr ▸ placed.aligned
  refine (abandonRegion_yields K blocks same stop free count aligned fits).mono fun _ h' M => ?_
  refine ⟨_, M.keeps, ?_⟩
  have dropped := @Ledger.Laid.drop L [] rs r (rs.flatMap Region.blocks) S rfl
  rw [extent, b_addr, ← e]
  exact ⟨dropped, rfl⟩

/-- Going on as long as there is a region gives all regions back. -/
theorem abandonRegions_laid {n : Nat} (K : h.Keeps L) (S : L.Laid rs) (steps : rs.length ≤ n) :
    Yields E (abandonRegions n) h fun _ h' => ∃ L', h'.Keeps L' ∧ L'.Laid [] ∧
      L'.transfers = (rs.map fun r => Transfer.unmapped r.span).reverse ++ L.transfers := by
  have first : h.catalogue.head = L.blocks.head?.map Block.addr := by
    rw [K.catalogue.ends]
    exact List.head?_map
  induction rs generalizing h L n with
  | nil =>
    have none : h.catalogue.head = none := by
      rw [first, S.blocks]
      rfl
    cases n with
    | zero => exact yields_pure.2 ⟨L, K, S, rfl⟩
    | succ n =>
      unfold abandonRegions
      rw [yields_get_bind, none]
      exact yields_pure.2 ⟨L, K, S, rfl⟩
  | cons r rs ih =>
    obtain ⟨n, rfl⟩ : ∃ k, n = k + 1 := ⟨n - 1, by simp at steps; omega⟩
    obtain ⟨b, vs, e⟩ := List.exists_cons_of_ne_nil (S.tiled r (by simp)).nonempty
    have some : h.catalogue.head = some b.addr := by
      rw [first, S.blocks, List.flatMap_cons, e]
      rfl
    unfold abandonRegions
    rw [yields_get_bind, some]
    refine (abandonRegion_laid K S (by rw [e]; rfl)).bind fun _ h₁ post => ?_
    obtain ⟨L₁, K₁, S₁, given⟩ := post
    have first₁ : h₁.catalogue.head = L₁.blocks.head?.map Block.addr := by
      rw [K₁.catalogue.ends]
      exact List.head?_map
    refine (ih K₁ S₁ (by simpa using steps) first₁).mono fun _ h' post => ?_
    obtain ⟨L', K', S', rest⟩ := post
    refine ⟨L', K', S', ?_⟩
    rw [rest, given, List.map_cons, List.reverse_cons, List.append_assoc]
    rfl

/-- Closing a heap leaves nothing of it. -/
theorem close_laid (K : h.Keeps L) (S : L.Laid rs) :
    Yields E close h fun _ h' => ∃ L', h'.Keeps L' ∧ L'.Laid [] ∧
      L'.transfers = (rs.map fun r => Transfer.unmapped r.span).reverse ++ L.transfers := by
  have steps : rs.length ≤ h.catalogue.length := by
    rw [K.catalogue_length]
    exact S.length_le
  unfold close
  rw [yields_get_bind]
  exact abandonRegions_laid K S steps

end RegionHeap.Heap
