import RegionHeap.Heap.Region
import RegionHeap.Proofs.Ledger.Steps
import RegionHeap.Proofs.Mappings

/-!
# Mapping regions and giving them back

What mapping and unmapping do to the ledger that the heap keeps, and what they record.

* `Heap.openRegion_yields`, `Heap.adopt_yields` — a region is mapped, and its one block becomes the
  last one of the catalogue.
* `Heap.closeRegion_yields` — a region that is one free block is given back.
* `Heap.abandonRegion_yields` — the first region is given back with whatever it holds.
-/

set_option autoImplicit false

namespace RegionHeap

/-- The block with another number. -/
@[simps]
def Block.withId (b : Block) (id : Nat) : Block :=
  { b with id }

/-- The one block of a region that was just mapped, in use and in no chain. -/
def Block.whole (start size : Nat) : Block :=
  ⟨start, true, size, 0, true, false, start⟩

/-- The ledger after a mapping. -/
def Ledger.mapped (L : Ledger) (span : Span) : Ledger :=
  L.withTransfers (.mapped span :: L.transfers)

/-- The ledger after a span was given back, one region fewer being mapped. -/
def Ledger.unmapped (L : Ledger) (span : Span) : Ledger :=
  (L.withTransfers (.unmapped span :: L.transfers)).withRegions (L.regions - 1)

/-- The ledger with one more block at the end, which starts a region. -/
def Ledger.adopt (L : Ledger) (b : Block) : Ledger :=
  ((L.withBlocks (L.blocks ++ [b.withId L.nextId])).withNextId (L.nextId + 1)).withRegions
    (L.regions + 1)

/-- The ledger without the blocks of `run`, those of `bs` remaining. -/
def Ledger.without (L : Ledger) (run bs : List Block) : Ledger :=
  (L.withBlocks bs).withFree (L.free.filter (· ∉ run))

namespace Heap

variable {E : Fault → Prop} {h : Heap} {L : Ledger} {b : Block} {xs ys bs : List Block}

/-- The counters and the history are no part of the memory. -/
theorem Keeps.withRegions (K : h.Keeps L) (regions : Nat) :
    Heap.Keeps { h with regions } (L.withRegions regions) :=
  ⟨K.settings, K.place, K.transfers, rfl, K.nextId, K.spaced, K.headers, K.catalogue, K.listed,
    K.nodupFree, K.freeList, K.aligned⟩

/-! ### Mapping -/

/-- Either the mapping is refused and nothing changes, or its pages are blank from then on. -/
theorem acquire_yields {len : Nat} (K : h.Keeps L)
    (away : ∀ start, L.place L.transfers len = .ok start → ∀ i, start ≤ i →
      i < start + pageCeil len → ¬ L.Headers i) :
    Yields E (acquire len) h fun answer h' =>
      match answer with
      | .error failure => (∃ cause, L.place L.transfers len = .error cause ∧
          failure = .mapFailed len cause ∧ h'.log = .mapFailed len cause :: h.log) ∧
          Moved h (fun _ => False) L h'
      | .ok start => L.place L.transfers len = .ok start ∧ h'.log = h.log ∧
          Moved h (fun i => start ≤ i ∧ i < start + pageCeil len) (L.mapped ⟨start, len⟩) h' := by
  unfold acquire
  rw [yields_get_bind]
  unfold AddressSpace.map
  rw [K.place, K.transfers]
  cases e : L.place L.transfers len with
  | error cause =>
    dsimp only [bind, Except.bind]
    have M := (Moved.refl K fun _ => False).logging (.mapFailed len cause)
    exact yields_record_bind.2 (yields_pure.2 ⟨⟨cause, rfl, rfl, rfl⟩, M⟩)
  | ok start =>
    dsimp only [bind, Except.bind, pure, Except.pure]
    refine yields_set_bind.2 (yields_pure.2 ⟨rfl, rfl, ?_⟩)
    have same : Memory.SameBut (fun i => start ≤ i ∧ i < start + pageCeil len) h.memory
        (h.memory.clear start (pageCeil len)) := by
      intro i hi
      rw [Memory.byte_clear, if_neg hi]
    have M := write_moved (X := fun _ => False) K (fun i hi => away start e i hi.1 hi.2) same
      fun _ => .clear start (pageCeil len)
    have K' := M.keeps
    exact ⟨⟨K'.settings, rfl, rfl, K'.regions, K'.nextId, K'.spaced, K'.headers, K'.catalogue,
      K'.listed, K'.nodupFree, K'.freeList, K'.aligned⟩, M.same, M.numbers, M.strays⟩

/-- Either the mapping is refused and nothing changes, or there is a header in the region. Its mark is
astray until the block is in the catalogue. -/
theorem openRegion_yields {size : Nat} (K : h.Keeps L) (fits : Header.length + size < wordLimit)
    (words : size % wordSize = 0)
    (away : ∀ start, L.place L.transfers (Header.length + size) = .ok start →
      start < wordLimit ∧ start % wordSize = 0 ∧
        ∀ i, start ≤ i → i < start + pageCeil (Header.length + size) → ¬ L.Headers i) :
    Yields E (openRegion size) h fun answer h' =>
      match answer with
      | .error failure => (∃ cause, L.place L.transfers (Header.length + size) = .error cause ∧
          failure = .mapFailed (Header.length + size) cause ∧
          h'.log = .mapFailed (Header.length + size) cause :: h.log) ∧ Moved h (fun _ => False) L h'
      | .ok start => L.place L.transfers (Header.length + size) = .ok start ∧ h'.log = h.log ∧
          MovedBut h (· = start) (fun i => start ≤ i ∧ i < start + pageCeil (Header.length + size))
            (L.mapped ⟨start, Header.length + size⟩) h' ∧
          Block.read h'.memory start = Block.whole start size := by
  unfold openRegion
  rw [yields_lift_bind (Word.add_eq_ok fits)]
  refine (acquire_yields K fun start e => (away start e).2.2).bind fun answer h₁ post => ?_
  cases answer with
  | error failure => exact post
  | ok start =>
    obtain ⟨e, log, M⟩ := post
    obtain ⟨small, aligned, clear⟩ := away start e
    rw [yields_write_bind, yields_write_bind, yields_pure]
    have page := le_pageCeil (Header.length + size)
    have inside : ∀ i, Header.Covers start i → start ≤ i ∧
        i < start + pageCeil (Header.length + size) := by
      intro i hi
      unfold Header.Covers at hi
      omega
    have read : Block.read (Header.setUsed (Header.init h₁.memory start size none false 0) start true)
        start = Block.whole start size := by
      have region : (none : Option Nat).getD start < wordLimit := small
      rw [Block.read_setUsed, Block.read_init (by omega) (by decide) region]
      rfl
    refine ⟨e, log, (M.but _).trans (MovedBut.mono ?_ inside), read⟩
    apply write_moved M.keeps
    · intro i hi
      exact clear i (inside i hi).1 (inside i hi).2
    · intro i hi
      unfold Header.Covers at hi
      have out : i < start ∨ start + Header.length ≤ i := by omega
      unfold Header.length at hi
      rw [byte_setUsed_of_outside (by omega), memory_withMemory, byte_init_of_outside out]
    · intro _
      exact (Header.quiet_init aligned words (by simp) (by decide)).trans (Header.quiet_setUsed true)

/-- The block of a region just mapped becomes the last one of the catalogue. -/
theorem adopt_yields (K : h.Keeps L) (read : Block.read h.memory b.addr = b) (aligned : b.Aligned)
    (spaced : Header.Spaced ((L.blocks ++ [b]).map Block.addr))
    (count : L.regions + 1 < wordLimit) (ids : L.nextId + 1 < wordLimit ∨ E .additionOverflow) :
    Yields E (adopt b.addr) h fun _ h' =>
      Moved h (fun i => L.Headers i ∨ Header.Covers b.addr i) (L.adopt b) h' ∧
        h.Recorded L [.fresh (b.withId L.nextId)] h' (L.adopt b) := by
  unfold adopt
  refine (silent_takeId.yields (takeId_yields K ids fun _ => False)).bind fun id h₁ post => ?_
  obtain ⟨log, rfl, room, M⟩ := post
  have between : ∀ i, Header.Covers b.addr i → ¬ L.Headers i := by
    rintro i covers ⟨x, hx, covers'⟩
    rw [List.map_append, List.map_cons, List.map_nil] at spaced
    have := spaced.clear
    rw [List.pairwise_append] at this
    have := this.2.2 x.addr (List.mem_map_of_mem hx) b.addr (by simp)
    unfold Header.Covers at covers covers'
    omega
  have read₁ : Block.read h₁.memory b.addr = b :=
    (Block.read_congr fun i _ _ => M.same i id).trans read
  rw [yields_write_bind]
  have read₂ : Block.read (h₁.withMemory (Header.setId h₁.memory b.addr L.nextId)).memory b.addr =
      b.withId L.nextId := by
    rw [memory_withMemory, Block.read_setId (by omega), read₁]
    rfl
  have M₂ : Moved h₁ (Header.Covers b.addr) (L.withNextId (L.nextId + 1))
      (h₁.withMemory (Header.setId h₁.memory b.addr L.nextId)) := by
    apply write_moved M.keeps between
    · intro i hi
      apply byte_setId_of_outside
      unfold Header.Covers Header.length at hi
      omega
    · intro numbers
      rw [M.keeps.nextId] at numbers
      exact Header.quiet_setId aligned.addr (Nat.lt_of_succ_le numbers)
  replace M := (M.mono fun i hi => hi.elim).trans
    (M₂.mono fun i (hi : Header.Covers b.addr i) => (.inr hi : L.Headers i ∨ Header.Covers b.addr i))
  replace log : (h₁.withMemory (Header.setId h₁.memory b.addr L.nextId)).log = h.log := log
  generalize h₁.withMemory _ = h₂ at M read₂ log ⊢
  have linked := @linkLast_yields E h₂ _ (b.withId L.nextId) M.keeps read₂
    ⟨aligned.addr, aligned.size, aligned.region⟩ (by simpa using spaced)
  refine M.bind_silent (silent_linkLast _) linked (fun i hi => hi) fun _ h₃ M log₃ => ?_
  have regions : h₃.regions = L.regions := M.keeps.regions
  have listed : Block.read h₃.memory b.addr = b.withId L.nextId :=
    M.keeps.headers (b.withId L.nextId) (by simp)
  rw [yields_get_bind, regions, yields_lift_bind (Word.add_eq_ok count), yields_set_bind, yields_note]
  refine ⟨MovedBut.logging ⟨M.keeps.withRegions (L.regions + 1), M.same, M.numbers, M.strays⟩ _, ?_,
    fun _ => room⟩
  show .fresh (Block.read h₃.memory b.addr) :: h₃.log = _
  rw [listed, log₃, log]
  rfl

/-! ### Unmapping -/

theorem silent_dropRegion : Silent dropRegion := by
  intro h
  unfold dropRegion
  rw [yields_get_bind]
  cases Word.sub h.regions 1 <;> trivial

theorem dropRegion_yields {W : Nat → Prop} (K : h.Keeps L) (some : 0 < L.regions) :
    Yields E dropRegion h fun _ h' => Moved h W (L.withRegions (L.regions - 1)) h' := by
  unfold dropRegion
  rw [yields_get_bind, K.regions, yields_lift_bind (Word.sub_eq_ok some), yields_set]
  exact .of_memory (K.withRegions (L.regions - 1)) W rfl rfl (Nat.le_refl _)

theorem release_yields {W : Nat → Prop} {start len : Nat} (K : h.Keeps L)
    (aligned : start % pageSize = 0) (pos : 0 < len) :
    Yields E (discard (release start len)) h fun _ h' => h'.log = h.log ∧
      Moved h W (L.withTransfers (.unmapped ⟨start, len⟩ :: L.transfers)) h' := by
  refine yields_discard.2 ?_
  unfold release AddressSpace.unmap
  rw [yields_get_bind, if_pos ⟨aligned, pos⟩]
  refine yields_set_bind.2 (yields_pure.2 ⟨rfl, .of_memory ?_ W rfl rfl (Nat.le_refl _)⟩)
  exact ⟨K.settings, K.place, congrArg _ K.transfers, K.regions, K.nextId, K.spaced, K.headers,
    K.catalogue, K.listed, K.nodupFree, K.freeList, K.aligned⟩

/-- A block that is on no free list leaves the catalogue, and its header is dead from then on. -/
theorem unlink_revoke {Q : Unit → Heap → Prop} {rest : Unit → HeapM Unit} (K : h.Keeps L)
    (hL : L.blocks = xs ++ b :: ys) (hf : b ∉ L.free)
    (next : ∀ h', Moved h L.Headers (L.withBlocks (xs ++ ys)) h' → h'.log = h.log →
      Yields E (rest ()) h' Q) :
    Yields E (unlink b.addr >>= fun _ => write (Header.revoke · b.addr) >>= rest) h Q := by
  refine ((silent_unlink _).yields (unlink_yields K hL hf)).bind fun _ h₁ post => ?_
  obtain ⟨log, M, _⟩ := post
  rw [yields_write_bind]
  have hb : b ∈ L.blocks := by simp [hL]
  exact next _ (revoke_moved M (K.aligned b hb).addr
    (fun i covers => K.not_headers_of_removed hL rfl covers) fun i hi => ⟨b, hb, hi⟩) log

theorem without_singleton (nodup : L.free.Nodup) (b : Block) (bs : List Block) :
    (L.delist b).withBlocks bs = L.without [b] bs := by
  unfold Ledger.delist Ledger.without
  rw [erase_eq_filter_singleton nodup]
  rfl

/-- Taking out some blocks and then others takes out all of them. -/
theorem without_without (vs ws bs cs : List Block) :
    (L.without vs bs).without ws cs = L.without (vs ++ ws) cs := by
  unfold Ledger.without
  rw [Ledger.withFree_free, List.filter_filter]
  have both : L.free.filter (fun x => decide (x ∉ ws) && decide (x ∉ vs)) =
      L.free.filter (· ∉ vs ++ ws) := by
    apply List.filter_congr
    intro x _
    rw [← Bool.decide_and]
    apply decide_eq_decide.2
    rw [List.mem_append, not_or, and_comm]
  rw [both]
  rfl

/-- A region that is one free block is given back. -/
theorem closeRegion_yields (K : h.Keeps L) (hL : L.blocks = xs ++ b :: ys) (hb : b ∈ L.free)
    (some : 0 < L.regions) (aligned : b.addr % pageSize = 0) (fits : b.extent < wordLimit) :
    Yields E (closeRegion b.addr) h fun _ h' => h'.log = .closing b :: h.log ∧
      Moved h L.Headers ((L.without [b] (xs ++ ys)).unmapped ⟨b.addr, b.extent⟩) h' := by
  have mem : b ∈ L.blocks := by simp [hL]
  unfold closeRegion
  rw [yields_note_bind, yields_look_bind, memory_logging, K.headers b mem, K.size_eq mem,
    yields_lift_bind (Word.add_eq_ok fits)]
  have M := (Moved.refl K L.Headers).logging (.closing b)
  refine M.bind_silent (silent_unlinkFree _) (unlinkFree_yields M.keeps hb) (fun i hi => hi)
    fun _ h₁ M log₁ => ?_
  have blocks : (L.delist b).blocks = xs ++ b :: ys := hL
  refine unlink_revoke M.keeps blocks K.nodupFree.not_mem_erase fun h₂ M' log₂ => ?_
  replace M := M.trans M'
  rw [without_singleton K.nodupFree] at M
  refine M.bind_silent silent_dropRegion (dropRegion_yields M.keeps some) (fun i hi => hi)
    fun _ h₃ M log₃ => ?_
  have len : 0 < Header.length + b.size := by
    unfold Header.length
    omega
  refine (@release_yields E h₃ _ L.Headers _ _ M.keeps aligned len).mono fun _ h₄ post => ?_
  exact ⟨((post.1.trans log₃).trans log₂).trans log₁, M.trans post.2⟩

/-- A block is taken out of both chains for good. -/
theorem discardBlock_yields (K : h.Keeps L) (hL : L.blocks = xs ++ b :: ys)
    (free : b ∈ L.free ↔ b.used = false) :
    Yields E (discardBlock b.addr) h fun _ h' =>
      Moved h L.Headers (L.without [b] (xs ++ ys)) h' := by
  unfold discardBlock
  rw [yields_look_bind, K.used_eq (by simp [hL])]
  cases e : b.used with
  | false =>
    have M := Moved.refl K L.Headers
    refine M.bind (unlinkFree_yields K (free.2 e)) (fun i hi => hi) fun _ h₁ M => ?_
    have blocks : (L.delist b).blocks = xs ++ b :: ys := hL
    refine unlink_revoke M.keeps blocks K.nodupFree.not_mem_erase fun h₂ M' _ => ?_
    rw [without_singleton K.nodupFree] at M'
    exact M.trans M'
  | true =>
    have hf : b ∉ L.free := by
      intro hx
      rw [free.1 hx] at e
      cases e
    refine unlink_revoke K hL hf fun h₁ M _ => ?_
    have : L.delist b = L := by
      unfold Ledger.delist
      rw [List.erase_of_not_mem hf]
      rfl
    rw [← without_singleton K.nodupFree, this]
    exact M

/-- The region's blocks, one after the other, are taken out of both chains for good. -/
theorem discardFrom_yields {n : Nat} {vs : List Block} (K : h.Keeps L)
    (hL : L.blocks = b :: (vs ++ ys)) (same : ∀ x ∈ vs, x.region = b.region)
    (stop : ∀ y ∈ ys.head?, y.region ≠ b.region)
    (free : ∀ x ∈ b :: vs, x ∈ L.free ↔ x.used = false) (steps : vs.length ≤ n) :
    Yields E (discardFrom n b.addr) h fun _ h' =>
      Moved h L.Headers (L.without (b :: vs) ys) h' := by
  induction vs generalizing b L h n with
  | nil =>
    have first := @discardBlock_yields E h L b [] ys K hL (free b (by simp))
    cases n with
    | zero => exact first
    | succ n =>
      unfold discardFrom
      rw [yields_look_bind, @nextInRegion_eq_none h L b [] ys K hL stop]
      exact first.bind fun _ h₁ M => yields_pure.2 M
  | cons v vs ih =>
    have first := @discardBlock_yields E h L b [] (v :: vs ++ ys) K hL (free b (by simp))
    rw [List.nil_append] at first
    obtain ⟨n, rfl⟩ : ∃ k, n = k + 1 := ⟨n - 1, by simp at steps; omega⟩
    have v_region : v.region = b.region := same v (by simp)
    unfold discardFrom
    rw [yields_look_bind, @nextInRegion_eq_some h L b [] (vs ++ ys) v K hL v_region]
    refine (Moved.refl K L.Headers).bind first (fun i hi => hi) fun _ h₁ M => ?_
    have nodup := K.nodup
    rw [hL, List.nodup_cons] at nodup
    have free' : ∀ x ∈ v :: vs, x ∈ (L.without [b] (v :: vs ++ ys)).free ↔ x.used = false := by
      intro x hx
      have ne : x ≠ b := by
        rintro rfl
        exact nodup.1 (by simp at hx ⊢; tauto)
      rw [← free x (List.mem_cons_of_mem _ hx)]
      simp [Ledger.without, ne]
    have rest := @ih h₁ _ v n M.keeps rfl (fun x hx => by rw [same x (by simp [hx]), v_region])
      (by rwa [v_region]) free' (by simp at steps; omega)
    refine rest.mono fun _ h₂ M' => ?_
    rw [without_without] at M'
    refine M.trans (M'.mono ?_)
    rintro i ⟨x, hx, covers⟩
    exact ⟨x, by rw [hL]; exact List.mem_cons_of_mem _ hx, covers⟩

/-- The blocks of a region are found from its first one on. -/
theorem regionFrom_eq {n : Nat} {vs : List Block} (K : h.Keeps L)
    (hL : L.blocks = xs ++ b :: (vs ++ ys)) (same : ∀ x ∈ vs, x.region = b.region)
    (stop : ∀ y ∈ ys.head?, y.region ≠ b.region) (steps : vs.length ≤ n) :
    Catalogue.regionFrom h.memory n b.addr = (b :: vs).map Block.addr := by
  induction vs generalizing xs b n with
  | nil =>
    cases n with
    | zero => rfl
    | succ n =>
      unfold Catalogue.regionFrom
      rw [nextInRegion_eq_none K hL stop]
      rfl
  | cons v vs ih =>
    obtain ⟨n, rfl⟩ : ∃ k, n = k + 1 := ⟨n - 1, by simp at steps; omega⟩
    have v_region : v.region = b.region := same v (by simp)
    have hL' : L.blocks = (xs ++ [b]) ++ v :: (vs ++ ys) := by simp [hL]
    have rest := @ih v (xs ++ [b]) n hL' (fun x hx => by rw [same x (by simp [hx]), v_region])
      (by rwa [v_region]) (by simp at steps; omega)
    unfold Catalogue.regionFrom
    rw [nextInRegion_eq_some K hL v_region]
    dsimp only
    rw [rest]
    rfl

/-- The bytes that were mapped for a region are those that its blocks take. -/
theorem regionLength_eq {vs : List Block} (K : h.Keeps L)
    (hL : L.blocks = xs ++ b :: (vs ++ ys)) (same : ∀ x ∈ vs, x.region = b.region)
    (stop : ∀ y ∈ ys.head?, y.region ≠ b.region)
    (fits : ((b :: vs).map Block.extent).sum < wordLimit) :
    h.regionLength b.addr = .ok ((b :: vs).map Block.extent).sum := by
  have steps : vs.length ≤ h.catalogue.length := by
    rw [K.catalogue_length, hL]
    simp
    omega
  unfold regionLength regionBlocks
  rw [regionFrom_eq K hL same stop steps, List.map_map]
  have extents : (b :: vs).map ((fun a => Header.length + Header.size h.memory a) ∘ Block.addr) =
      (b :: vs).map Block.extent := by
    apply List.map_congr_left
    intro x hx
    rw [Function.comp_apply, K.size_eq]
    · rfl
    · rw [hL, List.mem_append, ← List.cons_append, List.mem_append]
      exact .inr (.inl hx)
  rw [extents, Word.sum_eq_ok fits]

/-- The first region is given back, whatever it holds. -/
theorem abandonRegion_yields {vs : List Block} (K : h.Keeps L) (hL : L.blocks = b :: (vs ++ ys))
    (same : ∀ x ∈ vs, x.region = b.region) (stop : ∀ y ∈ ys.head?, y.region ≠ b.region)
    (free : ∀ x ∈ b :: vs, x ∈ L.free ↔ x.used = false) (some : 0 < L.regions)
    (aligned : b.addr % pageSize = 0) (fits : ((b :: vs).map Block.extent).sum < wordLimit) :
    Yields E (abandonRegion b.addr) h fun _ h' => Moved h L.Headers
      ((L.without (b :: vs) ys).unmapped ⟨b.addr, ((b :: vs).map Block.extent).sum⟩) h' := by
  have steps : vs.length ≤ h.catalogue.length := by
    rw [K.catalogue_length, hL]
    simp
    omega
  have pos : 0 < ((b :: vs).map Block.extent).sum := by
    simp only [List.map_cons, List.sum_cons]
    unfold Block.extent Header.length
    omega
  unfold abandonRegion
  rw [yields_get_bind, yields_lift_bind (@regionLength_eq h L b [] ys vs K hL same stop fits)]
  have M := Moved.refl K L.Headers
  refine M.bind (discardFrom_yields K hL same stop free steps) (fun i hi => hi) fun _ h₁ M => ?_
  refine M.bind (dropRegion_yields M.keeps some) (fun i hi => hi) fun _ h₂ M => ?_
  exact (release_yields M.keeps aligned pos).mono fun _ h₃ post => M.trans post.2

end Heap

end RegionHeap
