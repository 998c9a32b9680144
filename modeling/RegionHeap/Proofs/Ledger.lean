import Mathlib.Algebra.Ring.Nat
import Mathlib.Data.List.Pairwise
import Mathlib.Data.List.Sort
import Mathlib.Tactic.Simps.Basic
import RegionHeap.Proofs.ChainEdits
import RegionHeap.Proofs.Yields

/-!
# Ledgers

A ledger is what a heap's headers, chains and counters say, as plain data: the blocks in catalogue
order, the free list in its order, and the numbers beside them. `Heap.Keeps` says that a heap's memory
spells a ledger. The small steps of calls are then edits of lists.

* `Word.sum_eq_ok`, `Walk.total_ofList` — a sum that a word can hold is the sum of the numbers.
* `Header.Spaced` — headers that leave room for each other.
* `Heap.Keeps.of_freeEdit`, `Heap.Keeps.of_catalogueEdit` — an edit of one chain leaves the headers and
  the other chain alone.
* `Heap.Keeps.amend` — writing fields of one header changes one block.
* `Heap.Keeps.of_bytes` — writing between the headers changes no block.
-/

set_option autoImplicit false

namespace RegionHeap

/-! ### Sums of words -/

namespace Word

theorem foldlM_add_eq_ok {xs : List Nat} {start : Nat} (h : start + xs.sum < wordLimit) :
    xs.foldlM add start = .ok (start + xs.sum) := by
  induction xs generalizing start with
  | nil => rfl
  | cons x xs ih =>
    simp only [List.sum_cons] at h ⊢
    rw [List.foldlM_cons, add_eq_ok (by omega)]
    show xs.foldlM add (start + x) = _
    rw [ih (by omega), Nat.add_assoc]

theorem sum_eq_ok {xs : List Nat} (h : xs.sum < wordLimit) : sum xs = .ok xs.sum := by
  have := @foldlM_add_eq_ok xs 0 (by omega)
  rwa [Nat.zero_add] at this

end Word

theorem Walk.total_ofList {α : Type} {f : α → Nat} {xs : List α}
    (h : (xs.map f).sum < wordLimit) :
    (ofList xs).total f = .ok (xs.map f).sum := by
  rw [total, ofList, Word.sum_eq_ok h]
  rfl

/-! ### Headers with room for each other -/

/-- Headers at these addresses lie in the address range and do not overlap. -/
structure Header.Spaced (as : List Nat) : Prop where
  address : ∀ a ∈ as, 0 < a ∧ a + Header.length ≤ wordLimit
  clear : as.Pairwise fun a b => a + Header.length ≤ b ∨ b + Header.length ≤ a

namespace Header.Spaced

variable {as cs : List Nat} {a b i : Nat}

theorem sublist (h : Spaced as) (sub : cs.Sublist as) : Spaced cs where
  address c hc := h.address c (sub.subset hc)
  clear := h.clear.sublist sub

theorem clear_of_ne (h : Spaced as) (ha : a ∈ as) (hb : b ∈ as) (ne : a ≠ b) :
    a + Header.length ≤ b ∨ b + Header.length ≤ a := by
  have symm : Std.Symm fun a b => a + Header.length ≤ b ∨ b + Header.length ≤ a :=
    ⟨fun _ _ h => h.symm⟩
  exact h.clear.forall ha hb ne

theorem nodup (h : Spaced as) : as.Nodup := by
  apply h.clear.imp
  intro a b hab
  unfold Header.length at hab
  omega

theorem nodes (h : Spaced as) : Chain.Nodes as where
  address a ha := by
    obtain ⟨pos, lt⟩ := h.address a ha
    unfold Header.length at lt
    omega
  nodup := h.nodup
  apart a ha b hb ne := by
    have := h.clear_of_ne ha hb ne
    unfold Chain.Apart wordSize
    unfold Header.length at this
    omega

/-- One more header fits where it overlaps no other one. -/
theorem insert (h : Spaced (as ++ cs)) (pos : 0 < a) (limit : a + Header.length ≤ wordLimit)
    (clear : ∀ b ∈ as ++ cs, a + Header.length ≤ b ∨ b + Header.length ≤ a) :
    Spaced (as ++ a :: cs) where
  address b hb := by
    rw [List.perm_middle.mem_iff] at hb
    rcases List.mem_cons.1 hb with rfl | hb
    · exact ⟨pos, limit⟩
    · exact h.address b hb
  clear := by
    rw [List.perm_middle.pairwise_iff Or.symm, List.pairwise_cons]
    exact ⟨clear, h.clear⟩

/-- There is no room for as many headers as there are addresses. -/
theorem length_lt (h : Spaced as) : as.length < wordLimit := by
  have sub : as ⊆ List.range' 1 (wordLimit - 1) := by
    intro a ha
    obtain ⟨pos, lt⟩ := h.address a ha
    unfold Header.length at lt
    rw [List.mem_range'_1]
    omega
  have := (List.subperm_of_subset h.nodup sub).length_le
  rw [List.length_range'] at this
  have pos : 0 < wordLimit := by decide
  omega

/-- The fields of a header and its links of the catalogue are no links of the free list. -/
theorem outside_freeHook (h : Spaced as) (ha : a ∈ as) (hi : a ≤ i) (hi' : i < a + 56) :
    Chain.Outside Header.freeHook as i := by
  intro b hb
  unfold Header.freeHook wordSize
  by_cases ne : a = b
  · omega
  · have := h.clear_of_ne ha hb ne
    unfold Header.length at this
    omega

/-- The fields of a header and its links of the free list are no links of the catalogue. -/
theorem outside_catalogueHook (h : Spaced as) (ha : a ∈ as) (hi : a ≤ i) (hi' : i < a + 72)
    (hl : i < a + 40 ∨ a + 56 ≤ i) : Chain.Outside Header.catalogueHook as i := by
  intro b hb
  unfold Header.catalogueHook wordSize
  by_cases ne : a = b
  · omega
  · have := h.clear_of_ne ha hb ne
    unfold Header.length at this
    omega

end Header.Spaced

/-! ### Ledgers -/

namespace Block

/-- The block, handed out or not. -/
@[simps]
def withUsed (b : Block) (used : Bool) : Block :=
  { b with used }

/-- The block with another number of bytes. -/
@[simps]
def withSize (b : Block) (size : Nat) : Block :=
  { b with size }

@[simp]
theorem finish_withUsed (b : Block) (u : Bool) : (b.withUsed u).finish = b.finish := rfl

/-- Where a block and its region start, and how many bytes it has, are whole words. -/
structure Aligned (b : Block) : Prop where
  addr : b.addr % wordSize = 0
  size : b.size % wordSize = 0
  region : b.region % wordSize = 0

theorem Aligned.withUsed {b : Block} (h : b.Aligned) (used : Bool) : (b.withUsed used).Aligned :=
  ⟨h.addr, h.size, h.region⟩

theorem Aligned.withSize {b : Block} {size : Nat} (h : b.Aligned) (words : size % wordSize = 0) :
    (b.withSize size).Aligned :=
  ⟨h.addr, words, h.region⟩

end Block

/-- Links in aligned blocks are aligned. -/
theorem Chain.Aligned.of_blocks {hook : Nat} {bs : List Block} (words : hook % wordSize = 0)
    (aligned : ∀ b ∈ bs, b.Aligned) : Chain.Aligned hook (bs.map Block.addr) where
  hook := words
  nodes a ha := by
    obtain ⟨b, hb, rfl⟩ := List.mem_map.1 ha
    exact (aligned b hb).addr

/-- Whether a block comes before another one of the free list by its size. -/
def Block.NoLarger (x y : Block) : Prop :=
  x.size ≤ y.size

instance : DecidableRel Block.NoLarger :=
  fun x y => inferInstanceAs (Decidable (x.size ≤ y.size))

instance : Std.Total Block.NoLarger :=
  ⟨fun x y => Nat.le_total x.size y.size⟩

instance : IsTrans Block Block.NoLarger :=
  ⟨fun _ _ _ h h' => Nat.le_trans h h'⟩

theorem erase_eq_filter_singleton {F : List Block} (nodup : F.Nodup) (r : Block) :
    F.erase r = F.filter (· ∉ [r]) := by
  rw [nodup.erase_eq_filter]
  apply List.filter_congr
  intro x _
  simp [bne, beq_eq_decide]

/-- A member that occurs once is taken out of a list. -/
theorem erase_middle {α : Type} [DecidableEq α] {us vs : List α} {b : α}
    (nodup : (us ++ b :: vs).Nodup) : (us ++ b :: vs).erase b = us ++ vs := by
  rw [List.nodup_middle, List.nodup_cons, List.mem_append, not_or] at nodup
  rw [List.erase_append_right _ nodup.1.1, List.erase_cons_head]

/-- What a heap's headers, chains and counters say. -/
structure Ledger where
  settings : Settings
  place : Placement
  /-- What was mapped and given back, latest first. -/
  transfers : List Transfer
  /-- All blocks in catalogue order. -/
  blocks : List Block
  /-- The blocks of the free list in its order. -/
  free : List Block
  /-- Regions that are mapped. -/
  regions : Nat
  /-- The number of the next block. -/
  nextId : Nat

namespace Ledger

/-- The ledger with other blocks. -/
@[simps]
def withBlocks (L : Ledger) (blocks : List Block) : Ledger :=
  { L with blocks }

/-- The ledger with another free list. -/
@[simps]
def withFree (L : Ledger) (free : List Block) : Ledger :=
  { L with free }

/-- The ledger with another number for the next block. -/
@[simps]
def withNextId (L : Ledger) (nextId : Nat) : Ledger :=
  { L with nextId }

/-- The ledger with other transfers. -/
@[simps]
def withTransfers (L : Ledger) (transfers : List Transfer) : Ledger :=
  { L with transfers }

/-- The ledger with another number of regions. -/
@[simps]
def withRegions (L : Ledger) (regions : Nat) : Ledger :=
  { L with regions }

/-- The bytes of a ledger's headers. -/
def Headers (L : Ledger) (i : Nat) : Prop :=
  ∃ b ∈ L.blocks, Header.Covers b.addr i

/-- The ledger with `b` put on the free list, in front of the first block that is as large. -/
def enlist (L : Ledger) (b : Block) : Ledger :=
  L.withFree (L.free.orderedInsert Block.NoLarger b)

/-- The ledger with `b` off the free list. -/
def delist (L : Ledger) (b : Block) : Ledger :=
  L.withFree (L.free.erase b)

theorem headers_iff {L : Ledger} {i : Nat} :
    L.Headers i ↔ ∃ a ∈ L.blocks.map Block.addr, Header.Covers a i := by
  simp [Headers]

/-- No header lies in the payload of `b`, which lies in the address range. -/
structure Owns (L : Ledger) (b : Block) : Prop where
  finish_le : b.finish ≤ wordLimit
  clear : ∀ x ∈ L.blocks, x.payload ≤ b.payload ∨ b.finish ≤ x.addr

section Addresses

variable {L L' : Ledger} (addrs : L.blocks.map Block.addr = L'.blocks.map Block.addr)

include addrs

/-- Where the headers are depends on the addresses of the blocks only. -/
theorem Headers.of_addrs {i : Nat} (hi : L.Headers i) : L'.Headers i := by
  rw [headers_iff] at *
  rwa [← addrs]

theorem Owns.of_addrs {b b' : Block} (own : L.Owns b) (addr : b'.addr = b.addr)
    (size : b'.size = b.size) : L'.Owns b' := by
  have payload : b'.payload = b.payload := congrArg Header.payload addr
  have finish : b'.finish = b.finish := by
    unfold Block.finish
    rw [payload, size]
  refine ⟨finish ▸ own.finish_le, ?_⟩
  intro x hx
  have hx := List.mem_map_of_mem (f := Block.addr) hx
  rw [← addrs] at hx
  obtain ⟨y, hy, e⟩ := List.mem_map.1 hx
  have := own.clear y hy
  rw [payload, finish, ← e]
  unfold Block.payload at *
  rwa [e] at *

end Addresses

end Ledger

/-- The heap's memory and counters spell the ledger. -/
structure Heap.Keeps (h : Heap) (L : Ledger) : Prop where
  settings : h.settings = L.settings
  place : h.space.place = L.place
  transfers : h.space.transfers = L.transfers
  regions : h.regions = L.regions
  nextId : h.nextId = L.nextId
  spaced : Header.Spaced (L.blocks.map Block.addr)
  headers : ∀ b ∈ L.blocks, Block.read h.memory b.addr = b
  catalogue : h.catalogue.Holds h.memory (L.blocks.map Block.addr)
  listed : ∀ b ∈ L.free, b ∈ L.blocks
  nodupFree : L.free.Nodup
  freeList : h.freeList.Holds h.memory (L.free.map Block.addr)
  aligned : ∀ b ∈ L.blocks, b.Aligned

namespace Heap.Keeps

variable {h : Heap} {L : Ledger} {b x : Block}

theorem addr_mem (hb : b ∈ L.blocks) : b.addr ∈ L.blocks.map Block.addr :=
  List.mem_map_of_mem hb

/-- Blocks are told apart by their addresses. -/
theorem eq_of_addr (K : h.Keeps L) (hb : b ∈ L.blocks) (hx : x ∈ L.blocks)
    (e : b.addr = x.addr) : b = x := by
  rw [← K.headers b hb, ← K.headers x hx, e]

theorem nodup (K : h.Keeps L) : L.blocks.Nodup :=
  K.spaced.nodup.of_map

theorem catalogue_length (K : h.Keeps L) : h.catalogue.length = L.blocks.length := by
  rw [K.catalogue.ends]
  simp [Chain.ofNodes]

theorem intact_eq (K : h.Keeps L) (hb : b ∈ L.blocks) : Header.intact h.memory b.addr = b.intact :=
  congrArg Block.intact (K.headers b hb)

theorem size_eq (K : h.Keeps L) (hb : b ∈ L.blocks) : Header.size h.memory b.addr = b.size :=
  congrArg Block.size (K.headers b hb)

theorem used_eq (K : h.Keeps L) (hb : b ∈ L.blocks) : Header.used h.memory b.addr = b.used :=
  congrArg Block.used (K.headers b hb)

theorem fromBreak_eq (K : h.Keeps L) (hb : b ∈ L.blocks) :
    Header.fromBreak h.memory b.addr = b.fromBreak :=
  congrArg Block.fromBreak (K.headers b hb)

theorem region_eq (K : h.Keeps L) (hb : b ∈ L.blocks) : Header.region h.memory b.addr = b.region :=
  congrArg Block.region (K.headers b hb)

theorem size_lt (K : h.Keeps L) (hb : b ∈ L.blocks) : b.size < wordLimit := by
  rw [← K.size_eq hb]
  exact Memory.word_lt _ _

theorem region_lt (K : h.Keeps L) (hb : b ∈ L.blocks) : b.region < wordLimit := by
  rw [← K.region_eq hb]
  exact Memory.word_lt _ _

theorem free_nodes (K : h.Keeps L) {free : List Block} (listed : ∀ b ∈ free, b ∈ L.blocks)
    (nodup : free.Nodup) : Chain.Nodes (free.map Block.addr) := by
  apply K.spaced.nodes.of_subset
  · intro a ha
    obtain ⟨b, hb, rfl⟩ := List.mem_map.1 ha
    exact addr_mem (listed b hb)
  · apply List.Nodup.map_on _ nodup
    intro b hb x hx e
    exact K.eq_of_addr (listed b hb) (listed x hx) e

theorem nodup_enlist (K : h.Keeps L) (hf : b ∉ L.free) : (L.enlist b).free.Nodup :=
  (List.perm_orderedInsert Block.NoLarger b L.free).nodup_iff.2 (List.nodup_cons.2 ⟨hf, K.nodupFree⟩)

theorem listed_enlist (K : h.Keeps L) (hb : b ∈ L.blocks) : ∀ x ∈ (L.enlist b).free, x ∈ L.blocks := by
  intro x hx
  rcases (List.mem_orderedInsert _).1 hx with rfl | hx
  · exact hb
  · exact K.listed x hx

theorem free_length_lt (K : h.Keeps L) {free : List Block} (listed : ∀ b ∈ free, b ∈ L.blocks)
    (nodup : free.Nodup) : free.length < wordLimit := by
  have := (List.subperm_of_subset nodup listed).length_le
  have := K.spaced.length_lt
  rw [List.length_map] at this
  omega

/-- Where the header of `b` is, there is none once `b` is not among the blocks. -/
theorem not_headers_of_notMem {L' : Ledger} {i : Nat} (K : h.Keeps L) (hb : b ∈ L.blocks)
    (sub : L'.blocks.map Block.addr ⊆ L.blocks.map Block.addr)
    (off : b.addr ∉ L'.blocks.map Block.addr) (covers : Header.Covers b.addr i) : ¬ L'.Headers i := by
  intro hi
  obtain ⟨a, ha, covers'⟩ := Ledger.headers_iff.1 hi
  have ne : b.addr ≠ a := fun e => off (e ▸ ha)
  have := K.spaced.clear_of_ne (addr_mem hb) (sub ha) ne
  unfold Header.Covers at covers covers'
  omega

/-- Where the header of `b` is, there is none once `b` is taken out. -/
theorem not_headers_of_removed {xs ys : List Block} {L' : Ledger} {i : Nat} (K : h.Keeps L)
    (hL : L.blocks = xs ++ b :: ys) (addrs : L'.blocks.map Block.addr = (xs ++ ys).map Block.addr)
    (covers : Header.Covers b.addr i) : ¬ L'.Headers i := by
  have all : L.blocks.map Block.addr = xs.map Block.addr ++ b.addr :: ys.map Block.addr := by
    rw [hL, List.map_append, List.map_cons]
  have distinct := K.spaced.nodup
  rw [all, List.nodup_middle, List.nodup_cons, ← List.map_append] at distinct
  refine K.not_headers_of_notMem (by simp [hL]) ?_ (addrs ▸ distinct.1) covers
  rw [addrs, all, List.map_append]
  exact (List.sublist_cons_self _ _).append_left _ |>.subset

/-- Events are no part of the ledger. -/
theorem logging (K : h.Keeps L) (e : Event) : (h.logging e).Keeps L :=
  ⟨K.settings, K.place, K.transfers, K.regions, K.nextId, K.spaced, K.headers, K.catalogue,
    K.listed, K.nodupFree, K.freeList, K.aligned⟩

/-! ### Edits of a chain -/

/-- Links of the free list are bytes of headers. -/
theorem headers_of_not_outside {hook : Nat} {ws : List Nat} {i : Nat} (hook_le : hook ≤ 56)
    (hws : ∀ w ∈ ws, w ∈ L.blocks.map Block.addr) (hi : ¬ L.Headers i) :
    Chain.Outside hook ws i := by
  intro w hw
  obtain ⟨b, hb, rfl⟩ := List.mem_map.1 (hws w hw)
  have : ¬ Header.Covers b.addr i := fun hc => hi ⟨b, hb, hc⟩
  unfold Header.Covers Header.length at this
  unfold wordSize
  omega

/-- An edit of the free list leaves the headers and the catalogue alone. -/
theorem of_freeEdit (K : h.Keeps L) {free : List Block} {m : Memory} {ws : List Nat}
    (listed : ∀ b ∈ free, b ∈ L.blocks) (nodup : free.Nodup)
    (holds : (Chain.ofNodes (free.map Block.addr) : FreeList).Holds m (free.map Block.addr))
    (hws : ∀ w ∈ ws, w ∈ L.blocks.map Block.addr)
    (frame : ∀ i, Chain.Outside Header.freeHook ws i → m.byte i = h.memory.byte i) :
    Heap.Keeps { h.withMemory m with freeList := Chain.ofNodes (free.map Block.addr) }
        (L.withFree free) ∧ Memory.SameBut L.Headers h.memory m := by
  have near : ∀ a ∈ L.blocks.map Block.addr, ∀ i, a ≤ i → i < a + 56 →
      m.byte i = h.memory.byte i := by
    intro a ha i hi hi'
    exact frame i ((K.spaced.outside_freeHook ha hi hi').mono hws)
  constructor
  · refine ⟨K.settings, K.place, K.transfers, K.regions, K.nextId, K.spaced, ?_, ?_, listed, nodup,
      holds, K.aligned⟩
    · intro b hb
      refine (Block.read_congr ?_).trans (K.headers b hb)
      intro i hi hi'
      exact near _ (addr_mem hb) i hi (by omega)
    · apply K.catalogue.of_bytes
      intro a ha i hi hi'
      unfold Header.catalogueHook wordSize at *
      exact near a ha i (by omega) (by omega)
  · intro i hi
    exact frame i (headers_of_not_outside (by decide) hws hi)

/-- An edit of the catalogue leaves the headers and the free list alone. -/
theorem of_catalogueEdit (K : h.Keeps L) {blocks : List Block} {m : Memory} {ws : List Nat}
    (spaced : Header.Spaced ws) (hws : ∀ b ∈ blocks, b.addr ∈ ws)
    (sublist : (blocks.map Block.addr).Sublist ws)
    (headers : ∀ b ∈ blocks, Block.read h.memory b.addr = b) (aligned : ∀ b ∈ blocks, b.Aligned)
    (listed : ∀ b ∈ L.free, b ∈ blocks)
    (holds : (Chain.ofNodes (blocks.map Block.addr) : Catalogue).Holds m (blocks.map Block.addr))
    (frame : ∀ i, Chain.Outside Header.catalogueHook ws i → m.byte i = h.memory.byte i) :
    Heap.Keeps { h.withMemory m with catalogue := Chain.ofNodes (blocks.map Block.addr) }
        (L.withBlocks blocks) := by
  refine ⟨K.settings, K.place, K.transfers, K.regions, K.nextId, spaced.sublist sublist, ?_, holds,
    listed, K.nodupFree, ?_, aligned⟩
  · intro b hb
    refine (Block.read_congr ?_).trans (headers b hb)
    intro i hi hi'
    exact frame i (spaced.outside_catalogueHook (hws b hb) hi (by omega) (by omega))
  · apply K.freeList.of_bytes
    intro a ha i hi hi'
    obtain ⟨b, hb, rfl⟩ := List.mem_map.1 ha
    unfold Header.freeHook wordSize at *
    exact frame i (spaced.outside_catalogueHook (hws b (listed b hb)) (by omega) (by omega)
      (by omega))

/-! ### Writes to fields and between headers -/

/-- The chains are in the last 32 bytes of the headers. -/
theorem chains_of_bytes (K : h.Keeps L) {m : Memory} (links : ∀ b ∈ L.blocks, ∀ i,
    b.addr + 40 ≤ i → i < b.addr + 72 → m.byte i = h.memory.byte i) :
    h.catalogue.Holds m (L.blocks.map Block.addr) ∧ h.freeList.Holds m (L.free.map Block.addr) := by
  constructor
  · apply K.catalogue.of_bytes
    intro a ha i hi hi'
    obtain ⟨b, hb, rfl⟩ := List.mem_map.1 ha
    unfold Header.catalogueHook wordSize at *
    exact links b hb i (by omega) (by omega)
  · apply K.freeList.of_bytes
    intro a ha i hi hi'
    obtain ⟨b, hb, rfl⟩ := List.mem_map.1 ha
    unfold Header.freeHook wordSize at *
    exact links b (K.listed b hb) i (by omega) (by omega)

/-- Bytes outside the headers do not matter. -/
theorem of_bytes (K : h.Keeps L) {m : Memory}
    (same : ∀ i, L.Headers i → m.byte i = h.memory.byte i) : (h.withMemory m).Keeps L := by
  have near : ∀ b ∈ L.blocks, ∀ i, b.addr ≤ i → i < b.addr + 72 → m.byte i = h.memory.byte i := by
    intro b hb i hi hi'
    exact same i ⟨b, hb, hi, hi'⟩
  obtain ⟨catalogue, freeList⟩ := K.chains_of_bytes fun b hb i hi hi' => near b hb i (by omega) hi'
  refine ⟨K.settings, K.place, K.transfers, K.regions, K.nextId, K.spaced, ?_, catalogue, K.listed,
    K.nodupFree, freeList, K.aligned⟩
  intro b hb
  refine (Block.read_congr ?_).trans (K.headers b hb)
  intro i hi hi'
  exact near b hb i hi (by omega)

end Heap.Keeps

/-- The block `b'` in the place of `b`, every other block as it is. -/
def Block.swap (b b' x : Block) : Block :=
  if x = b then b' else x

theorem Block.addr_swap {b b' : Block} (e : b'.addr = b.addr) (x : Block) :
    (Block.swap b b' x).addr = x.addr := by
  unfold Block.swap
  split
  · next hx => rw [e, hx]
  · rfl

theorem map_swap_of_notMem {b b' : Block} {xs : List Block} (h : b ∉ xs) :
    xs.map (Block.swap b b') = xs := by
  have same : ∀ x ∈ xs, Block.swap b b' x = id x := by
    intro x hx
    unfold Block.swap
    rw [if_neg, id]
    rintro rfl
    exact h hx
  rw [List.map_congr_left same, List.map_id]

theorem map_swap_zipper {b b' : Block} {xs ys : List Block} (hx : b ∉ xs) (hy : b ∉ ys) :
    (xs ++ b :: ys).map (Block.swap b b') = xs ++ b' :: ys := by
  rw [List.map_append, List.map_cons, map_swap_of_notMem hx, map_swap_of_notMem hy]
  simp [Block.swap]

/-- The ledger with `b'` in the place of `b`. -/
def Ledger.amend (L : Ledger) (b b' : Block) : Ledger :=
  (L.withBlocks (L.blocks.map (Block.swap b b'))).withFree (L.free.map (Block.swap b b'))

theorem Ledger.addr_amend {L : Ledger} {b b' : Block} (e : b'.addr = b.addr) :
    (L.amend b b').blocks.map Block.addr = L.blocks.map Block.addr := by
  unfold Ledger.amend
  simp only [Ledger.withFree_blocks, Ledger.withBlocks_blocks, List.map_map]
  exact List.map_congr_left fun x _ => Block.addr_swap e x

theorem Ledger.addr_amend_free {L : Ledger} {b b' : Block} (e : b'.addr = b.addr) :
    (L.amend b b').free.map Block.addr = L.free.map Block.addr := by
  unfold Ledger.amend
  simp only [Ledger.withFree_free, List.map_map]
  exact List.map_congr_left fun x _ => Block.addr_swap e x

theorem Heap.Keeps.amend_eq {h : Heap} {L : Ledger} {b b' : Block} {xs ys : List Block}
    (K : h.Keeps L) (hL : L.blocks = xs ++ b :: ys) (hf : b ∉ L.free) :
    L.amend b b' = L.withBlocks (xs ++ b' :: ys) := by
  have nodup := K.nodup
  rw [hL, List.nodup_middle, List.nodup_cons, List.mem_append, not_or] at nodup
  unfold Ledger.amend
  rw [hL, map_swap_zipper nodup.1.1 nodup.1.2, map_swap_of_notMem hf]
  rfl

/-- Writing fields of one header changes one block. -/
theorem Heap.Keeps.amend {h : Heap} {L : Ledger} {b : Block} {m : Memory} (K : h.Keeps L)
    (hb : b ∈ L.blocks) (b' : Block) (addr : b'.addr = b.addr) (aligned : b'.Aligned)
    (read : Block.read m b.addr = b')
    (frame : ∀ i, i < b.addr ∨ b.addr + 40 ≤ i → m.byte i = h.memory.byte i) :
    (h.withMemory m).Keeps (L.amend b b') ∧ Memory.SameBut L.Headers h.memory m := by
  have links : ∀ x ∈ L.blocks, ∀ i, x.addr + 40 ≤ i → i < x.addr + 72 →
      m.byte i = h.memory.byte i := by
    intro x hx i hi hi'
    apply frame
    by_cases ne : b.addr = x.addr
    · omega
    · have := K.spaced.clear_of_ne (addr_mem hb) (addr_mem hx) ne
      unfold Header.length at this
      omega
  obtain ⟨catalogue, freeList⟩ := K.chains_of_bytes links
  rw [← Ledger.addr_amend addr] at catalogue
  rw [← Ledger.addr_amend_free addr] at freeList
  refine ⟨⟨K.settings, K.place, K.transfers, K.regions, K.nextId, ?_, ?_, catalogue, ?_, ?_,
    freeList, ?_⟩, ?_⟩
  · rw [Ledger.addr_amend addr]
    exact K.spaced
  · intro y hy
    obtain ⟨x, hx, rfl⟩ := List.mem_map.1 hy
    rw [Block.addr_swap addr]
    unfold Block.swap
    split
    · next e => rw [e, memory_withMemory, read]
    · next e =>
      refine (Block.read_congr ?_).trans (K.headers x hx)
      intro i hi hi'
      apply frame
      have := K.spaced.clear_of_ne (addr_mem hb) (addr_mem hx)
        fun ea => e (K.eq_of_addr hx hb ea.symm)
      unfold Header.length at this
      omega
  · intro y hy
    obtain ⟨x, hx, rfl⟩ := List.mem_map.1 hy
    exact List.mem_map_of_mem (K.listed x hx)
  · apply List.Nodup.of_map Block.addr
    rw [Ledger.addr_amend_free addr]
    exact (K.free_nodes K.listed K.nodupFree).nodup
  · intro y hy
    obtain ⟨x, hx, rfl⟩ := List.mem_map.1 hy
    unfold Block.swap
    split
    · exact aligned
    · exact K.aligned x hx
  · intro i hi
    apply frame
    have : ¬ Header.Covers b.addr i := fun hc => hi ⟨b, hb, hc⟩
    unfold Header.Covers Header.length at this
    omega

end RegionHeap
