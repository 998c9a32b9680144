import RegionHeap.Allocator
import RegionHeap.Proofs.Lines
import RegionHeap.Proofs.Sound.Reports
import RegionHeap.Proofs.Tenancy

/-!
# Accounts balance

The figures that a heap reports come from different walks: along the free list, along the catalogue, from
region to region, and from the counters that the heap keeps. They agree with each other and with what was
mapped.

* `Heap.Accounts` — what it means that the figures of a heap agree.
* `Ledger.Laid.perm_blocks`, `Ledger.Laid.payload_bytes` — every block is handed out or free, and all of
  them with their headers take what is mapped.
* `Heap.accounts` — the figures of a sound heap agree.
* `Tenancy.run_accounts` — so they do after everything that may happen.
-/

set_option autoImplicit false

namespace RegionHeap

/-- The statistics `st` of the heap agree with what is mapped for it, with its blocks, and with its
inventory as a text. -/
structure Heap.Accounts (h : Heap) (st : Statistics) : Prop where
  statistics : h.statistics = .ok st
  /-- Payloads and headers take what was mapped for the regions, to the byte. -/
  bytes : st.usedBytes + st.freeBytes + Header.length * st.blocks =
    ((outstanding h.space.transfers).map Span.length).sum
  /-- The pages of the regions are counted whole. -/
  pages : st.mappedBytes = ((outstanding h.space.transfers).map fun s => pageCeil s.length).sum
  regions : st.regions = (outstanding h.space.transfers).length
  blocks : st.blocks = st.freeBlocks + h.snapshot.used.length
  /-- The inventory shows the same figures, whatever the regions are called. -/
  inventory : ∀ atlas, Allocator.inventoryText atlas h = .ok
    (s!"-- BlockList[{st.regions}/{st.blocks}] --\n"
      ++ String.join (h.snapshot.catalogue.items.map fun b => b.describe atlas ++ "\n")
      ++ s!"\n-- FreeBlockList[{st.freeBlocks}] --\n"
      ++ String.join (h.snapshot.freeList.items.map fun b => s!"[{atlas.text b.addr}] -> ")
      ++ "[NULL]\n"
      ++ "\n-- Memory Summary --\n"
      ++ s!"total {st.usedBytes + st.freeBytes} bytes\n"
      ++ s!"free {st.freeBytes} bytes\n"
      ++ s!"mapped {st.mappedBytes} bytes\n")
  /-- Each line of it shows its block. -/
  lines : ∀ atlas, ∀ b ∈ h.snapshot.catalogue.items, b.Line atlas (b.describe atlas)

namespace Ledger.Laid

variable {L : Ledger} {rs : List Region}

/-- Every block is handed out or free. -/
theorem perm_blocks (S : L.Laid rs) : L.blocks.Perm (L.used ++ L.free) :=
  (List.filter_append_perm Block.used L.blocks).symm.trans (S.free.symm.append_left _)

theorem length_blocks (S : L.Laid rs) : L.blocks.length = L.free.length + L.used.length := by
  rw [S.perm_blocks.length_eq, List.length_append, Nat.add_comm]

theorem sum_sizes (S : L.Laid rs) : (L.blocks.map Block.size).sum =
    (L.used.map Block.size).sum + (L.free.map Block.size).sum := by
  rw [(S.perm_blocks.map Block.size).sum_nat, List.map_append, List.sum_append_nat]

/-- All payloads, with a header each, take what is mapped for the regions. -/
theorem payload_bytes (S : L.Laid rs) :
    (L.blocks.map Block.size).sum + Header.length * L.blocks.length =
      ((outstanding L.transfers).map Span.length).sum := by
  rw [← S.sum_extents]
  generalize L.blocks = bs
  induction bs with
  | nil => rfl
  | cons b bs ih =>
    simp only [List.map_cons, List.sum_cons, List.length_cons, Nat.mul_succ, Block.extent]
    omega

end Ledger.Laid

/-- The figures of a sound heap agree. -/
theorem Heap.accounts {h : Heap} {L : Ledger} {rs : List Region} (K : h.Keeps L) (S : L.Laid rs) :
    ∃ st, h.Accounts st := by
  have shown := snapshot_eq K
  have total := S.sum_sizes
  refine ⟨_, ⟨statistics_eq K S, ?_, ?_, ?_, ?_, ?_, fun atlas b _ => b.line_describe atlas⟩⟩
  · dsimp only
    rw [K.transfers, ← S.payload_bytes, total]
  · rw [K.transfers]
  · dsimp only
    rw [S.count, K.transfers, ← S.spans, List.length_map]
  · rw [shown]
    exact S.length_blocks
  · intro atlas
    have held : Allocator.inventory h = some <$> h.inventory := rfl
    unfold Allocator.inventoryText
    rw [held, inventory_eq K S, shown]
    dsimp only
    rw [← total]
    rfl

namespace Tenancy

variable {settings : Settings} {place : Placement} {as : List Action} {t : Tenancy}

/-- **Accounts balance.** After each step the payloads that are handed out, those that are free and a
header for each block take exactly what was mapped and not given back, and whole pages of it are counted
as mapped. Blocks are handed out, as many as the client holds pointers, or free. The inventory shows the
figures of the statistics. -/
theorem run_accounts (built : settings.Built) (lawful : place.Lawful)
    (run : Run (opened settings place) as t) :
    (∃ st, t.heap.Accounts st) ∧ t.heap.snapshot.used.length = t.live.length := by
  obtain ⟨L, H⟩ := run.exists_held built lawful
  obtain ⟨rs, S⟩ := H.sound
  refine ⟨Heap.accounts H.keeps S.toLaid, ?_⟩
  rw [Heap.snapshot_eq H.keeps]
  exact H.length_used

/-- Two regions, one of them free and kept, the other one cut and grown. -/
theorem run_accounts_two_regions : ∃ t,
    Run (opened {} .standard)
      [.call (.malloc 500) (some 140737219915848),
        .call (.malloc 5000) (some 140737219907656),
        .call (.free (some 140737219915848)) none,
        .call (.malloc 24) (some 140737219915848),
        .call (.realloc (some 140737219915848) 64) (some 140737219915848),
        .call (.free (some 140737219907656)) none] t ∧
      (∃ st, t.heap.Accounts st) ∧ t.heap.snapshot.used.length = t.live.length :=
  exists_of_replay (by decide +kernel) fun _ run =>
    run_accounts .default Placement.standard_lawful run

end Tenancy

end RegionHeap
