import RegionHeap.Proofs.Sound.Reports
import RegionHeap.Proofs.Tenancy

/-!
# What a client holds is apart

The bytes behind each pointer are its client's alone.

* `Grant.Own` — what is true of one pointer that is held, among the blocks of its heap.
* `Held.own`, `Held.payloads_apart` — it is true of a client that holds the blocks handed out.
* `Tenancy.run_apart` — so it is after everything that may happen.
-/

set_option autoImplicit false

namespace RegionHeap

/-- No payload byte of one block is a payload byte of the other. -/
def Block.PayloadsApart (x y : Block) : Prop :=
  x.finish ≤ y.payload ∨ y.finish ≤ x.payload

/-- The pointer `g` leads to the payload of a block that is handed out. The bytes asked for lie in that
payload, the payload lies in one mapping, and no header lies in it. -/
structure Grant.Own (g : Grant) (h : Heap) (blocks : List Block) : Prop where
  listed : g.block h ∈ blocks
  used : (g.block h).used = true
  payload : (g.block h).payload = g.pointer
  aligned : g.pointer % wordSize = 0
  room : g.pointer + g.bytes ≤ (g.block h).finish
  mapped : ∃ s ∈ outstanding h.space.transfers, s.start ≤ g.pointer ∧ (g.block h).finish ≤ s.finish
  clear : ∀ x ∈ blocks, x.payload ≤ g.pointer ∨ (g.block h).finish ≤ x.addr

/-- A block lies in one of the outstanding spans. -/
theorem Ledger.Laid.exists_span {L : Ledger} {rs : List Region} {b : Block} (S : L.Laid rs)
    (hb : b ∈ L.blocks) : ∃ s ∈ outstanding L.transfers, s.start ≤ b.addr ∧ b.finish ≤ s.finish := by
  rw [S.blocks] at hb
  obtain ⟨r, hr, inside⟩ := List.mem_flatMap.1 hb
  refine ⟨r.span, ?_, (S.tiled r hr).tiles.bounds inside⟩
  rw [← S.spans]
  exact List.mem_map_of_mem hr

namespace Tenancy

variable {settings : Settings} {place : Placement} {as : List Action} {t : Tenancy} {L : Ledger}
  {g : Grant}

theorem Held.own (H : t.Held L) (hg : g ∈ t.live) : g.Own t.heap L.blocks := by
  obtain ⟨rs, S⟩ := H.sound
  obtain ⟨hb, payload, room⟩ := H.block_held hg
  obtain ⟨listed, used⟩ := Ledger.mem_used.1 hb
  have addr : g.pointer = (g.block t.heap).addr + Header.length := payload.symm
  constructor
  case listed => exact listed
  case used => exact used
  case payload => exact payload
  case aligned =>
    rw [← payload]
    exact Heap.payload_aligned H.keeps listed
  case room =>
    unfold Block.finish
    rw [payload]
    exact Nat.add_le_add_left room _
  case mapped =>
    obtain ⟨s, hs, start, finish⟩ := S.exists_span listed
    rw [← H.keeps.transfers] at hs
    refine ⟨s, hs, ?_, finish⟩
    rw [addr]
    exact start.trans (Nat.le_add_right _ _)
  case clear =>
    intro x hx
    have clear := (S.owns listed).clear x hx
    rw [addr]
    unfold Block.finish Block.payload Header.payload at *
    omega

/-- Pointers that the client holds lead to payloads that share no byte. -/
theorem Held.payloads_apart (H : t.Held L) :
    t.live.Pairwise fun g g' => (g.block t.heap).PayloadsApart (g'.block t.heap) := by
  obtain ⟨rs, S⟩ := H.sound
  have nodup : (t.live.map Grant.pointer).Nodup := by
    refine H.grants.nodup_iff.2 (List.Nodup.map_on ?_ H.nodup_used)
    intro x hx y hy e
    exact H.payload_inj hx hy e
  apply List.Pairwise.imp_of_mem _ (List.pairwise_map.1 nodup)
  intro g g' hg hg' ne
  obtain ⟨hb, payload, _⟩ := H.block_held hg
  obtain ⟨hb', payload', _⟩ := H.block_held hg'
  apply S.payload_apart (Ledger.mem_used.1 hb).1 (Ledger.mem_used.1 hb').1
  intro same
  rw [same] at payload
  exact ne (payload.symm.trans payload')

/-- **Nothing that is held overlaps.** After each step, the bytes behind every pointer that the client
holds are in one mapping, in the payload of a block of their own. No header is there, and no payload
behind another pointer. -/
theorem run_apart (built : settings.Built) (lawful : place.Lawful)
    (run : Run (opened settings place) as t) :
    ∃ blocks, t.heap.snapshot.catalogue = .ofList blocks ∧ (∀ g ∈ t.live, g.Own t.heap blocks) ∧
      t.live.Pairwise fun g g' => (g.block t.heap).PayloadsApart (g'.block t.heap) := by
  obtain ⟨L, H⟩ := run.exists_held built lawful
  obtain ⟨rs, S⟩ := H.sound
  refine ⟨L.blocks, ?_, fun g hg => H.own hg, H.payloads_apart⟩
  rw [Heap.snapshot_eq H.keeps]

/-- Two requests share what was one block, and the client stores next to the second header. -/
theorem run_apart_shared : ∃ t,
    Run (opened {} .standard)
      [.call (.malloc 500) (some 140737219915848),
        .call (.free (some 140737219915848)) none,
        .call (.malloc 24) (some 140737219915848),
        .call (.calloc 5 8) (some 140737219915944),
        .store 140737219915848 20 [1, 2, 3, 4]] t ∧
      ∃ blocks, t.heap.snapshot.catalogue = .ofList blocks ∧
        (∀ g ∈ t.live, g.Own t.heap blocks) ∧
        t.live.Pairwise fun g g' => (g.block t.heap).PayloadsApart (g'.block t.heap) :=
  exists_of_replay (by decide +kernel) fun _ run => run_apart .default Placement.standard_lawful run

end Tenancy

end RegionHeap
