import RegionHeap.Proofs.Sound.Close
import RegionHeap.Proofs.Sound.Reports
import RegionHeap.Proofs.Tenancy

/-!
# Mappings balance

What a heap gives back is what it was given, and in the end it has given back everything.

* `Heap.Returned` — what a call gives back, and when.
* `Heap.Emptied` — what is left of a heap that was closed.
* `Tenancy.run_balanced` — mappings balance after everything that may happen.
-/

set_option autoImplicit false

namespace RegionHeap

/-- What the call that left the heap `h` gave back, given the transfers `before` it and what the client
holds after it: at last, a region that was one free block, where nothing is that the client holds. -/
def Heap.Returned (h : Heap) (before : List Transfer) (live : List Grant) : Prop :=
  ∃ new, h.space.transfers = new ++ before ∧ ∀ s, .unmapped s ∈ new →
    (∃ h₁ : Heap, h₁.Shuts h s) ∧
      ∀ g ∈ live, ∀ i, (g.block h).addr ≤ i → i < (g.block h).finish → ¬ s.Holds i

/-- What is left of a heap that was closed, given the transfers `before` that: all regions were given
back, first mapped first, and each span as often as it was mapped. -/
structure Heap.Emptied (h : Heap) (before : List Transfer) : Prop where
  transfers : h.space.transfers = ((outstanding before).map Transfer.unmapped).reverse ++ before
  balanced : Balanced h.space.transfers
  settled : outstanding h.space.transfers = []
  once : ∀ s, h.space.transfers.count (.unmapped s) = h.space.transfers.count (.mapped s)
  catalogue : h.catalogue = .empty
  freeList : h.freeList = .empty
  regions : h.regions = 0

namespace Heap

variable {h : Heap} {L : Ledger} {rs : List Region}

/-- A heap whose ledger has no block is in no chain. -/
theorem Keeps.chains_empty (K : h.Keeps L) (S : L.Laid []) :
    h.catalogue = .empty ∧ h.freeList = .empty := by
  have blocks : L.blocks = [] := S.blocks
  have free : L.free = [] := by
    rw [List.eq_nil_iff_forall_not_mem]
    intro b hb
    have := (S.mem_free_iff.1 hb).1
    simp [blocks] at this
  constructor
  · have ends := K.catalogue.ends
    rwa [blocks] at ends
  · have ends := K.freeList.ends
    rwa [free] at ends

/-- Closing a heap gives back what is outstanding, and nothing is left of it. -/
theorem close_empties (K : h.Keeps L) (S : L.Laid rs) :
    ∃ h', close h = .ok () h' ∧ h'.Emptied h.space.transfers := by
  obtain ⟨_, h', run, L', K', S', given⟩ := (close_laid K S).exists_ok
  obtain ⟨catalogue, freeList⟩ := K'.chains_empty S'
  have balanced := S'.settled.balanced
  have settled : outstanding L'.transfers = [] := S'.spans.symm
  refine ⟨h', run, ?_⟩
  constructor
  case transfers =>
    rw [K'.transfers, given, K.transfers, ← S.spans, List.map_map]
    rfl
  case balanced => rwa [K'.transfers]
  case settled => rwa [K'.transfers]
  case once =>
    intro s
    rw [K'.transfers]
    have count := balanced.count_outstanding s
    rwa [settled, List.count_nil, Nat.zero_add] at count
  case catalogue => exact catalogue
  case freeList => exact freeList
  case regions => rw [K'.regions, S'.count, List.length_nil]

end Heap

namespace Tenancy

variable {settings : Settings} {place : Placement} {as : List Action} {t : Tenancy} {L : Ledger}

/-- Nothing that the client holds is where a call gave memory back. -/
theorem Held.returned {call : Call} {answer : Option Nat} {x : Exchange} {heap : Heap}
    {L' : Ledger} (H : t.Held L) (P : Heap.Passed t.heap L x heap L')
    (served : call.Served answer x t.heap heap) :
    heap.Returned t.heap.space.transfers (call.settle answer t.live) := by
  have H' := H.served P served
  obtain ⟨rs, S'⟩ := P.sound
  refine ⟨x.unmapped.toList.map .unmapped ++ x.mapped.toList.map .mapped, ?_, ?_⟩
  · rw [P.keeps.transfers, P.history, H.keeps.transfers, Exchange.history, List.append_assoc]
  intro s hs
  have mem : s ∈ x.unmapped := by simpa using hs
  refine ⟨P.shut s mem, ?_⟩
  intro g hg i lo up inside
  have hb := (Ledger.mem_used.1 (H'.block_held hg).1).1
  have live := S'.mapped_of_mem hb lo up
  have history := P.history
  rw [Exchange.history, Option.mem_def.1 mem] at history
  rw [history] at live
  exact (mapped_unmapped_iff.1 live).2 inside.pages

/-- **Mappings balance.** After each step, whatever the heap gave back had been mapped before, to the
same length, and not given back since. The statistics count the mappings that are left. A call gives
back a region only when that is one free block. Closing the heap gives back what is left, and then every
mapping was given back once. -/
theorem run_balanced (built : settings.Built) (lawful : place.Lawful)
    (run : Run (opened settings place) as t) :
    Balanced t.heap.space.transfers ∧
      (∃ st, t.heap.statistics = .ok st ∧
        st.regions + t.heap.space.transfers.countP (fun x => x.mapped?.isNone) =
          t.heap.space.transfers.countP fun x => x.mapped?.isSome) ∧
      (∀ call, t.Legal call → Heap.Yields t.heap.Spent call.perform t.heap fun answer heap =>
        heap.Returned t.heap.space.transfers (call.settle answer t.live)) ∧
      ∃ heap, Heap.close t.heap = .ok () heap ∧ heap.Emptied t.heap.space.transfers := by
  obtain ⟨L, H⟩ := run.exists_held built lawful
  obtain ⟨rs, S⟩ := H.sound
  have balanced : Balanced t.heap.space.transfers := by
    rw [H.keeps.transfers]
    exact S.settled.balanced
  refine ⟨balanced, ?_, ?_, Heap.close_empties H.keeps S.toLaid⟩
  · refine ⟨_, Heap.statistics_eq H.keeps S.toLaid, ?_⟩
    have count : L.regions = (outstanding t.heap.space.transfers).length := by
      rw [S.count, H.keeps.transfers, ← S.spans, List.length_map]
    show L.regions + _ = _
    rw [count]
    exact balanced.length_outstanding
  · intro call legal
    refine (H.yields legal).mono fun answer heap post => ?_
    obtain ⟨L', x, P, served⟩ := post
    exact H.returned P served

/-- A heap that keeps no region gives one back when its block is free, and another one when its block
moves. -/
theorem run_balanced_moved : ∃ t,
    Run (opened (({} : Settings).withRetained 0) .standard)
      [.call (.malloc 500) (some 140737219915848),
        .call (.malloc 24) (some 140737219911752),
        .call (.free (some 140737219915848)) none,
        .call (.realloc (some 140737219911752) 64) (some 140737219915848)] t ∧
      Balanced t.heap.space.transfers ∧
      (∃ st, t.heap.statistics = .ok st ∧
        st.regions + t.heap.space.transfers.countP (fun x => x.mapped?.isNone) =
          t.heap.space.transfers.countP fun x => x.mapped?.isSome) ∧
      (∀ call, t.Legal call → Heap.Yields t.heap.Spent call.perform t.heap fun answer heap =>
        heap.Returned t.heap.space.transfers (call.settle answer t.live)) ∧
      ∃ heap, Heap.close t.heap = .ok () heap ∧ heap.Emptied t.heap.space.transfers :=
  exists_of_replay (by decide +kernel) fun _ run =>
    run_balanced (.retained .default 0) Placement.standard_lawful run

end Tenancy

end RegionHeap
