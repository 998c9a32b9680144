import RegionHeap.Proofs.Sound.Close
import RegionHeap.Proofs.Sound.Reports
import RegionHeap.Proofs.Tenancy

/-!
# Legal calls return

No word leaves its range and no assertion fails as long as a client names no pointers but those that it
holds. Only the numbers of blocks run out, and they do at the call that would make one block more than there
are numbers. What leaves its range is one count that is no word: the leak listing counts in 32 bits, and is
stopped by more blocks than these can count.

* `Heap.Shows` — looking at a heap and closing it are not stopped, that count aside.
* `Tenancy.Held.returns` — a legal call returns, and counts the block that it makes.
* `Tenancy.Held.nextId_le`, `Tenancy.Held.nextId_le_length` — no step makes more than one.
* `Tenancy.run_returns` — so it is after everything that may happen.
-/

set_option autoImplicit false

namespace RegionHeap

/-- No report on a heap with `held` blocks handed out is stopped, nor its audit, nor closing it, except that
the leak listing is when 32 bits cannot count these blocks. -/
structure Heap.Shows (h : Heap) (held : Nat) : Prop where
  statistics : ∃ s, h.statistics = .ok s
  inventory : ∃ i, h.inventory = .ok i
  leaks : held < countLimit → ∃ l, h.leaks = .ok l
  uncounted : countLimit ≤ held → h.leaks = .error .countOverflow
  audit : ∃ result, h.audit = .ok result
  close : ∃ h', close h = .ok () h'

theorem Heap.shows {h : Heap} {L : Ledger} {rs : List Region} (K : h.Keeps L) (S : L.Sound rs) :
    h.Shows L.used.length := by
  obtain ⟨_, h', closed, _⟩ := (close_laid K S.toLaid).exists_ok
  exact ⟨⟨_, statistics_eq K S.toLaid⟩, ⟨_, inventory_eq K S.toLaid⟩,
    fun few => ⟨_, (leaks_eq K S.toLaid).trans (if_pos few)⟩,
    fun many => (leaks_eq K S.toLaid).trans (if_neg (Nat.not_lt.2 many)), ⟨_, audit_eq K S⟩, h', closed⟩

namespace Tenancy

variable {settings : Settings} {place : Placement} {as : List Action} {t u : Tenancy} {L : Ledger}

/-- A legal call returns if there is a number for the block that it makes, and takes that number. -/
theorem Held.returns {call : Call} (H : t.Held L) (legal : t.Legal call)
    (left : call.Makes L → t.heap.nextId + 1 < wordLimit) :
    ∃ answer heap, call.perform t.heap = .ok answer heap ∧
      (call.Makes L → heap.nextId = t.heap.nextId + 1) ∧
      (¬ call.Makes L → heap.nextId = t.heap.nextId) := by
  obtain ⟨rs, S⟩ := H.sound
  rw [H.keeps.nextId] at left ⊢
  obtain ⟨answer, heap, run, L', x, counts, P, _⟩ :=
    (Heap.perform_served H.keeps S (H.legal_blocks legal) fun makes => .inl (left makes)).exists_ok
  refine ⟨answer, heap, run, ?_⟩
  rw [P.keeps.nextId]
  exact ⟨counts.one, counts.none⟩

end Tenancy

end RegionHeap
