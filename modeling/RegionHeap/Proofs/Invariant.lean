import RegionHeap.Proofs.Sound.Reports
import RegionHeap.Proofs.Tenancy

/-!
# The invariant of heaps

A heap is sound between any two calls, whatever its client does with the pointers that it holds.

* `Tenancy.run_sound` — the heap is sound after everything that may happen, the audit finds nothing, and
  legal calls return.
-/

set_option autoImplicit false

namespace RegionHeap

namespace Tenancy

variable {settings : Settings} {place : Placement} {as : List Action} {t : Tenancy} {L : Ledger}

/-- **The heap stays sound.** Whatever settings it has, wherever its mappings go and whatever its client
does with the pointers that it holds, after each step the catalogue, the free list and the regions are
as they should be, the audit finds nothing, and the next call returns unless there is no number left
for a block. -/
theorem run_sound (built : settings.Built) (lawful : place.Lawful)
    (run : Run (opened settings place) as t) :
    (∃ rs unused, t.heap.Sound rs unused) ∧ t.heap.audit = .ok (.ok ()) ∧
      ∀ call, t.Legal call → Heap.Yields t.heap.Spent call.perform t.heap fun _ _ => True := by
  obtain ⟨L, H⟩ := run.exists_held built lawful
  obtain ⟨rs, S⟩ := H.sound
  refine ⟨⟨rs, L.free, H.keeps.sound S⟩, Heap.audit_eq H.keeps S, ?_⟩
  intro call legal
  exact (H.yields legal).mono fun _ _ _ => trivial

/-- A block of 500 bytes is given back and cut for two requests. The first of them is given back too,
and the other one grows into what is left. -/
theorem run_sound_cut_and_grown : ∃ t,
    Run (opened {} .standard)
      [.call (.malloc 500) (some 140737219915848),
        .call (.free (some 140737219915848)) none,
        .call (.malloc 24) (some 140737219915848),
        .call (.malloc 40) (some 140737219915944),
        .call (.free (some 140737219915848)) none,
        .call (.realloc (some 140737219915944) 64) (some 140737219915944)] t ∧
      (∃ rs unused, t.heap.Sound rs unused) ∧ t.heap.audit = .ok (.ok ()) ∧
      ∀ call, t.Legal call → Heap.Yields t.heap.Spent call.perform t.heap fun _ _ => True :=
  exists_of_replay (by decide +kernel) fun _ run => run_sound .default Placement.standard_lawful run

end Tenancy

end RegionHeap
