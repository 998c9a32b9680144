import RegionHeap.Proofs.Sound.Reports
import RegionHeap.Proofs.Tenancy

/-!
# Idle regions

A heap keeps some regions although none of their blocks is handed out, but never more of them than its
settings say, however many regions there are.

* `Heap.Drained` — what is left of a heap of which nothing is handed out.
* `Retained.step`, `Retained.run` — no step makes more regions idle than are kept.
* `Tenancy.run_retained` — few regions are idle after everything that may happen.
-/

set_option autoImplicit false

namespace RegionHeap

/-- Nothing of the heap is handed out: each of its regions is one free block, and the statistics count
nothing else. -/
structure Heap.Drained (h : Heap) (rs : List Region) : Prop where
  whole : ∀ r ∈ rs, ∃ b, r.blocks = [b] ∧ b.used = false ∧ b.size + Header.length = r.span.length
  statistics : ∃ st, h.statistics = .ok st ∧ st.usedBytes = 0 ∧ st.regions = rs.length ∧
    st.blocks = rs.length ∧ st.freeBlocks = rs.length

variable {h : Heap} {L : Ledger} {r : Region} {rs : List Region}

/-- An idle region is one free block, since no two neighbours are both free. -/
theorem Region.eq_singleton_of_idle {least : Nat} (tiled : r.Tiled least) (merged : r.Merged)
    (idle : r.idle = true) :
    ∃ b, r.blocks = [b] ∧ b.used = false ∧ b.size + Header.length = r.span.length := by
  have free : ∀ b ∈ r.blocks, b.used = false := by
    intro b hb
    simpa using List.all_eq_true.1 idle b hb
  have sum := tiled.sum_extents
  have chain : r.blocks.IsChain Block.Separate := merged
  obtain ⟨b, bs, e⟩ := List.exists_cons_of_ne_nil tiled.nonempty
  rw [e] at free sum chain
  cases bs with
  | nil =>
    refine ⟨b, e, free b (by simp), ?_⟩
    rw [← sum, Nat.add_comm]
    simp [Block.extent]
  | cons c cs =>
    rcases (List.isChain_cons_cons.1 chain).1 with used | used
    · rw [free b (by simp)] at used
      cases used
    · rw [free c (by simp)] at used
      cases used

namespace Ledger

/-- Regions are idle when no block is handed out. -/
theorem Laid.all_idle (S : L.Laid rs) (used : L.used = []) : ∀ r ∈ rs, r.idle = true := by
  intro r hr
  refine List.all_eq_true.2 fun b hb => ?_
  have := List.filter_eq_nil_iff.1 used b (S.mem_blocks hr hb)
  simpa using this

/-- All regions are idle, so there are no more of them than idle ones. -/
theorem Laid.idle_of_used_nil (S : L.Laid rs) (used : L.used = []) : L.idle = rs.length := by
  rw [S.idle_eq, List.countP_eq_length]
  exact S.all_idle used

/-- With nothing handed out there are as many blocks as regions. -/
theorem Sound.blocks_length (S : L.Sound rs) (used : L.used = []) : L.blocks.length = rs.length := by
  have single : ∀ r ∈ rs, r.blocks.length = 1 := by
    intro r hr
    obtain ⟨b, e, _⟩ := Region.eq_singleton_of_idle (S.tiled r hr) (S.merged r hr)
      (S.all_idle used r hr)
    rw [e, List.length_singleton]
  rw [S.blocks, List.length_flatMap, List.map_congr_left single, List.map_const', List.sum_replicate_nat,
    Nat.mul_one]

end Ledger

/-- A heap is drained when nothing is handed out. -/
theorem Heap.Keeps.drained (K : h.Keeps L) (S : L.Sound rs) (used : L.used = []) : h.Drained rs := by
  refine ⟨fun r hr => Region.eq_singleton_of_idle (S.tiled r hr) (S.merged r hr)
    (S.all_idle used r hr), ?_⟩
  have free : L.free.length = L.blocks.length := by
    rw [S.free.length_eq, List.filter_eq_self.2]
    intro b hb
    have := List.filter_eq_nil_iff.1 used b hb
    simpa [Block.vacant] using this
  refine ⟨_, Heap.statistics_eq K S.toLaid, ?_, S.count, S.blocks_length used, ?_⟩
  · show (L.used.map Block.size).sum = 0
    rw [used]
    rfl
  · exact free.trans (S.blocks_length used)

namespace Tenancy

variable {settings : Settings} {place : Placement} {a : Action} {as : List Action} {t u : Tenancy}

/-- The client holds the blocks that are handed out, and no more regions are idle than the settings
keep. -/
structure Retained (settings : Settings) (t : Tenancy) (L : Ledger) : Prop where
  held : t.Held L
  settings_eq : L.settings = settings
  few : L.idle ≤ settings.retained

namespace Retained

theorem step (R : Retained settings t L) (s : Step t a u) : ∃ L', Retained settings u L' := by
  obtain ⟨H, rfl, few⟩ := R
  cases s with
  | call legal run =>
    obtain ⟨L', x, P, served⟩ := (H.yields legal).of_ok run
    exact ⟨L', H.served P served, P.settings, P.idle few⟩
  | store held within =>
    exact ⟨L, ⟨H.store_keeps held within, H.sound, H.grants, H.room⟩, rfl, few⟩
  | remap lawful => exact ⟨_, H.remap lawful, rfl, few⟩

theorem run (R : Retained settings t L) (r : Run t as u) : ∃ L', Retained settings u L' := by
  induction r generalizing L with
  | nil => exact ⟨L, R⟩
  | cons s _ ih =>
    obtain ⟨L', R'⟩ := R.step s
    exact ih R'

end Retained

/-- A heap that was just made has no region. -/
theorem retained_opened (built : settings.Built) (lawful : place.Lawful) :
    Retained settings (opened settings place) (.empty settings place) :=
  ⟨held_opened built.usable lawful, rfl, Nat.zero_le _⟩

/-- Whatever happens to a heap that was just made, no more regions are idle than its settings keep. -/
theorem Run.exists_retained (run : Run (opened settings place) as t) (built : settings.Built)
    (lawful : place.Lawful) : ∃ L, Retained settings t L :=
  (retained_opened built lawful).run run

/-- **Few regions are idle.** After each step, no more regions are without a block in use than the
settings keep, however many regions there are. When the client holds nothing, these are all regions,
each of them is one free block as long as its mapping, and the statistics say so. -/
theorem run_retained (built : settings.Built) (lawful : place.Lawful)
    (run : Run (opened settings place) as t) :
    ∃ rs unused, t.heap.Sound rs unused ∧ rs.countP Region.idle ≤ settings.retained ∧
      (t.live = [] → t.heap.Drained rs ∧ rs.length ≤ settings.retained) := by
  obtain ⟨L, H, _, few⟩ := run.exists_retained built lawful
  obtain ⟨rs, S⟩ := H.sound
  refine ⟨rs, L.free, H.keeps.sound S, S.idle_eq ▸ few, ?_⟩
  intro live
  have used : L.used = [] := by
    have grants := H.grants
    rw [live, List.map_nil] at grants
    exact List.map_eq_nil_iff.1 grants.nil_eq.symm
  exact ⟨H.keeps.drained S used, S.idle_of_used_nil used ▸ few⟩

/-- A heap that keeps one region has two when the idle one is too small for a request, and one of them
again when the client gives everything back. -/
theorem run_retained_outgrown : ∃ t,
    Run (opened (({} : Settings).withRetained 1) .standard)
      [.call (.malloc 24) (some 140737219915848),
        .call (.free (some 140737219915848)) none,
        .call (.malloc 500) (some 140737219911752)] t ∧
      (1 < t.heap.regions ∧
        ∃ rs unused, t.heap.Sound rs unused ∧ rs.countP Region.idle ≤ 1) ∧
      ∃ u, Run t [.call (.free (some 140737219911752)) none] u ∧
        ∃ rs unused, u.heap.Sound rs unused ∧ u.heap.Drained rs ∧ rs.length ≤ 1 := by
  have built := Settings.Built.retained .default 1
  refine exists_of_replay_where (q := fun t => decide (1 < t.heap.regions) &&
    (t.replay [.call (.free (some 140737219911752)) none]).isSome) (by decide +kernel) ?_
  intro t run checked
  obtain ⟨many, played⟩ := Bool.and_eq_true_iff.1 checked
  obtain ⟨rs, unused, sound, few, _⟩ := run_retained built Placement.standard_lawful run
  refine ⟨⟨of_decide_eq_true many, rs, unused, sound, few⟩, exists_of_replay played ?_⟩
  intro u later
  obtain ⟨rs', unused', sound', _, drained⟩ :=
    run_retained built Placement.standard_lawful (run.append later)
  exact ⟨rs', unused', sound', drained (run.append later).live_eq⟩

end Tenancy

end RegionHeap
