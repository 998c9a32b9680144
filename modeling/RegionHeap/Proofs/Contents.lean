import RegionHeap.Proofs.Tenancy

/-!
# What a client stores stays

The bytes behind a pointer are those that the client stored there last, until a call names the pointer.

* `Grant.Kept` — the bytes behind one pointer, and the header before it.
* `Held.step_keeps`, `Held.run_keeps` — one step, and a run, that names the pointer in no call.
* `Held.realloc_keeps` — what a resized block holds.
* `Tenancy.run_contents` — so it is after everything that may happen.
-/

set_option autoImplicit false

namespace RegionHeap

namespace Memory

/-- Bytes are listed alike where they are alike. -/
theorem bytes_congr {m m' : Memory} {a a' n : Nat}
    (same : ∀ i, i < n → m.byte (a + i) = m'.byte (a' + i)) : m.bytes a n = m'.bytes a' n := by
  unfold bytes
  apply List.map_congr_left
  intro i hi
  exact same i (List.mem_range.1 hi)

end Memory

namespace Action

/-- No call names the pointer `p`. -/
def Spares (p : Nat) : Action → Prop
  | .call c _ => c.argument ≠ some p
  | _ => True

/-- A client's stores do the same to the same byte. -/
theorem byte_stored {a : Action} {m m' : Memory} {i : Nat} (same : m.byte i = m'.byte i) :
    (a.stored m).byte i = (a.stored m').byte i := by
  cases a with
  | call call answer => exact same
  | store pointer offset bytes =>
    unfold stored
    rw [Memory.byte_setBytes, Memory.byte_setBytes, same]
  | remap place => exact same

end Action

/-- Only the pointer that a call names may be dead after it. -/
theorem Call.argument_of_released {call : Call} {answer : Option Nat} {p : Nat}
    (dead : call.released answer = some p) : call.argument = some p := by
  cases call with
  | free pointer => exact dead
  | realloc pointer size =>
    by_cases gone : size = 0 ∨ answer.isSome = true
    · rwa [released, if_pos gone] at dead
    · rw [released, if_neg gone] at dead
      cases dead
  | _ => cases dead

/-- The bytes behind the pointer are those that `m` has there, and the header before it says what it
said in `h`. -/
structure Grant.Kept (g : Grant) (m : Memory) (h h' : Heap) : Prop where
  bytes : h'.memory.bytes g.pointer g.bytes = m.bytes g.pointer g.bytes
  block : g.block h' = g.block h

/-- What is left of the bytes behind the pointer when its block is resized to `size` bytes: they are
behind the answer, as many as were asked for before and after, or nothing happened to them. -/
def Grant.Resized (g : Grant) (size : Nat) (h : Heap) : Option Nat → Heap → Prop
  | some q, h' =>
    h'.memory.bytes q (min g.bytes size) = h.memory.bytes g.pointer (min g.bytes size)
  | none, h' => g.Kept h.memory h h'

namespace Tenancy

variable {settings : Settings} {place : Placement} {as : List Action} {t u : Tenancy}
  {L L' : Ledger} {g : Grant} {b : Block}

namespace Held

/-- A step that does not name the pointer keeps its block, but for what the client stores. -/
theorem step_keeps {a : Action} (H : t.Held L) (s : Step t a u) (hg : g ∈ t.live)
    (hb : b ∈ L.used) (e : b.payload = g.pointer) (spares : a.Spares g.pointer) :
    ∃ L', u.Held L' ∧ b ∈ L'.used ∧ g ∈ u.live ∧ ∀ i, b.payload ≤ i → i < b.finish →
      u.heap.memory.byte i = (a.stored t.heap.memory).byte i := by
  cases s with
  | @call call answer heap legal run =>
    obtain ⟨L', x, P, served⟩ := (H.yields legal).of_ok run
    have other : call.released answer ≠ some g.pointer := by
      intro dead
      exact absurd (Call.argument_of_released dead) spares
    have kept : b ∉ x.taken := by
      intro taken
      apply other
      rw [← served.taken, taken, Option.map_some, e]
    refine ⟨L', H.served P served, P.survives hb kept, ?_, P.same b hb kept⟩
    apply List.mem_append_right
    exact List.mem_filter.2 ⟨hg, decide_eq_true other.symm⟩
  | store held within =>
    exact ⟨L, ⟨H.store_keeps held within, H.sound, H.grants, H.room⟩, hb, hg, fun _ _ _ => rfl⟩
  | remap lawful => exact ⟨_, H.remap lawful, hb, hg, fun _ _ _ => rfl⟩

/-- A run that does not name the pointer keeps its block. Every byte of it is what the client stored
there last, starting from a memory `m` that agrees with the heap's own on that block. -/
theorem run_keeps {m : Memory} (H : t.Held L) (run : Run t as u) (hg : g ∈ t.live)
    (hb : b ∈ L.used) (e : b.payload = g.pointer) (spares : ∀ a ∈ as, a.Spares g.pointer)
    (same : ∀ i, b.payload ≤ i → i < b.finish → t.heap.memory.byte i = m.byte i) :
    ∃ L', u.Held L' ∧ b ∈ L'.used ∧ g ∈ u.live ∧ ∀ i, b.payload ≤ i → i < b.finish →
      u.heap.memory.byte i = (as.foldl Action.stored m).byte i := by
  induction run generalizing L m with
  | nil => exact ⟨L, H, hb, hg, same⟩
  | cons s _ ih =>
    obtain ⟨L₁, H₁, hb₁, hg₁, now⟩ := H.step_keeps s hg hb e (spares _ (by simp))
    refine ih H₁ hg₁ hb₁ (fun a ha => spares a (by simp [ha])) ?_
    intro i lo up
    rw [now i lo up]
    exact Action.byte_stored (same i lo up)

/-- The bytes asked for lie in the block. -/
theorem bytes_eq {m m' : Memory} (e : b.payload = g.pointer) (room : g.bytes ≤ b.size)
    (same : ∀ i, b.payload ≤ i → i < b.finish → m.byte i = m'.byte i) :
    m.bytes g.pointer g.bytes = m'.bytes g.pointer g.bytes := by
  apply Memory.bytes_congr
  intro i hi
  apply same
  · omega
  · unfold Block.finish
    omega

/-- Until a call names the pointer, its bytes are those that the client stored there last. -/
theorem run_kept (H : t.Held L) (run : Run t as u) (hg : g ∈ t.live)
    (spares : ∀ a ∈ as, a.Spares g.pointer) :
    g ∈ u.live ∧ g.Kept (as.foldl Action.stored t.heap.memory) t.heap u.heap := by
  obtain ⟨b, hb, e, room⟩ := H.exists_block hg
  obtain ⟨L', H', hb', hg', same⟩ := H.run_keeps run hg hb e spares fun _ _ _ => rfl
  refine ⟨hg', bytes_eq e room same, ?_⟩
  rw [H.block_eq hb e, H'.block_eq hb' e]

/-- A resized block holds what the old one did, and a block that was not resized is as it was. -/
theorem realloc_keeps {size : Nat} {answer : Option Nat} {heap : Heap} (H : t.Held L)
    (hg : g ∈ t.live) (positive : 0 < size)
    (run : Heap.realloc (some g.pointer) size t.heap = .ok answer heap) :
    g.Resized size t.heap answer heap := by
  obtain ⟨b, hb, e, room⟩ := H.exists_block hg
  have legal : t.Legal (.realloc (some g.pointer) size) := by
    rintro p ⟨⟩
    exact ⟨g, hg, rfl⟩
  obtain ⟨L', x, P, served⟩ := (H.yields legal).of_ok run
  cases answer with
  | some q =>
    obtain ⟨c, hc, rfl⟩ := Option.map_eq_some_iff.1 served.given
    have dead : x.taken.map Block.payload = some g.pointer := by
      rw [served.taken, Call.released, if_pos (.inr rfl)]
    obtain ⟨b', hb', e'⟩ := Option.map_eq_some_iff.1 dead
    have old : b' = b := by
      obtain ⟨rest, perm, _⟩ := P.used
      have mem : b' ∈ L.used := perm.mem_iff.2 (by simp [hb'])
      exact H.payload_inj mem hb (e'.trans e.symm)
    subst old
    apply Memory.bytes_congr
    intro i hi
    rw [← e]
    exact served.contents b' hb' c hc i (by omega) (show i < size by omega)
  | none =>
    have kept : b ∉ x.taken := by
      intro taken
      have dead := served.taken
      rw [taken, Call.released, if_neg (by simp; omega)] at dead
      cases dead
    have H' := H.served P served
    refine ⟨bytes_eq e room (P.same b hb kept), ?_⟩
    rw [H.block_eq hb e]
    exact H'.block_eq (P.survives hb kept) e

end Held

/-- **What is stored stays.** At any time, for every pointer that the client holds: whatever happens
from then on, as long as no call names the pointer it is held, the bytes behind it are those that the
client stored there last, and its header says what it said. A call that resizes its block carries the
bytes over, and when that fails they are as they were. -/
theorem run_contents (built : settings.Built) (lawful : place.Lawful)
    (run : Run (opened settings place) as t) (held : g ∈ t.live) :
    (∀ bs u, Run t bs u → (∀ a ∈ bs, a.Spares g.pointer) →
      g ∈ u.live ∧ g.Kept (bs.foldl Action.stored t.heap.memory) t.heap u.heap) ∧
    ∀ size answer heap, 0 < size → Heap.realloc (some g.pointer) size t.heap = .ok answer heap →
      g.Resized size t.heap answer heap := by
  obtain ⟨L, H⟩ := run.exists_held built lawful
  constructor
  · intro bs u later spares
    exact H.run_kept later held spares
  · intro size answer heap positive resized
    exact H.realloc_keeps held positive resized

/-- Four bytes behind a pointer and the 20 after them, while another block is given back, cut and
cleared: only the one byte changes that the client stores meanwhile. -/
theorem run_contents_store : ∃ t u,
    Run (opened {} .standard)
        [.call (.malloc 24) (some 140737219915848),
          .call (.malloc 200) (some 140737219911752),
          .store 140737219915848 0 [1, 2, 3, 4]] t ∧
      Run t
        [.call (.free (some 140737219911752)) none,
          .call (.calloc 5 8) (some 140737219911752),
          .store 140737219915848 3 [7],
          .call (.malloc 30) (some 140737219911864)] u ∧
      ⟨140737219915848, 24⟩ ∈ t.live ∧ ⟨140737219915848, 24⟩ ∈ u.live ∧
      Grant.Kept ⟨140737219915848, 24⟩ (t.heap.memory.setBytes (140737219915848 + 3) [7]) t.heap
        u.heap ∧
      ∀ answer heap, Heap.realloc (some 140737219915848) 1000 t.heap = .ok answer heap →
        Grant.Resized ⟨140737219915848, 24⟩ 1000 t.heap answer heap := by
  refine exists_of_replay_append (by decide +kernel) fun t u run later => ?_
  have held : ⟨140737219915848, 24⟩ ∈ t.live := by
    rw [run.live_eq]
    decide
  obtain ⟨stays, resized⟩ := run_contents .default Placement.standard_lawful run held
  obtain ⟨held', kept⟩ := stays _ u later (by simp [Action.Spares, Call.argument])
  exact ⟨held, held', kept, fun answer heap => resized 1000 answer heap (by decide)⟩

end Tenancy

end RegionHeap
