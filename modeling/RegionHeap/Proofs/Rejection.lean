import RegionHeap.Proofs.Sound.Reports
import RegionHeap.Proofs.Tenancy

/-!
# Pointers that lead to no block

A call takes a pointer for one to a block when it finds a mark 72 bytes before it. In a tidy heap it is
then right: every mark at an aligned address is that of a block in the catalogue. Heaps stay tidy as long
as no client spells the mark itself, for every step of a call that takes a block out of the catalogue
takes its mark off as well, and copies of payloads bring none.

* `Heap.Discerns` — a call returns for pointers to blocks in use, and stops at all others with nothing
  changed.
* `Heap.free_discerns`, `Heap.realloc_discerns` — so it is in a tidy heap.
* `Tenancy.PlainRun`, `Held.plain_run` — heaps stay tidy when no store spells the mark.
* `Tenancy.run_rejects` — so it is after everything that may happen.
-/

set_option autoImplicit false

namespace RegionHeap

/-- A call that names the pointer `p`, on a heap that has the given blocks, returns exactly when `p` is
the payload of one that is in use. With the payload of a free block the call is stopped by `freed`, and
with any other pointer since that leads to no block. A call that is stopped has changed nothing. -/
structure Heap.Discerns {α : Type} (h : Heap) (blocks : List Block) (p : Nat) (freed : Fault)
    (call : HeapM α) : Prop where
  returns : (∃ a h', call h = .ok a h') ↔ ∃ b ∈ blocks, b.payload = p ∧ b.used = true
  free : (∃ b ∈ blocks, b.payload = p ∧ b.used = false) → call h = .error freed h
  other : (∀ b ∈ blocks, b.payload ≠ p) → call h = .error (.notABlock p) h

namespace Heap

variable {α : Type} {h : Heap} {L : Ledger} {rs : List Region} {b : Block} {p n : Nat} {freed : Fault}

/-- The three kinds of pointers may be looked at one by one. -/
theorem Discerns.of_cases {call : HeapM α} {blocks : List Block}
    (used : ∀ b ∈ blocks, b.payload = p → b.used = true → ∃ a h', call h = .ok a h')
    (free : ∀ b ∈ blocks, b.payload = p → b.used = false → Stops call h freed)
    (other : (∀ b ∈ blocks, b.payload ≠ p) → Stops call h (.notABlock p)) :
    h.Discerns blocks p freed call where
  returns := by
    constructor
    · rintro ⟨a, h', run⟩
      have listed : ∃ b ∈ blocks, b.payload = p := by
        by_contra none
        exact (other fun b hb e => none ⟨b, hb, e⟩).not_ok run
      obtain ⟨b, hb, e⟩ := listed
      cases busy : b.used with
      | true => exact ⟨b, hb, e, busy⟩
      | false => exact absurd run (free b hb e busy).not_ok
    · rintro ⟨b, hb, e, busy⟩
      exact used b hb e busy
  free := fun ⟨b, hb, e, unused⟩ => free b hb e unused
  other := other

/-! ### One call -/

/-- In a tidy heap a pointer that is no block's payload leads to no block. -/
theorem ofPayload_eq_error (K : h.Keeps L) (clean : h.Tidy) (other : ∀ b ∈ L.blocks, b.payload ≠ p) :
    Header.ofPayload h.memory p = .error (.notABlock p) := by
  unfold Header.ofPayload
  split
  · next well =>
    rw [if_neg]
    intro intact
    -- the mark that was found would be astray
    refine clean (p - Header.length) (K.stray_iff.2 ⟨?_, beq_iff_eq.1 intact, ?_⟩)
    · unfold Header.length wordSize at *
      omega
    · intro listed
      obtain ⟨b, hb, e⟩ := List.mem_map.1 listed
      apply other b hb
      unfold Block.payload Header.payload
      omega
  · rfl

theorem free_discerns (K : h.Keeps L) (S : L.Sound rs) (clean : h.Tidy) :
    h.Discerns L.blocks p (.doubleFree p) (free (some p)) := by
  apply Discerns.of_cases
  case used =>
    rintro b hb rfl used
    obtain ⟨a, h', run, _⟩ := (free_passed K S (Ledger.mem_used.2 ⟨hb, used⟩)).exists_ok
    exact ⟨a, h', run⟩
  case free =>
    rintro b hb rfl unused
    unfold free giveBack
    dsimp only
    rw [stops_look_bind, id, stops_lift_bind (ofPayload_eq K S hb), stops_look_bind, K.used_eq hb,
      unused]
    rfl
  case other =>
    intro other
    unfold free
    dsimp only
    rw [stops_look_bind]
    exact stops_fault_bind (ofPayload_eq_error K clean other)

/-- Resizing to no bytes is giving back. -/
theorem realloc_zero_discerns (K : h.Keeps L) (S : L.Sound rs) (clean : h.Tidy) :
    h.Discerns L.blocks p (.doubleFree p) (realloc (some p) 0) := by
  have discerns := free_discerns (p := p) K S clean
  apply Discerns.of_cases
  case used =>
    rintro b hb rfl used
    obtain ⟨_, h', run⟩ := discerns.returns.2 ⟨b, hb, rfl, used⟩
    refine ⟨none, h', ?_⟩
    show EStateM.bind (free (some b.payload)) _ h = _
    unfold EStateM.bind
    rw [run]
    rfl
  case free => exact fun b hb e unused => Stops.bind (discerns.free ⟨b, hb, e, unused⟩) _
  case other => exact fun other => Stops.bind (discerns.other other) _

/-- A block is resized when the size is one that blocks can have. -/
theorem realloc_discerns {size : Nat} (K : h.Keeps L) (S : L.Sound rs) (clean : h.Tidy)
    (numbers : L.nextId + 1 < wordLimit) (positive : n ≠ 0)
    (fits : h.settings.blockSize n = .ok size) :
    h.Discerns L.blocks p (.resizeOfFreed p) (realloc (some p) n) := by
  apply Discerns.of_cases
  case used =>
    rintro b hb rfl used
    obtain ⟨a, h', run, _⟩ :=
      (realloc_passed K S (Ledger.mem_used.2 ⟨hb, used⟩) fun _ _ => .inl numbers).exists_ok
    exact ⟨a, h', run⟩
  case free =>
    rintro b hb rfl unused
    unfold realloc
    dsimp only
    rw [if_neg positive, stops_get_bind, fits]
    dsimp only
    rw [stops_look_bind, id, stops_lift_bind (ofPayload_eq K S hb), stops_look_bind, K.used_eq hb,
      unused]
    rfl
  case other =>
    intro other
    unfold realloc
    dsimp only
    rw [if_neg positive, stops_get_bind, fits]
    dsimp only
    rw [stops_look_bind]
    exact stops_fault_bind (ofPayload_eq_error K clean other)

end Heap

/-! ### Clients that do not spell the mark -/

namespace Action

/-- The bytes that the client stores. -/
def bytes : Action → List UInt8
  | store _ _ bytes => bytes
  | _ => []

/-- The client's stores make no aligned word of the memory the mark. -/
def Plain (m : Memory) (a : Action) : Prop :=
  m.QuietBut (fun _ => False) (a.stored m)

/-- All bytes of the mark are large, so a client that stores small bytes does not spell it. -/
theorem plain_of_small {a : Action} {m : Memory}
    (small : ∀ v ∈ a.bytes, v.toNat < Header.leastMarkByte) : a.Plain m := by
  cases a with
  | call call answer => exact .refl _ m
  | remap place => exact .refl _ m
  | store pointer offset bytes => exact .setBytes (pointer + offset) small

end Action

namespace Tenancy

variable {settings : Settings} {place : Placement} {as : List Action} {t u : Tenancy} {L : Ledger}

/-- Everything that happens, in order, when the client never spells the mark. -/
inductive PlainRun : Tenancy → List Action → Tenancy → Prop
  | nil {t : Tenancy} : PlainRun t [] t
  | cons {t u v : Tenancy} {a : Action} {as : List Action} (step : Step t a u)
      (plain : a.Plain t.heap.memory) (rest : PlainRun u as v) : PlainRun t (a :: as) v

/-- A client that stores small bytes never spells the mark. -/
theorem Run.plain_of_small (run : Run t as u)
    (small : ∀ a ∈ as, ∀ v ∈ a.bytes, v.toNat < Header.leastMarkByte) : PlainRun t as u := by
  induction run with
  | nil => exact .nil
  | cons step _ ih =>
    exact .cons step (Action.plain_of_small (small _ (by simp))) (ih fun a ha => small a (by simp [ha]))

/-- What holds after all such runs holds after one that can be replayed. -/
theorem exists_plain_of_replay {q : Tenancy → Bool} {P : Tenancy → Prop}
    (small : ∀ a ∈ as, ∀ v ∈ a.bytes, v.toNat < Header.leastMarkByte)
    (played : (t.replay as).any q = true) (every : ∀ u, PlainRun t as u → q u = true → P u) :
    ∃ u, PlainRun t as u ∧ P u := by
  obtain ⟨u, run, checked⟩ := exists_of_replay_where played fun _ _ checked => checked
  have plain := run.plain_of_small small
  exact ⟨u, plain, every u plain checked⟩

namespace Held

/-- The heap stays tidy whatever happens, unless the client spells the mark or the numbers of blocks
reach it. -/
theorem plain_step {a : Action} (H : t.Held L) (step : Step t a u) (plain : a.Plain t.heap.memory) :
    ∃ L', u.Held L' ∧ t.heap.nextId ≤ u.heap.nextId ∧
      (u.heap.nextId ≤ Header.mark → t.heap.Tidy → u.heap.Tidy) := by
  cases step with
  | call legal run =>
    obtain ⟨L', x, P, served⟩ := (H.yields legal).of_ok run
    exact ⟨L', H.served P served, P.numbers, P.tidy⟩
  | store held within =>
    -- no header is written, so the only marks that can go astray are those in what was stored
    have K := H.store_keeps held within
    have M : t.heap.Moved (fun _ => True) L _ :=
      .of_quiet H.keeps K (fun _ no => absurd trivial no) (Nat.le_refl _)
        (fun _ hx => .inl (Heap.Keeps.addr_mem hx)) fun _ => plain
    exact ⟨L, ⟨K, H.sound, H.grants, H.room⟩, M.numbers, M.tidy⟩
  | remap lawful => exact ⟨_, H.remap lawful, Nat.le_refl _, fun _ clean => clean⟩

theorem plain_run (H : t.Held L) (run : PlainRun t as u) :
    ∃ L', u.Held L' ∧ t.heap.nextId ≤ u.heap.nextId ∧
      (u.heap.nextId ≤ Header.mark → t.heap.Tidy → u.heap.Tidy) := by
  induction run generalizing L with
  | nil => exact ⟨L, H, Nat.le_refl _, fun _ clean => clean⟩
  | cons step plain _ ih =>
    obtain ⟨L₁, H₁, numbers₁, tidy₁⟩ := H.plain_step step plain
    obtain ⟨L', H', numbers', tidy'⟩ := ih H₁
    refine ⟨L', H', numbers₁.trans numbers', fun small clean => ?_⟩
    exact tidy' small (tidy₁ (numbers'.trans small) clean)

end Held

/-- There is no mark in a heap that was just made. -/
theorem tidy_opened : (opened settings place).heap.Tidy := by
  rintro a ⟨_, marked, _⟩
  have first := Memory.le_byte_of_mark (beq_iff_eq.1 marked) (Nat.le_refl a)
    (Nat.lt_add_of_pos_right (by decide))
  have blank : (opened settings place).heap.memory.byte a = 0 := Memory.byte_blank a
  rw [blank] at first
  exact absurd first (by decide)

/-- **Bad pointers are caught.** At any time, as long as the client has not spelled the mark and no block
has had it as its number (numbers are given out in order, so the next one tells): a call that gives a
pointer back or resizes what is behind it returns exactly when that is the payload of a block in use. With
any other pointer, be it that of a free block, or one into a block, or that of a block that was merged
into another one, the call is stopped with nothing changed. -/
theorem run_rejects (built : settings.Built) (lawful : place.Lawful)
    (run : PlainRun (opened settings place) as t) (numbers : t.heap.nextId ≤ Header.mark) :
    ∃ blocks, t.heap.snapshot.catalogue = .ofList blocks ∧ ∀ p,
      t.heap.Discerns blocks p (.doubleFree p) (Heap.free (some p)) ∧
      t.heap.Discerns blocks p (.doubleFree p) (Heap.realloc (some p) 0) ∧
      ∀ n size, n ≠ 0 → t.heap.settings.blockSize n = .ok size →
        t.heap.Discerns blocks p (.resizeOfFreed p) (Heap.realloc (some p) n) := by
  obtain ⟨L, H, _, tidy⟩ := (held_opened built.usable lawful).plain_run run
  have clean := tidy numbers tidy_opened
  obtain ⟨rs, S⟩ := H.sound
  have ids : L.nextId + 1 < wordLimit := by
    have := H.keeps.nextId ▸ numbers
    unfold Header.mark at this
    unfold wordLimit
    omega
  refine ⟨L.blocks, by rw [Heap.snapshot_eq H.keeps], fun p => ⟨?_, ?_, ?_⟩⟩
  · exact Heap.free_discerns H.keeps S clean
  · exact Heap.realloc_zero_discerns H.keeps S clean
  · intro n size positive fits
    exact Heap.realloc_discerns H.keeps S clean ids positive fits

/-- A block grows over one that was given back. The pointer to the latter leads to no block from then on,
and what is left over is free. -/
theorem run_rejects_absorbed : ∃ t,
    PlainRun (opened {} .standard)
        [.call (.malloc 500) (some 140737219915848),
          .store 140737219915848 0 [1, 2, 3],
          .call (.free (some 140737219915848)) none,
          .call (.malloc 24) (some 140737219915848),
          .call (.malloc 24) (some 140737219915944),
          .call (.free (some 140737219915944)) none,
          .call (.realloc (some 140737219915848) 200) (some 140737219915848)] t ∧
      t.heap.nextId ≤ Header.mark ∧
      (∃ a h', Heap.free (some 140737219915848) t.heap = .ok a h') ∧
      Heap.free (some 140737219915944) t.heap = .error (.notABlock 140737219915944) t.heap ∧
      Heap.realloc (some 140737219915944) 0 t.heap = .error (.notABlock 140737219915944) t.heap ∧
      Heap.realloc (some 140737219916120) 10 t.heap = .error (.resizeOfFreed 140737219916120) t.heap := by
  refine exists_plain_of_replay (q := fun t => decide (t.heap.nextId ≤ Header.mark ∧
      t.heap.settings = {} ∧ t.heap.snapshot.catalogue.items.map (fun b => (b.payload, b.used)) =
        [(140737219915848, true), (140737219916120, false)])) (by simp [Action.bytes, Header.leastMarkByte])
    (by decide +kernel) ?_
  intro t run checked
  obtain ⟨numbers, settings, listed⟩ := of_decide_eq_true checked
  obtain ⟨blocks, shown, rejects⟩ :=
    run_rejects .default Placement.standard_lawful run numbers
  rw [shown] at listed
  replace listed : blocks.map (fun b => (b.payload, b.used)) =
    [(140737219915848, true), (140737219916120, false)] := listed
  have found : ∀ p u, (p, u) ∈ [(140737219915848, true), (140737219916120, false)] →
      ∃ b ∈ blocks, b.payload = p ∧ b.used = u := by
    intro p u mem
    rw [← listed] at mem
    obtain ⟨b, hb, e⟩ := List.mem_map.1 mem
    exact ⟨b, hb, congrArg Prod.fst e, congrArg Prod.snd e⟩
  have absorbed : ∀ b ∈ blocks, b.payload ≠ 140737219915944 := by
    intro b hb e
    have mem : (140737219915944, b.used) ∈ [(140737219915848, true), (140737219916120, false)] := by
      rw [← listed, ← e]
      exact List.mem_map_of_mem (f := fun b : Block => (b.payload, b.used)) hb
    simp at mem
  have fits : t.heap.settings.blockSize 10 = .ok 16 := by
    rw [settings]
    rfl
  obtain ⟨free, zero, _⟩ := rejects 140737219915944
  exact ⟨numbers, (rejects 140737219915848).1.returns.2 (found _ _ (by simp)), free.other absorbed,
    zero.other absorbed, ((rejects 140737219916120).2.2 10 16 (by decide) fits).free (found _ _ (by simp))⟩

end Tenancy

end RegionHeap
