import RegionHeap.Allocator
import RegionHeap.Proofs.Sound.Decisions

/-!
# Client data never steers the heap

Two clients make the same calls, each on its own heap, and write what they like to the payloads that they
hold. Neither the answers nor anything that a heap shows of itself tells the one from the other.

* `Tenancy.Trace` — calls and what comes between them, except for what the client writes.
* `Tenancy.Run.trace` — what a client stores within what it asked for is such writing.
* `Action.Alike` — the same calls on corresponding pointers.
* `Heap.LooksLike` — two heaps show the same of themselves.
* `Ledger.Decides.outcome_eq` — what comes of a call depends on the ledger alone.
* `Tenancy.noninterference` — clients that do alike get the same answers and see the same.
-/

set_option autoImplicit false

namespace RegionHeap

/-! ### Calls on corresponding pointers -/

/-- The call without its pointer. -/
def Call.shape : Call → Call
  | free _ => free none
  | realloc _ size => realloc none size
  | call => call

/-- The same call, on null on both sides or on a pair of pointers of `ρ`. -/
structure Call.Alike (ρ : List (Nat × Nat)) (c d : Call) : Prop where
  shape : c.shape = d.shape
  argument : Option.Rel (fun p q => (p, q) ∈ ρ) c.argument d.argument

/-- The same calls on corresponding pointers, and the same choices of where mappings go. Pointers
correspond, besides those of `ρ`, when they were answered to corresponding calls. -/
inductive Action.Alike : List (Nat × Nat) → List Action → List Action → Prop
  | nil {ρ : List (Nat × Nat)} : Alike ρ [] []
  | call {ρ : List (Nat × Nat)} {c d : Call} {a b : Option Nat} {as bs : List Action}
      (same : c.Alike ρ d) (rest : Alike (a.toList.zip b.toList ++ ρ) as bs) :
      Alike ρ (.call c a :: as) (.call d b :: bs)
  | remap {ρ : List (Nat × Nat)} {place : Placement} {as bs : List Action} (rest : Alike ρ as bs) :
      Alike ρ (.remap place :: as) (.remap place :: bs)

/-- Whether the action is more than a store. -/
def Action.shows : Action → Bool
  | store .. => false
  | _ => true

/-- Where corresponding pointers are the same, so are calls on them. -/
theorem Call.Alike.eq {ρ : List (Nat × Nat)} {c d : Call} (alike : c.Alike ρ d)
    (same : ∀ x ∈ ρ, x.1 = x.2) : c = d := by
  have argument : c.argument = d.argument := by
    cases e : c.argument with
    | none =>
      have := alike.argument
      rw [e] at this
      cases e' : d.argument with
      | none => rfl
      | some q =>
        rw [e'] at this
        cases this
    | some p =>
      have := alike.argument
      rw [e] at this
      cases e' : d.argument with
      | none =>
        rw [e'] at this
        cases this
      | some q =>
        rw [e'] at this
        cases this with
        | some pair => exact congrArg some (same _ pair)
  have shape := alike.shape
  cases c <;> cases d <;> simp_all [Call.shape, Call.argument]

/-! ### What a heap shows -/

namespace Heap

/-- The answer of the call, or the fault that stops it. -/
def outcome {α : Type} (call : HeapM α) (h : Heap) : Except Fault α :=
  match call h with
  | .ok a _ => .ok a
  | .error fault _ => .error fault

/-- Two heaps show the same of themselves: in figures, in their reports, to an audit and in the log. -/
structure LooksLike (h k : Heap) : Prop where
  statistics : h.statistics = k.statistics
  inventory : Allocator.inventoryText h.atlas h = Allocator.inventoryText k.atlas k
  leaks : Allocator.leakText h.atlas h = Allocator.leakText k.atlas k
  audit : h.audit = k.audit
  log : h.log = k.log
  lines : h.log.map (Event.line h.atlas) = k.log.map (Event.line k.atlas)

end Heap

/-- What comes of a call depends on the ledger alone. -/
theorem Ledger.Decides.outcome_eq {α : Type} {L L' : Ledger} {call : HeapM α} {a : α}
    {es : List Event} {h : Heap} (D : L.Decides call a es L') (K : h.Keeps L) :
    Heap.outcome call h =
      if L'.nextId = L.nextId ∨ L.nextId + 1 < wordLimit then .ok a else .error .additionOverflow := by
  unfold Heap.outcome
  split
  · next answer h' run =>
    obtain ⟨rfl, _, recorded⟩ := (D.yields (fun _ => True) h K fun _ => .inr trivial).of_ok run
    rw [if_pos]
    by_cases same : L'.nextId = L.nextId
    · exact .inl same
    · have room := recorded.room same
      rw [D.numbers.resolve_left same] at room
      exact .inr room
  · next fault h' run =>
    have stopped := D.yields (fun f => f = .additionOverflow) h K fun _ => .inr rfl
    unfold Heap.Yields at stopped
    rw [run] at stopped
    have spent : ¬ (L'.nextId = L.nextId ∨ L.nextId + 1 < wordLimit) := by
      intro left
      have returned := D.yields (fun _ => False) h K fun ne => .inl (left.resolve_left ne)
      unfold Heap.Yields at returned
      rw [run] at returned
      exact returned
    rw [if_neg spent, show fault = .additionOverflow from stopped]

/-- Heaps that keep one ledger and recorded the same show the same. -/
theorem Heap.Keeps.looksLike {h k : Heap} {L : Ledger} {rs : List Region} (K : h.Keeps L)
    (K' : k.Keeps L) (S : L.Sound rs) (log : h.log = k.log) : h.LooksLike k := by
  have atlas : h.atlas = k.atlas := by
    unfold atlas AddressSpace.atlas AddressSpace.mappings
    rw [K.transfers, K'.transfers]
  have inventory : Allocator.inventory h = Allocator.inventory k :=
    congrArg (some <$> ·) ((inventory_eq K S.toLaid).trans (inventory_eq K' S.toLaid).symm)
  have leaks : Allocator.leakStatus h = Allocator.leakStatus k := by
    show h.leakStatus = k.leakStatus
    unfold leakStatus
    rw [leaks_eq K S.toLaid, leaks_eq K' S.toLaid]
  refine ⟨(statistics_eq K S.toLaid).trans (statistics_eq K' S.toLaid).symm, ?_, ?_,
    (audit_eq K S).trans (audit_eq K' S).symm, log, by rw [atlas, log]⟩
  · unfold Allocator.inventoryText
    rw [inventory, atlas]
  · unfold Allocator.leakText
    rw [leaks, atlas]

namespace Tenancy

variable {t t' u u' : Tenancy} {L : Ledger} {as bs : List Action} {m : Memory}

/-! ### Traces -/

/-- The byte is one of a payload that the client holds. -/
def Owns (t : Tenancy) (i : Nat) : Prop :=
  ∃ g ∈ t.live, g.pointer ≤ i ∧ i < (g.block t.heap).finish

/-- The tenancy with other bytes in memory. -/
def withMemory (t : Tenancy) (m : Memory) : Tenancy :=
  ⟨t.heap.withMemory m, t.live⟩

/-- The memory `m` differs from the heap's only in payloads that the client holds. -/
def Writes (t : Tenancy) (m : Memory) : Prop :=
  Memory.SameBut t.Owns t.heap.memory m

/-- Everything that happens, in order, except for what the client writes: before each action and after
the last one, there may be any other bytes in the payloads that the client holds. -/
inductive Trace : Tenancy → List Action → Tenancy → Prop
  | nil {t : Tenancy} {m : Memory} (writes : t.Writes m) : Trace t [] (t.withMemory m)
  | cons {t u v : Tenancy} {m : Memory} {a : Action} {as : List Action} (writes : t.Writes m)
      (step : Step (t.withMemory m) a u) (rest : Trace u as v) : Trace t (a :: as) v

namespace Held

/-- Payloads that the client holds are between the headers. -/
theorem not_headers (H : t.Held L) {i : Nat} (own : t.Owns i) : ¬ L.Headers i := by
  obtain ⟨g, hg, lo, up⟩ := own
  obtain ⟨hb, e, _⟩ := H.block_held hg
  obtain ⟨rs, S⟩ := H.sound
  rw [← e] at lo
  exact S.payload_clear (Ledger.mem_used.1 hb).1 lo up

theorem write (H : t.Held L) (writes : t.Writes m) : (t.withMemory m).Held L :=
  ⟨H.keeps.of_bytes fun i header => writes i fun own => H.not_headers own header, H.sound, H.grants,
    H.room⟩

/-- What the client writes does not change what it holds. -/
theorem owns_write (H : t.Held L) (writes : t.Writes m) : (t.withMemory m).Owns = t.Owns := by
  have H' := H.write writes
  have same : ∀ g ∈ t.live, g.block (t.withMemory m).heap = g.block t.heap := by
    intro g hg
    obtain ⟨hb, e, _⟩ := H.block_held hg
    exact H'.block_eq hb e
  funext i
  refine propext ⟨?_, ?_⟩
  · rintro ⟨g, hg, lo, up⟩
    rw [same g hg] at up
    exact ⟨g, hg, lo, up⟩
  · rintro ⟨g, hg, lo, up⟩
    rw [← same g hg] at up
    exact ⟨g, hg, lo, up⟩

/-- What the client wrote before a trace belongs to it. -/
theorem trace_write (H : t.Held L) (writes : t.Writes m) (trace : Trace (t.withMemory m) as u) :
    Trace t as u := by
  have same := H.owns_write writes
  have all : ∀ m', (t.withMemory m).Writes m' → t.Writes m' := by
    intro m' writes'
    unfold Writes at writes'
    rw [same] at writes'
    exact writes.trans writes'
  cases trace with
  | nil writes' => exact .nil (all _ writes')
  | cons writes' step rest => exact .cons (all _ writes') step rest

end Held

/-- What a client stores within what it asked for is written to payloads that it holds. -/
theorem Run.trace (run : Run t as u) (H : t.Held L) : Trace t (as.filter Action.shows) u := by
  induction run generalizing L with
  | @nil t => exact .nil (Memory.SameBut.refl _ t.heap.memory)
  | @cons t v u a as step rest ih =>
    obtain ⟨L', H'⟩ := H.step step
    cases step with
    | call legal run => exact .cons (Memory.SameBut.refl _ _) (.call legal run) (ih H')
    | remap lawful => exact .cons (Memory.SameBut.refl _ _) (.remap lawful) (ih H')
    | @store g offset bytes held within =>
      have writes : t.Writes (t.heap.memory.setBytes (g.pointer + offset) bytes) := by
        intro i outside
        obtain ⟨_, e, room⟩ := H.block_held held
        have : ¬ (g.pointer ≤ i ∧ i < (g.block t.heap).finish) := fun inside =>
          outside ⟨g, held, inside⟩
        apply Memory.byte_setBytes_of_outside
        unfold Block.finish at this
        omega
      exact H.trace_write writes (ih H')

/-! ### Twins -/

/-- The two heaps keep one ledger and recorded the same, and their clients hold the same. -/
structure Twins (t u : Tenancy) : Prop where
  held : ∃ L, t.Held L ∧ u.Held L
  live : t.live = u.live
  log : t.heap.log = u.heap.log

namespace Twins

theorem symm (T : Twins t u) : Twins u t :=
  ⟨T.held.imp fun _ H => H.symm, T.live.symm, T.log.symm⟩

theorem write (T : Twins t u) (writes : t.Writes m) : Twins (t.withMemory m) u := by
  obtain ⟨L, H, H'⟩ := T.held
  exact ⟨⟨L, H.write writes, H'⟩, T.live, T.log⟩

/-- The same call has the same answer, and the heaps are twins after it. -/
theorem call {c : Call} {a b : Option Nat} (T : Twins t u) (left : Step t (.call c a) t')
    (right : Step u (.call c b) u') : a = b ∧ Twins t' u' := by
  obtain ⟨L, H, K⟩ := T.held
  obtain ⟨rs, S⟩ := H.sound
  have legal : t.Legal c := by
    cases left with
    | call legal => exact legal
  obtain ⟨answer, es, L', D⟩ := Ledger.perform_decides S (H.legal_blocks legal)
  obtain ⟨rfl, H', log⟩ := H.decided D left
  obtain ⟨rfl, K', log'⟩ := K.decided D right
  have live : t'.live = u'.live := by
    cases left
    cases right
    exact congrArg (c.settle _) T.live
  exact ⟨rfl, ⟨L', H', K'⟩, live, by rw [log, log', T.log]⟩

/-- The same choice of where mappings go leaves the heaps twins. -/
theorem remap {place : Placement} (T : Twins t u) (left : Step t (.remap place) t')
    (right : Step u (.remap place) u') : Twins t' u' := by
  obtain ⟨L, H, K⟩ := T.held
  cases left with
  | remap lawful =>
    cases right with
    | remap => exact ⟨⟨_, H.remap lawful, K.remap lawful⟩, T.live, T.log⟩

theorem looksLike (T : Twins t u) : t.heap.LooksLike u.heap := by
  obtain ⟨L, H, K⟩ := T.held
  obtain ⟨rs, S⟩ := H.sound
  exact H.keeps.looksLike K.keeps S T.log

/-- Clients of twins that do alike get the same answers and leave twins. -/
theorem trace {ρ : List (Nat × Nat)} (T : Twins t u) (alike : Action.Alike ρ as bs)
    (same : ∀ x ∈ ρ, x.1 = x.2) (left : Trace t as t') (right : Trace u bs u') :
    as = bs ∧ Twins t' u' := by
  induction alike generalizing t u with
  | nil =>
    cases left with
    | nil writes =>
      cases right with
      | nil writes' => exact ⟨rfl, ((T.write writes).symm.write writes').symm⟩
  | @call ρ c d a b as bs alike _ ih =>
    obtain rfl := alike.eq same
    cases left with
    | cons writes step rest =>
      cases right with
      | cons writes' step' rest' =>
        obtain ⟨rfl, T₁⟩ := ((T.write writes).symm.write writes').symm.call step step'
        have same₁ : ∀ x ∈ a.toList.zip a.toList ++ ρ, x.1 = x.2 := by
          intro x hx
          rcases List.mem_append.1 hx with hx | hx
          · cases a with
            | none => cases hx
            | some p =>
              rw [List.mem_singleton.1 hx]
          · exact same x hx
        obtain ⟨rfl, T'⟩ := ih T₁ same₁ rest rest'
        exact ⟨rfl, T'⟩
  | remap _ ih =>
    cases left with
    | cons writes step rest =>
      cases right with
      | cons writes' step' rest' =>
        have T₁ := ((T.write writes).symm.write writes').symm.remap step step'
        obtain ⟨rfl, T'⟩ := ih T₁ same rest rest'
        exact ⟨rfl, T'⟩

end Twins

/-- **Client data never steers the heap.** Two heaps of one kind are made, and their clients make the
same calls on corresponding pointers, while each of them writes what it likes to the payloads that it
holds. Then every call had the same answer, the clients hold the same pointers, and both heaps show the
same: statistics, inventory, leak report, audit and log. Any further legal call would be answered the same
by both, with the same failure if it fails, or be stopped by the same fault. -/
theorem noninterference {settings : Settings} {place : Placement} (built : settings.Built)
    (lawful : place.Lawful) (left : Trace (opened settings place) as t)
    (right : Trace (opened settings place) bs u) (alike : Action.Alike [] as bs) :
    as = bs ∧ t.live = u.live ∧ t.heap.LooksLike u.heap ∧
      (∀ c, t.Legal c → Heap.outcome c.perform t.heap = Heap.outcome c.perform u.heap) ∧
      (∀ n, Heap.outcome (Heap.allocate n) t.heap = Heap.outcome (Heap.allocate n) u.heap) ∧
      ∀ count n, Heap.outcome (Heap.allocateZeroed count n) t.heap =
        Heap.outcome (Heap.allocateZeroed count n) u.heap := by
  have start := held_opened built.usable lawful
  have twins : Twins (opened settings place) (opened settings place) := ⟨⟨_, start, start⟩, rfl, rfl⟩
  obtain ⟨same, T⟩ := twins.trace alike (by simp) left right
  obtain ⟨L, H, K⟩ := T.held
  obtain ⟨rs, S⟩ := H.sound
  refine ⟨same, T.live, T.looksLike, ?_, ?_, ?_⟩
  · intro c legal
    obtain ⟨_, _, _, D⟩ := Ledger.perform_decides S (H.legal_blocks legal)
    exact (D.outcome_eq H.keeps).trans (D.outcome_eq K.keeps).symm
  · intro n
    obtain ⟨_, _, D⟩ := Ledger.allocate_decides S n
    exact (D.outcome_eq H.keeps).trans (D.outcome_eq K.keeps).symm
  · intro count n
    obtain ⟨_, _, _, D⟩ := Ledger.allocateZeroed_decides S count n
    exact (D.outcome_eq H.keeps).trans (D.outcome_eq K.keeps).symm

/-- The one client stores bytes where the other one stores others, or none. What they stored is cut up
and moved all the same. -/
theorem noninterference_stored : ∃ t,
    Run (opened {} .standard)
      [.call (.malloc 500) (some 140737219915848),
        .store 140737219915848 100 [1, 2, 3],
        .call (.malloc 24) (some 140737219911752),
        .call (.free (some 140737219915848)) none,
        .call (.malloc 40) (some 140737219915848),
        .store 140737219915848 0 [7],
        .call (.realloc (some 140737219915848) 5000) (some 140737219903560)] t ∧
    ∃ u, Run (opened {} .standard)
        [.call (.malloc 500) (some 140737219915848),
          .call (.malloc 24) (some 140737219911752),
          .store 140737219911752 0 [255, 255],
          .call (.free (some 140737219915848)) none,
          .call (.malloc 40) (some 140737219915848),
          .store 140737219915848 0 [8],
          .call (.realloc (some 140737219915848) 5000) (some 140737219903560)] u ∧
      t.heap.memory.byte 140737219903560 = 7 ∧ u.heap.memory.byte 140737219903560 = 8 ∧
      t.live = u.live ∧ t.heap.LooksLike u.heap :=
  exists_of_replay_where (q := fun t => decide (t.heap.memory.byte 140737219903560 = 7))
    (by decide +kernel) fun t left seven =>
  exists_of_replay_where (q := fun u => decide (u.heap.memory.byte 140737219903560 = 8))
    (by decide +kernel) fun u right eight => by
      have start := held_opened Settings.Built.default.usable Placement.standard_lawful
      have alike := noninterference .default Placement.standard_lawful (left.trace start)
        (right.trace start) (.call ⟨rfl, .none⟩ (.call ⟨rfl, .none⟩ (.call ⟨rfl, .some (by decide)⟩
          (.call ⟨rfl, .none⟩ (.call ⟨rfl, .some (by decide)⟩ .nil)))))
      exact ⟨of_decide_eq_true seven, of_decide_eq_true eight, alike.2.1, alike.2.2.1⟩

end Tenancy

end RegionHeap
