import RegionHeap.Proofs.Atomicity
import RegionHeap.Proofs.Retention
import RegionHeap.Proofs.Sound.Decisions

/-!
# Exact best fit

A request is served by the smallest free block that has room for it, of those that are as small by the one
that was put on the free list last. What is left over is cut off when it can be a block of its own.
Otherwise no block, region or member of the free list changes.

* `Best` — the free block that a request is served by.
* `Heap.Lists` — what the catalogue and the free list lead through.
* `Heap.Fitted` — what becomes of a heap when so many bytes are asked for, case by case.
* `best_of_find` — the first block that is large enough is the best one.
* `Tenancy.Run.exists_ranked` — after everything that may happen, equals stand in the order of their listings.
* `Tenancy.run_best_fit` — a request fits as well as it can.
-/

set_option autoImplicit false

namespace RegionHeap

/-- Of the blocks of `free`, the block `b` is the smallest that has room for `size` bytes, and of those
that are as small the one that the log tells of last. -/
structure Best (free : List Block) (log : List Event) (size : Nat) (b : Block) : Prop where
  mem : b ∈ free
  room : size ≤ b.size
  least : ∀ x ∈ free, size ≤ x.size → b.size ≤ x.size
  latest : ∀ x ∈ free, x.size = b.size → x ≠ b → (listings log).idxOf b < (listings log).idxOf x

namespace Heap

/-- The catalogue leads through `blocks` and the free list through `free`, and the heap counts them so. -/
def Lists (h : Heap) (blocks free : List Block) : Prop :=
  h.snapshot = ⟨h.regions, blocks.length, free.length, .ofList blocks, .ofList free⟩

/-- But for its lists, the heap `h'` is what `h` is after the given mappings, each of one region. So many
numbers were taken, `es` was recorded, and the payloads of those of `blocks` that are in use are as they
were. -/
structure Took (h : Heap) (blocks : List Block) (mappings : List Transfer) (numbers : Nat)
    (es : List Event) (h' : Heap) : Prop where
  settings : h'.settings = h.settings
  place : h'.space.place = h.space.place
  transfers : h'.space.transfers = mappings ++ h.space.transfers
  regions : h'.regions = h.regions + mappings.length
  nextId : h'.nextId = h.nextId + numbers
  log : h'.log = es ++ h.log
  payloads : ∀ x ∈ blocks, x.used = true → ∀ i, x.payload ≤ i → i < x.finish →
    h'.memory.byte i = h.memory.byte i

/-- What becomes of a heap with these blocks and this free list when `size` bytes are asked for, whole
words and no fewer than the smallest block, and what the answer is. -/
inductive Fitted (h : Heap) (blocks free : List Block) (size : Nat) : Except Failure Nat → Heap → Prop
  /-- The best block leaves the free list as it is: what would be left over could not be a block. -/
  | whole {xs ys us vs : List Block} {b : Block} {h' : Heap} (best : Best free h.log size b)
      (around : blocks = xs ++ b :: ys) (among : free = us ++ b :: vs)
      (short : b.size - size < Header.length + h.settings.minBlock)
      (lists : h'.Lists (xs ++ { b with used := true } :: ys) (us ++ vs))
      (took : h.Took blocks [] 0 [.chosen { b with used := true }] h') :
      Fitted h blocks free size (.ok b.payload) h'
  /-- The best block keeps so many bytes, and the rest is a free block right after it. -/
  | cut {xs ys us vs : List Block} {b front rest : Block} {h' : Heap} (best : Best free h.log size b)
      (around : blocks = xs ++ b :: ys) (among : free = us ++ b :: vs)
      (long : Header.length + h.settings.minBlock ≤ b.size - size)
      (kept : front = { b with size, used := true })
      (left : rest = ⟨b.payload + size, true, b.size - size - Header.length, h.nextId, false,
        b.fromBreak, b.region⟩)
      (lists : h'.Lists (xs ++ front :: rest :: ys) ((us ++ vs).orderedInsert Block.NoLarger rest))
      (took : h.Took blocks [] 1
        [.fresh rest, .front front, .cutting { b with used := true }, .chosen { b with used := true }]
        h') :
      Fitted h blocks free size (.ok b.payload) h'
  /-- No free block has room, and a region is mapped for one block of so many bytes. -/
  | mapped {start : Nat} {b : Block} {h' : Heap} (full : ∀ x ∈ free, x.size < size)
      (place : h.space.place h.space.transfers (Header.length + size) = .ok start)
      (new : b = ⟨start, true, size, h.nextId, true, false, start⟩)
      (lists : h'.Lists (blocks ++ [b]) free)
      (took : h.Took blocks [.mapped ⟨start, Header.length + size⟩] 1 [.fresh b] h') :
      Fitted h blocks free size (.ok b.payload) h'
  /-- No free block has room, and the mapping is refused. -/
  | refused {cause : Refusal} (full : ∀ x ∈ free, x.size < size)
      (place : h.space.place h.space.transfers (Header.length + size) = .error cause) :
      Fitted h blocks free size (.error (.mapFailed (Header.length + size) cause))
        (h.logging (.mapFailed (Header.length + size) cause))

variable {h h' : Heap} {L : Ledger} {rs : List Region} {blocks free : List Block} {size : Nat}
  {answer : Except Failure Nat}

theorem Keeps.lists (K : h.Keeps L) : h.Lists L.blocks L.free := by
  unfold Lists
  rw [snapshot_eq K, K.regions]

theorem Lists.catalogue (lists : h.Lists blocks free) : h.snapshot.catalogue.items = blocks := by
  unfold Lists at lists
  rw [lists]
  rfl

/-- The block that is handed out has no more bytes to spare than would make another one. -/
theorem Fitted.exists_block (fitted : h.Fitted blocks free size answer h') (p : Nat)
    (answered : answer = .ok p) : ∃ c ∈ h'.snapshot.catalogue.items, c.used = true ∧ c.payload = p ∧
      size ≤ c.size ∧ c.size < size + (Header.length + h.settings.minBlock) := by
  have header : 0 < Header.length := by decide
  cases fitted with
  | @whole xs ys us vs b h' best around among short lists took =>
    cases answered
    rw [lists.catalogue]
    have room := best.room
    exact ⟨{ b with used := true }, by simp, rfl, rfl, room, by dsimp only; omega⟩
  | @cut xs ys us vs b front rest h' best around among long kept left lists took =>
    cases answered
    rw [lists.catalogue]
    subst kept
    exact ⟨_, List.mem_append_right _ List.mem_cons_self, rfl, rfl, Nat.le_refl _,
      by dsimp only; omega⟩
  | mapped full place new lists took =>
    cases answered
    rw [lists.catalogue]
    subst new
    exact ⟨_, List.mem_append_right _ List.mem_cons_self, rfl, rfl, Nat.le_refl _,
      by dsimp only; omega⟩
  | refused => cases answered

end Heap

/-- In a list that is sorted and ranked, the first block that is large enough is the best one. -/
theorem best_of_find {F : List Block} {log : List Event} {b : Block} {size : Nat}
    (sorted : F.Pairwise Block.NoLarger) (ranked : Ranked F (listings log))
    (found : (F.find? fun x => size ≤ x.size) = some b) :
    Best F log size b ∧ ∃ us vs, F = us ++ b :: vs := by
  obtain ⟨room, us, vs, rfl, less⟩ := List.find?_eq_some_iff_append.1 found
  have room : size ≤ b.size := by simpa using room
  have less : ∀ x ∈ us, x.size < size := fun x hx => by simpa using less x hx
  have sorted := (List.pairwise_cons.1 (List.pairwise_append.1 sorted).2.1).1
  have latest := (List.pairwise_cons.1 (List.pairwise_append.1 ranked.latest).2.1).1
  refine ⟨⟨by simp, room, ?_, ?_⟩, us, vs, rfl⟩
  · intro x hx large
    rcases List.mem_append.1 hx with hx | hx
    · exact absurd large (Nat.not_le.2 (less x hx))
    rcases List.mem_cons.1 hx with rfl | hx
    · exact Nat.le_refl _
    · exact sorted x hx
  · intro x hx same ne
    rcases List.mem_append.1 hx with hx | hx
    · exact absurd (less x hx) (Nat.not_lt.2 (same ▸ room))
    · exact latest x ((List.mem_cons.1 hx).resolve_left ne) same.symm

namespace Heap

variable {E : Fault → Prop} {h h' : Heap} {L : Ledger} {rs : List Region} {n size : Nat}

theorem Passed.took {L' : Ledger} {x : Exchange} {mappings : List Transfer} {numbers : Nat}
    {es : List Event} (K : h.Keeps L) (P : Passed h L x h' L')
    (kept : ∀ b ∈ x.taken, ∀ i, b.payload ≤ i → i < b.finish → h'.memory.byte i = h.memory.byte i)
    (history : x.history L.transfers = mappings ++ L.transfers)
    (regions : L'.regions = L.regions + mappings.length) (nextId : L'.nextId = L.nextId + numbers)
    (log : h'.log = es ++ h.log) : h.Took L.blocks mappings numbers es h' where
  settings := by rw [P.keeps.settings, P.settings, K.settings]
  place := by rw [P.keeps.place, P.place, K.place]
  transfers := by rw [P.keeps.transfers, P.history, history, K.transfers]
  regions := by rw [P.keeps.regions, regions, K.regions]
  nextId := by rw [P.keeps.nextId, nextId, K.nextId]
  log := log
  payloads b hb used := by
    by_cases taken : b ∈ x.taken
    · exact kept b taken
    · exact P.same b (Ledger.mem_used.2 ⟨hb, used⟩) taken

/-- The front of the best block is handed out. -/
theorem fitted_take {b : Block} {xs ys : List Block} (K : h.Keeps L) (S : L.Sound rs)
    (ranked : Ranked L.free (listings h.log)) (found : (L.free.find? fun x => size ≤ x.size) = some b)
    (blocks : L.blocks = xs ++ b :: ys) {c : Block}
    (P : Passed h L { given := some c } h' (L.take xs b ys size))
    (log : h'.log = L.handing size ++ h.log) :
    h.Fitted L.blocks L.free size (.ok b.payload) h' := by
  obtain ⟨best, us, vs, among⟩ := best_of_find S.sorted ranked found
  have rest : L.free.erase b = us ++ vs := by
    have nodup := K.nodupFree
    rw [among] at nodup ⊢
    exact erase_middle nodup
  have lists := P.keeps.lists
  unfold Ledger.handing at log
  rw [found] at log
  dsimp only at log
  by_cases short : b.size - size < Header.length + L.settings.minBlock
  · rw [Ledger.take_of_lt short] at lists P
    rw [Block.cutting_of_lt (b := b.withUsed true) short] at log
    refine .whole best blocks among (K.settings ▸ short) ?_ (P.took K (by simp) rfl rfl rfl log)
    rw [← rest]
    exact lists
  · have long := Nat.le_of_not_lt short
    rw [Ledger.take_of_le long] at lists P
    rw [Block.cutting_of_le (b := b.withUsed true) long] at log
    refine .cut best blocks among (K.settings ▸ long) rfl rfl ?_ ?_
    · rw [← rest, K.nextId]
      exact lists
    · rw [K.nextId]
      exact P.took K (by simp) rfl rfl rfl log

/-- A call that has changed nothing but the log. -/
theorem Untouched.eq_logging {e : Event} (untouched : h.Untouched h') (log : h'.log = [e] ++ h.log) :
    h' = h.logging e := by
  rcases untouched with rfl | ⟨len, cause, rfl⟩
  · exact absurd log.symm (List.cons_ne_self e h'.log)
  · rw [← (List.cons.inj log).1]

theorem full_iff {F : List Block} :
    (F.find? fun x => size ≤ x.size) = none ↔ ∀ x ∈ F, x.size < size := by
  simp

/-- A request on a sound heap whose free list is ranked fits as well as it can. -/
theorem allocate_fitted (K : h.Keeps L) (S : L.Sound rs) (ranked : Ranked L.free (listings h.log))
    (valid : L.settings.blockSize n = .ok size)
    (ids : L.Makes n → L.nextId + 1 < wordLimit ∨ E .additionOverflow) :
    Yields E (allocate n) h fun answer h' => h.Fitted L.blocks L.free size answer h' := by
  have asked : L.asking n = L.handing size := by
    unfold Ledger.asking
    rw [valid]
  refine (allocate_handed K S ids).with_run.mono fun answer h' post => ?_
  obtain ⟨run, post⟩ := post
  cases answer with
  | error failure =>
    obtain ⟨refused, _, recorded⟩ := post
    have untouched := (allocate_error n).of_ok run failure rfl
    have log := recorded.log
    cases refused with
    | size invalid => exact nomatch valid.symm.trans invalid
    | mapping valid' full place =>
      obtain rfl := Except.ok.inj (valid.symm.trans valid')
      unfold Ledger.handing at asked
      rw [full, place] at asked
      rw [asked] at log
      rw [untouched.eq_logging log]
      rw [← K.place, ← K.transfers] at place
      exact .refused (full_iff.1 full) place
  | ok p =>
    obtain ⟨size', L', c, s, valid', handed, P, recorded, rfl, _⟩ := post
    obtain rfl := Except.ok.inj (valid.symm.trans valid')
    have log := recorded.log
    rw [asked] at log
    cases handed with
    | reused found blocks =>
      have fitted := fitted_take K S ranked found blocks P log
      unfold Block.payload at *
      rw [Block.addr_front]
      exact fitted
    | mapped full place =>
      unfold Ledger.handing at log
      rw [full, place] at log
      have took := P.took K (by simp) rfl rfl rfl log
      rw [← K.place, ← K.transfers] at place
      exact .mapped (full_iff.1 full) place (by rw [K.nextId]; rfl) P.keeps.lists took

end Heap

namespace Tenancy

variable {settings : Settings} {place : Placement} {as : List Action} {t u : Tenancy} {L : Ledger}

/-- One thing that happens leaves the free list ranked. -/
theorem Held.step_ranked {a : Action} (H : t.Held L) (ranked : Ranked L.free (listings t.heap.log))
    (step : Step t a u) : ∃ L', u.Held L' ∧ Ranked L'.free (listings u.heap.log) := by
  obtain ⟨rs, S⟩ := H.sound
  cases step with
  | @call c answer heap legal run =>
    obtain ⟨_, es, L', D⟩ := Ledger.perform_decides S (H.legal_blocks legal)
    obtain ⟨_, H', log⟩ := H.decided D (.call legal run)
    rw [log]
    exact ⟨L', H', D.ranks _ ranked⟩
  | store held within => exact ⟨L, ⟨H.store_keeps held within, H.sound, H.grants, H.room⟩, ranked⟩
  | remap lawful => exact ⟨_, H.remap lawful, ranked⟩

theorem Held.run_ranked (H : t.Held L) (ranked : Ranked L.free (listings t.heap.log))
    (run : Run t as u) : ∃ L', u.Held L' ∧ Ranked L'.free (listings u.heap.log) := by
  induction run generalizing L with
  | nil => exact ⟨L, H, ranked⟩
  | cons step _ ih =>
    obtain ⟨L', H', ranked'⟩ := H.step_ranked ranked step
    exact ih H' ranked'

/-- Whatever happens to a heap that was just made, equals stand in its free list in the order of their
listings. -/
theorem Run.exists_ranked (run : Run (opened settings place) as t) (built : settings.Built)
    (lawful : place.Lawful) : ∃ L, t.Held L ∧ Ranked L.free (listings t.heap.log) :=
  (held_opened built.usable lawful).run_ranked .nil run

/-- **A request fits as well as it can.** After everything that may happen, the free list leads through
the free blocks, and equals stand in it in the order in which they were put there, the latest first. When a
block of `size` bytes would serve a request, the best free block is handed out, whole or cut to `size` and
with what is left over right after it and at its place in the free list; if there is none, exactly `size`
bytes and a header are mapped, or that mapping was refused. Nothing else changes, and the block that is
handed out has less to spare than would make another block. The call returns, unless it takes a number and
there is none left. -/
theorem run_best_fit {n size : Nat} (built : settings.Built) (lawful : place.Lawful)
    (run : Run (opened settings place) as t) (valid : settings.blockSize n = .ok size) :
    ∃ blocks free, t.heap.Lists blocks free ∧ free.Perm (blocks.filter fun b => !b.used) ∧
      Ranked free (listings t.heap.log) ∧
      Heap.Yields t.heap.Spent (Heap.allocate n) t.heap fun answer h' =>
        t.heap.Fitted blocks free size answer h' ∧
          ∀ p, answer = .ok p → ∃ c ∈ h'.snapshot.catalogue.items, c.used = true ∧ c.payload = p ∧
            size ≤ c.size ∧ c.size < size + (Header.length + settings.minBlock) := by
  obtain ⟨L, H, ranked⟩ := run.exists_ranked built lawful
  obtain ⟨L', R⟩ := run.exists_retained built lawful
  obtain rfl := H.keeps.unique R.held.keeps
  obtain ⟨rs, S⟩ := H.sound
  have own := R.settings_eq
  rw [← own] at valid ⊢
  refine ⟨L.blocks, L.free, H.keeps.lists, S.free, ranked, ?_⟩
  have ids : L.Makes n → L.nextId + 1 < wordLimit ∨ t.heap.Spent .additionOverflow := by
    intro _
    rw [← H.keeps.nextId]
    exact (Nat.lt_or_ge _ _).imp_right fun spent => ⟨rfl, spent⟩
  refine (Heap.allocate_fitted H.keeps S ranked valid ids).mono fun answer h' fitted => ⟨fitted, ?_⟩
  rw [← H.keeps.settings]
  exact fitted.exists_block

/-- Of three free blocks two are of the smallest size that is large enough, and the one given back last is
handed out, whole. -/
theorem run_best_fit_equals : ∃ t,
    Run (opened {} .standard)
      [.call (.malloc 64) (some 140737219915848),
        .call (.malloc 64) (some 140737219911752),
        .call (.malloc 500) (some 140737219907656),
        .call (.free (some 140737219907656)) none,
        .call (.free (some 140737219915848)) none,
        .call (.free (some 140737219911752)) none] t ∧
      Heap.answer? (Heap.allocate 40) t.heap = some (.ok 140737219911752) ∧
      ∃ blocks free, t.heap.Lists blocks free ∧ free.Perm (blocks.filter fun b => !b.used) ∧
        Ranked free (listings t.heap.log) ∧
        Heap.Yields t.heap.Spent (Heap.allocate 40) t.heap fun answer h' =>
          t.heap.Fitted blocks free 40 answer h' ∧
            ∀ p, answer = .ok p → ∃ c ∈ h'.snapshot.catalogue.items, c.used = true ∧ c.payload = p ∧
              40 ≤ c.size ∧ c.size < 40 + (Header.length + Settings.minBlock {}) :=
  exists_of_replay_where
    (q := fun t => decide (Heap.answer? (Heap.allocate 40) t.heap = some (.ok 140737219911752)))
    (by decide +kernel) fun _ run latest => ⟨of_decide_eq_true latest,
      run_best_fit .default Placement.standard_lawful run (by decide)⟩

end Tenancy

end RegionHeap
