import RegionHeap.Proofs.Retention
import RegionHeap.Proofs.Sound.Undo

/-!
# Allocating and giving back are inverse

A block that is handed out and given back at once leaves the heap as it was, but for its numbers and a
region that comes or goes. A block that is given back, merged with nothing, and asked for again is handed
out as it was.

* `Heap.Restored`, `Heap.Undone` — a heap that says what it said, and what an allocation and a free leave.
* `Heap.free_handed` — giving back what was just handed out.
* `Heap.free_lone`, `Heap.malloc_merge` — giving back a block that has no free neighbour, and getting it
  again.
* `Tenancy.run_inverse` — both, after everything that may happen.
-/

set_option autoImplicit false

namespace RegionHeap

namespace Heap

/-! ### Heaps that say the same -/

/-- The heap `h'` says what `h` said: all headers along both chains, the chains themselves and the number
of regions, and it holds the same bytes in the blocks in use. -/
structure Restored (h h' : Heap) : Prop where
  settings : h'.settings = h.settings
  place : h'.space.place = h.space.place
  catalogue : h'.catalogue = h.catalogue
  freeList : h'.freeList = h.freeList
  snapshot : h'.snapshot = h.snapshot
  bytes : ∀ b ∈ h.snapshot.catalogue.items, b.used = true → ∀ i, b.payload ≤ i → i < b.finish →
    h'.memory.byte i = h.memory.byte i

/-- No number was taken and no block made, or one of each. -/
def Numbered (h h' : Heap) : Prop :=
  (h'.catalogue.length = h.catalogue.length ∧ h'.nextId = h.nextId) ∨
    (h'.catalogue.length = h.catalogue.length + 1 ∧ h'.nextId = h.nextId + 1)

/-- The heap `h` has the regions `rs` and the free list `unused`. Handing out the block behind `p` led to
`h₁`, and giving it back at once to `h₂`. -/
inductive Undone (h : Heap) (rs : List Region) (unused : List Block) (p : Nat) (h₁ h₂ : Heap) : Prop
  /-- The block was free or the front of a free one, and is so again. -/
  | rejoined {b : Block} (served : h₁.space.transfers = h.space.transfers)
      (listed : b ∈ unused) (pointer : b.payload = p)
      (stays : ¬ (h.settings.retained < h.regions ∧ h.fillsRegion b.addr = true))
      (numbered : h.Numbered h₁) (nextId : h₂.nextId = h₁.nextId) (restored : h.Restored h₂)
      (transfers : h₂.space.transfers = h₁.space.transfers)
  /-- The free block is all of its region, and the region is given back. -/
  | closed {b : Block} {rs₁ rs₂ : List Region} {span : Span}
      (served : h₁.space.transfers = h.space.transfers) (listed : b ∈ unused)
      (pointer : b.payload = p) (many : h.settings.retained < h.regions)
      (regions : rs = rs₁ ++ ⟨span, [b]⟩ :: rs₂) (numbered : h.Numbered h₁)
      (nextId : h₂.nextId = h₁.nextId) (sound : h₂.Sound (rs₁ ++ rs₂) (unused.erase b))
      (transfers : h₂.space.transfers = .unmapped span :: h₁.space.transfers)
  /-- A region was mapped, and is given back. -/
  | dropped {span : Span} (mapped : h₁.space.transfers = .mapped span :: h.space.transfers)
      (many : h.settings.retained < h₁.regions) (nextId : h₂.nextId = h.nextId + 1)
      (restored : h.Restored h₂)
      (transfers : h₂.space.transfers = .unmapped span :: h₁.space.transfers)
  /-- A region was mapped, and is one free block. -/
  | kept {b : Block} {span : Span} (mapped : h₁.space.transfers = .mapped span :: h.space.transfers)
      (few : h₁.regions ≤ h.settings.retained) (nextId : h₂.nextId = h.nextId + 1)
      (pointer : b.payload = p) (free : b.used = false)
      (sound : h₂.Sound (rs ++ [⟨span, [b]⟩]) (unused.orderedInsert Block.NoLarger b))
      (transfers : h₂.space.transfers = h₁.space.transfers)

/-- No block beside the one at `a`, in its region, is free. -/
def Lone (h : Heap) (a : Nat) : Prop :=
  (∀ x ∈ Catalogue.prevInRegion h.memory a, Header.used h.memory x = true) ∧
    ∀ x ∈ Catalogue.nextInRegion h.memory a, Header.used h.memory x = true

instance (h : Heap) (a : Nat) : Decidable (h.Lone a) :=
  inferInstanceAs (Decidable (_ ∧ _))

variable {E : Fault → Prop} {h h₁ h₂ h' : Heap} {L L₁ : Ledger} {rs : List Region} {b c : Block}
  {xs ys : List Block} {size : Nat}

/-- A heap that keeps the same blocks, the same free list and as many regions says the same. -/
theorem restored_of_keeps {k : Nat} {ts : List Transfer} (K : h.Keeps L)
    (K' : h'.Keeps ((L.withNextId k).withTransfers ts))
    (same : ∀ b ∈ L.used, ∀ i, b.payload ≤ i → i < b.finish →
      h'.memory.byte i = h.memory.byte i) : h.Restored h' where
  settings := K'.settings.trans K.settings.symm
  place := K'.place.trans K.place.symm
  catalogue := K'.catalogue.ends.trans K.catalogue.ends.symm
  freeList := K'.freeList.ends.trans K.freeList.ends.symm
  snapshot := by
    rw [snapshot_eq K, snapshot_eq K']
    rfl
  bytes b hb used := by
    rw [snapshot_eq K] at hb
    exact same b (Ledger.mem_used.2 ⟨hb, used⟩)

/-- Handing out a free block takes a number when it makes one more block. -/
theorem numbered_of_take (K : h.Keeps L) (K₁ : h₁.Keeps (L.take xs b ys size))
    (blocks : L.blocks = xs ++ b :: ys) : h.Numbered h₁ := by
  unfold Numbered
  rw [K.catalogue_length, K₁.catalogue_length, K.nextId, K₁.nextId, blocks]
  by_cases whole : b.size - size < Header.length + L.settings.minBlock
  · left
    rw [Ledger.take_of_lt whole]
    simp [Ledger.delist]
  · right
    rw [Ledger.take_of_le (Nat.le_of_not_lt whole)]
    simp [Ledger.delist, Ledger.enlist]
    omega

/-! ### Giving back what was just handed out -/

/-- Giving back what was just handed out leaves the bytes of the other blocks as they were. -/
theorem Passed.same_given {L₂ : Ledger} {s : Option Span}
    (P : Passed h L { given := some c, mapped := s } h₁ L₁) (M : Moved h₁ L₁.Headers L₂ h₂) :
    ∀ b ∈ L.used, ∀ i, b.payload ≤ i → i < b.finish → h₂.memory.byte i = h.memory.byte i := by
  obtain ⟨rs₁, S₁⟩ := P.sound
  intro b hb i hi hi'
  have hb₁ := (Ledger.mem_used.1 (P.survives hb (by simp))).1
  rw [M.same i (S₁.payload_clear hb₁ hi hi'), P.same b hb (by simp) i hi hi']

/-- A block of the free list. -/
theorem giveBack_reused (K : h.Keeps L) (S : L.Sound rs) (words : size % wordSize = 0)
    (large : L.settings.minBlock ≤ size) (first : (L.free.find? fun x => size ≤ x.size) = some b)
    (blocks : L.blocks = xs ++ b :: ys) (P : Passed h L { given := some c } h₁ (L.take xs b ys size)) :
    Yields E (giveBack b.addr) h₁ fun _ h₂ => h.Undone rs L.free b.payload h₁ h₂ := by
  have numbered := numbered_of_take K P.keeps blocks
  have mem := List.mem_of_find?_eq_some first
  have served : h₁.space.transfers = h.space.transfers := by
    rw [P.keeps.transfers, K.transfers]
    exact Ledger.cut_transfers
  refine (giveBack_take P.keeps S first blocks words large).mono fun _ h₂ post => ?_
  rcases post with ⟨stays, M⟩ | ⟨many, us, vs, regions, K₂, S₂⟩
  · have K₂ : h₂.Keeps ((L.withNextId (L.take xs b ys size).nextId).withTransfers L.transfers) :=
      M.keeps
    refine .rejoined served mem rfl ?_ numbered ?_ (restored_of_keeps K K₂ (P.same_given M)) ?_
    · rwa [K.settings, K.regions, fillsRegion_iff K blocks]
    · rw [M.keeps.nextId, P.keeps.nextId]
      rfl
    · rw [M.keeps.transfers, served, K.transfers]
      rfl
  · have sound := K₂.sound S₂
    have free : ((L.withNextId (L.take xs b ys size).nextId).shut xs b ys).free = L.free.erase b :=
      (erase_eq_filter_singleton K.nodupFree b).symm
    rw [free] at sound
    refine .closed served mem rfl ?_ regions numbered ?_ sound ?_
    · rwa [K.settings, K.regions]
    · rw [K₂.nextId, P.keeps.nextId]
      rfl
    · rw [K₂.transfers, served, K.transfers]
      rfl

/-- The block of a region that was just mapped. -/
theorem giveBack_mapped {start : Nat} {s : Option Span} (K : h.Keeps L) (S : L.Sound rs)
    (words : size % wordSize = 0) (large : L.settings.minBlock ≤ size)
    (place : L.place L.transfers (Header.length + size) = .ok start)
    (P : Passed h L { given := some c, mapped := s } h₁
      ((L.mapped ⟨start, Header.length + size⟩).adopt (Block.whole start size))) :
    Yields E (giveBack start) h₁ fun _ h₂ =>
      h.Undone rs L.free (Header.payload start) h₁ h₂ := by
  refine (giveBack_adopt S P.keeps place words large).mono fun _ h₂ post => ?_
  have mapped : h₁.space.transfers =
      .mapped ⟨start, Header.length + size⟩ :: h.space.transfers := by
    rw [P.keeps.transfers, K.transfers]
    rfl
  have regions : h₁.regions = L.regions + 1 := P.keeps.regions
  have number : h.nextId = L.nextId := K.nextId
  rcases post with ⟨few, L₂, K₂, transfers, nextId, free, S₂⟩ | ⟨many, M⟩
  · have sound := K₂.sound S₂
    rw [free] at sound
    refine .kept (b := ((Block.whole start size).withId L.nextId).withUsed false) mapped ?_ ?_ rfl
      rfl sound ?_
    · rw [regions, K.settings]
      exact Nat.le_of_not_lt few
    · rw [K₂.nextId, nextId, number]
    · rw [K₂.transfers, transfers, mapped, K.transfers]
  · refine .dropped mapped ?_ ?_ (restored_of_keeps K M.keeps (P.same_given M)) ?_
    · rwa [regions, K.settings]
    · rw [M.keeps.nextId, number]
      rfl
    · rw [M.keeps.transfers, mapped, K.transfers]
      rfl

/-- A block that was handed out is given back at once. -/
theorem free_handed {s : Option Span} (K : h.Keeps L) (S : L.Sound rs) (words : size % wordSize = 0)
    (large : L.settings.minBlock ≤ size) (handed : L.Handed size c s L₁)
    (P : Passed h L { given := some c, mapped := s } h₁ L₁) :
    Yields E (free (some c.payload)) h₁ fun _ h₂ => h.Undone rs L.free c.payload h₁ h₂ := by
  obtain ⟨rs₁, S₁⟩ := P.sound
  have found := ofPayload_eq P.keeps S₁ (Ledger.mem_used.1 (P.given_used rfl)).1
  unfold free
  rw [yields_look_bind, id, yields_lift_bind found]
  cases handed with
  | @reused xs ys b first blocks =>
    have pointer : b.payload = ((b.withUsed true).front (Header.length + L.settings.minBlock)
        size).payload := by
      unfold Block.payload
      rw [Block.addr_front, Block.withUsed_addr]
    rw [Block.addr_front, Block.withUsed_addr, ← pointer]
    exact giveBack_reused K S words large first blocks P
  | mapped full place => exact giveBack_mapped K S words large place P

/-- A block is handed out for `n` bytes and given back at once. -/
theorem malloc_undone {n p : Nat} (K : h.Keeps L) (S : L.Sound rs)
    (run : malloc n h = .ok (some p) h₁) :
    ∃ h₂, free (some p) h₁ = .ok () h₂ ∧ h.Undone rs L.free p h₁ h₂ := by
  have served : Yields (fun _ => True) (malloc n) h fun answer h₁ => ∀ p, answer = some p →
      ∃ h₂, free (some p) h₁ = .ok () h₂ ∧ h.Undone rs L.free p h₁ h₂ := by
    unfold malloc
    refine (allocate_handed K S fun _ => .inr trivial).bind fun answer h₁ post => ?_
    refine yields_pure.2 ?_
    rintro p answered
    cases answer with
    | error failure => cases answered
    | ok q =>
      obtain rfl : q = p := by simpa [Except.toOption] using answered
      obtain ⟨size, L₁, c, s, valid, handed, P, _, rfl, _⟩ := post
      obtain ⟨words, large, _, _⟩ := Settings.blockSize_eq_ok S.settings valid
      obtain ⟨_, h₂, freed, undone⟩ := (free_handed K S words large handed P).exists_ok
      exact ⟨h₂, freed, undone⟩
  exact served.of_ok run p rfl

/-! ### Getting again what was given back -/

/-- A block in use with no free block beside it is given back, and is one free block from then on, unless
its region goes. -/
theorem free_lone (K : h.Keeps L) (S : L.Sound rs) (hb : b ∈ L.used) (lone : h.Lone b.addr) :
    Yields E (free (some b.payload)) h fun _ h₁ => h₁.space.transfers ≠ h.space.transfers ∨
      ∃ xs ys, L.blocks = xs ++ b :: ys ∧
        Moved h L.Headers (L.merge xs (b.withUsed false) [] ys) h₁ := by
  obtain ⟨mem, used⟩ := Ledger.mem_used.1 hb
  obtain ⟨xs, ys, blocks⟩ := List.append_of_mem mem
  have busy : ∀ x ∈ L.blocks, Header.used h.memory x.addr = true → x.used ≠ false := by
    intro x hx e
    rw [← K.used_eq hx, e]
    simp
  have start : ∀ x ∈ xs.getLast?, ¬ x.Mergeable b.region := by
    rintro x hx ⟨region, free⟩
    obtain ⟨ws, rfl⟩ := List.getLast?_eq_some_iff.1 hx
    exact busy x (by simp [blocks]) (lone.1 _ (prevInRegion_eq_some K blocks region)) free
  have stop : ∀ y ∈ ys.head?, ¬ y.Mergeable b.region := by
    rintro y hy ⟨region, free⟩
    obtain ⟨zs, rfl⟩ := List.head?_eq_some_iff.1 hy
    exact busy y (by simp [blocks]) (lone.2 _ (nextInRegion_eq_some K blocks region)) free
  unfold free
  rw [yields_look_bind, id, yields_lift_bind (ofPayload_eq K S mem)]
  refine (giveBack_lone K S blocks used start stop).mono fun _ h₁ post => ?_
  rcases post with M | gone
  · exact .inr ⟨xs, ys, blocks, M⟩
  · exact .inl gone

/-- The block that was given back is handed out again for as many bytes as it has, and the heap is as it
was before both calls. -/
theorem malloc_merge (K : h.Keeps L) (S : L.Sound rs) (blocks : L.blocks = xs ++ b :: ys)
    (used : b.used = true) (most : b.size ≤ maxPayload)
    (M : Moved h L.Headers (L.merge xs (b.withUsed false) [] ys) h₁) :
    Yields E (malloc b.size) h₁ fun answer h₂ => answer = some b.payload ∧ h.Restored h₂ ∧
      h₂.nextId = h.nextId ∧ h₂.space.transfers = h.space.transfers ∧
      Memory.SameBut L.Headers h.memory h₂.memory := by
  unfold malloc
  refine (allocate_merge M.keeps S blocks used most).bind fun answer h₂ post => ?_
  obtain ⟨rfl, M₂⟩ := post
  have same := M.same.trans M₂.same
  refine yields_pure.2 ⟨rfl, ?_, M₂.keeps.nextId.trans K.nextId.symm,
    M₂.keeps.transfers.trans K.transfers.symm, same⟩
  have K₂ : h₂.Keeps ((L.withNextId L.nextId).withTransfers L.transfers) := M₂.keeps
  refine restored_of_keeps K K₂ fun c hc i hi hi' => ?_
  exact same i (S.payload_clear (Ledger.mem_used.1 hc).1 hi hi')

end Heap

/-! ### Runs -/

/-- The operating system never mapped more than half the address range at once. -/
def Modest (ts : List Transfer) : Prop :=
  ∀ s, .mapped s ∈ ts → s.length ≤ maxSpan

namespace Ledger

variable {L : Ledger} {rs : List Region} {b : Block}

/-- A block has no more bytes than a request may ask for. -/
theorem Laid.size_le (S : L.Laid rs) (modest : Modest L.transfers) (hb : b ∈ L.blocks) :
    b.size ≤ maxPayload := by
  obtain ⟨r, hr, inside⟩ := S.exists_mem hb
  have bounds := (S.tiled r hr).tiles.bounds inside
  have outstanding : r.span ∈ outstanding L.transfers := by
    rw [← S.spans]
    exact List.mem_map_of_mem hr
  have := modest r.span (mapped_of_outstanding outstanding)
  rw [b.finish_eq] at bounds
  unfold Block.extent Span.finish at bounds
  unfold maxPayload
  omega

end Ledger

namespace Tenancy

variable {settings : Settings} {place : Placement} {a : Action} {as : List Action} {t u : Tenancy}
  {L : Ledger}

/-- A heap whose smallest block may be asked for maps no more than half the address range at once. -/
theorem Retained.modest (R : Retained settings t L) (small : settings.minBlock ≤ maxPayload)
    (before : Modest t.heap.space.transfers) (step : Step t a u) : Modest u.heap.space.transfers := by
  obtain ⟨H, rfl, _⟩ := R
  cases step with
  | call legal run =>
    obtain ⟨L', x, P, _⟩ := (H.yields legal).of_ok run
    intro s hs
    rw [P.keeps.transfers, P.history, ← H.keeps.transfers] at hs
    simp only [Exchange.history, List.mem_append, List.mem_map, Option.mem_toList, reduceCtorEq,
      and_false, exists_false, false_or, Transfer.mapped.injEq, exists_eq_right] at hs
    exact hs.elim (P.modest small s) (before s)
  | store => exact before
  | remap => exact before

/-- Whatever happens to it, it never does. -/
theorem Retained.run_modest (R : Retained settings t L) (small : settings.minBlock ≤ maxPayload)
    (before : Modest t.heap.space.transfers) (run : Run t as u) : Modest u.heap.space.transfers := by
  induction run generalizing L with
  | nil => exact before
  | cons step _ ih =>
    obtain ⟨L', R'⟩ := R.step step
    exact ih R' (R.modest small before step)

/-- **Allocating and giving back are inverse.** After each step, whatever block is handed out next can be
given back at once, and then the heap is as it was, but for the number that a block took that was made
and for a region that is mapped or given back. And a block that the client holds, without a free block
beside it, can be given back and, unless its region goes, is handed out again for as many bytes as it
has, and then the heap is as it was. No more bytes may be asked for than half the address range has: where
the smallest block is about as large, this takes an operating system that never maps more. -/
theorem run_inverse (built : settings.Built) (lawful : place.Lawful)
    (run : Run (opened settings place) as t) :
    t.heap.settings = settings ∧ ∃ rs unused, t.heap.Sound rs unused ∧
      (∀ n p h₁, Heap.malloc n t.heap = .ok (some p) h₁ →
        ∃ h₂, Heap.free (some p) h₁ = .ok () h₂ ∧ t.heap.Undone rs unused p h₁ h₂) ∧
      (settings.minBlock ≤ maxPayload ∨ Modest t.heap.space.transfers →
        ∀ g ∈ t.live, t.heap.Lone (g.block t.heap).addr →
          ∃ h₁, Heap.free (some g.pointer) t.heap = .ok () h₁ ∧
            (h₁.space.transfers = t.heap.space.transfers →
              ∃ h₂, Heap.malloc (g.block t.heap).size h₁ = .ok (some g.pointer) h₂ ∧
                t.heap.Restored h₂ ∧ h₂.nextId = t.heap.nextId ∧
                h₂.space.transfers = t.heap.space.transfers ∧
                ∀ i, (∀ b ∈ rs.flatMap Region.blocks, ¬ Header.Covers b.addr i) →
                  h₂.memory.byte i = t.heap.memory.byte i)) := by
  obtain ⟨L, H, settings_eq, _⟩ := run.exists_retained built lawful
  obtain ⟨rs, S⟩ := H.sound
  have K := H.keeps
  refine ⟨K.settings.trans settings_eq, rs, L.free, K.sound S,
    fun n p h₁ run => Heap.malloc_undone K S run, ?_⟩
  intro small g hg lone
  have modest : Modest t.heap.space.transfers := small.elim
    (fun small => (retained_opened built lawful).run_modest small
      (fun _ none => absurd none List.not_mem_nil) run) id
  obtain ⟨hb, pointer, _⟩ := H.block_held hg
  obtain ⟨mem, used⟩ := Ledger.mem_used.1 hb
  rw [K.transfers] at modest
  have most := S.size_le modest mem
  generalize g.block t.heap = b at *
  obtain ⟨_, h₁, freed, post⟩ := (Heap.free_lone K S hb lone).exists_ok
  rw [← pointer]
  refine ⟨h₁, freed, fun stays => ?_⟩
  obtain ⟨xs, ys, blocks, M⟩ := post.resolve_left fun gone => gone stays
  obtain ⟨_, h₂, again, rfl, restored, nextId, transfers, same⟩ :=
    (Heap.malloc_merge K S blocks used most M).exists_ok
  refine ⟨h₂, again, restored, nextId, transfers, fun i outside => same i ?_⟩
  rintro ⟨c, hc, covers⟩
  exact outside c (S.blocks ▸ hc) covers

/-- The front of a free block is handed out and given back, which leaves the free block, and a block that
fills its region is given back and handed out again. -/
theorem run_inverse_cut_and_lone : ∃ t,
    Run (opened {} .standard)
      [.call (.malloc 500) (some 140737219915848),
        .call (.free (some 140737219915848)) none,
        .call (.malloc 24) (some 140737219915848),
        .call (.malloc 500) (some 140737219911752)] t ∧
    ∃ rs unused, t.heap.Sound rs unused ∧
      (∃ h₁ h₂, Heap.malloc 300 t.heap = .ok (some 140737219915944) h₁ ∧
        Heap.free (some 140737219915944) h₁ = .ok () h₂ ∧
        t.heap.Undone rs unused 140737219915944 h₁ h₂) ∧
      ∃ h₁ h₂, Heap.free (some 140737219911752) t.heap = .ok () h₁ ∧
        h₁.space.transfers = t.heap.space.transfers ∧
        Heap.malloc 504 h₁ = .ok (some 140737219911752) h₂ ∧
        t.heap.Restored h₂ ∧ h₂.nextId = t.heap.nextId := by
  obtain ⟨t, run, handed, lone, size, stays⟩ : ∃ t,
      Run (opened {} .standard)
          [.call (.malloc 500) (some 140737219915848),
            .call (.free (some 140737219915848)) none,
            .call (.malloc 24) (some 140737219915848),
            .call (.malloc 500) (some 140737219911752)] t ∧
        Heap.answer? (Heap.malloc 300) t.heap = some (some 140737219915944) ∧
        t.heap.Lone ((Grant.mk 140737219911752 500).block t.heap).addr ∧
        ((Grant.mk 140737219911752 500).block t.heap).size = 504 ∧
        Heap.answer? (do Heap.free (some 140737219911752); return (← get).space.transfers) t.heap =
          some t.heap.space.transfers :=
    exists_of_replay_where (by decide +kernel) fun _ _ => of_decide_eq_true
  obtain ⟨_, rs, unused, sound, undone, again⟩ :=
    run_inverse .default Placement.standard_lawful run
  obtain ⟨h₁, handed⟩ := Heap.answer?_eq_some.1 handed
  obtain ⟨h₂, freed, restored⟩ := undone 300 _ h₁ handed
  have held : ⟨140737219911752, 500⟩ ∈ t.live := by
    rw [run.live_eq]
    decide
  obtain ⟨h₃, freed', later⟩ := again (.inl (by decide)) _ held lone
  have stays : h₃.space.transfers = t.heap.space.transfers := by
    simp only [Heap.answer?, bind, EStateM.bind, freed'] at stays
    exact Option.some.inj stays
  obtain ⟨h₄, handed', restored', nextId, _⟩ := later stays
  rw [size] at handed'
  exact ⟨t, run, rs, unused, sound, ⟨h₁, h₂, handed, freed, restored⟩, h₃, h₄, freed', stays, handed',
    restored', nextId⟩

end Tenancy

end RegionHeap
