import RegionHeap.Proofs.BestFit
import RegionHeap.Proofs.Ledger.Ignored

/-!
# Resizing

To resize a block to more bytes than it has is to let it grow into the free block right after it, and
only where that is too small, or not there, to ask for another block, copy the contents and give the old
one back. To resize it to no more bytes than it has is to do nothing.

* `Growable` — a block can grow where it is.
* `Heap.Copied` — some bytes were copied and nothing else changed.
* `Heap.Resized` — what becomes of a heap when a block is resized, case by case.
* `free_ignores` — to give a block back is to read and write no byte of the other ones.
* `growInPlace_resized`, `relocate_resized`, `realloc_resized` — growing, moving, and which of them.
* `Tenancy.run_resized` — each outcome after everything that may happen.
-/

set_option autoImplicit false

namespace RegionHeap

/-- In the catalogue `blocks`, which is `xs`, then `b`, `next` and `zs`, the block `next` is a free one of
the region of `b`, and both with the header between them have room for `size` bytes. -/
structure Growable (blocks xs : List Block) (b next : Block) (zs : List Block) (size : Nat) : Prop where
  around : blocks = xs ++ b :: next :: zs
  free : next.used = false
  region : next.region = b.region
  room : size ≤ b.size + Header.length + next.size

namespace Heap

/-- The heap `h'` is the heap `h₂`, headers, chains, counters and log included, but for the `n` bytes from
`q` on: they are those that the heap `h` has from `p` on. -/
structure Copied (h h₂ : Heap) (p q n : Nat) (h' : Heap) : Prop where
  bytes : ∀ i < n, h'.memory.byte (q + i) = h.memory.byte (p + i)
  others : ∀ i, i < q ∨ q + n ≤ i → h'.memory.byte i = h₂.memory.byte i
  rest : h' = h₂.withMemory h'.memory
  snapshot : h'.snapshot = h₂.snapshot

/-- What becomes of a heap with these blocks and this free list when the block `b` is resized to `n` bytes,
for which a block would have `size` bytes, and what the answer is. -/
inductive Resized (h : Heap) (blocks free : List Block) (b : Block) (n size : Nat) :
    Option Nat → Heap → Prop
  /-- The block has room for so many bytes. -/
  | kept (room : n ≤ b.size) : Resized h blocks free b n size (some b.payload) h
  /-- The block takes in the one after it, whole: what would be left over could not be a block. -/
  | joined {xs zs us vs : List Block} {next whole : Block} {h' : Heap} (less : b.size < n)
      (grows : Growable blocks xs b next zs size) (among : free = us ++ next :: vs)
      (joint : whole = { b with size := b.size + Header.length + next.size })
      (short : whole.size - size < Header.length + h.settings.minBlock)
      (lists : h'.Lists (xs ++ whole :: zs) (us ++ vs))
      (took : h.Took blocks [] 0 [.fresh whole, .mergingRight next, .mergingLeft b] h')
      (dead : Header.intact h'.memory next.addr = false) :
      Resized h blocks free b n size (some b.payload) h'
  /-- The block takes in the one after it and keeps so many bytes, and the rest is a free block. -/
  | cut {xs zs us vs : List Block} {next whole front rest : Block} {h' : Heap} (less : b.size < n)
      (grows : Growable blocks xs b next zs size) (among : free = us ++ next :: vs)
      (joint : whole = { b with size := b.size + Header.length + next.size })
      (long : Header.length + h.settings.minBlock ≤ whole.size - size)
      (kept : front = { b with size })
      (left : rest = ⟨b.payload + size, true, b.size + next.size - size, h.nextId, false, b.fromBreak,
        b.region⟩)
      (lists : h'.Lists (xs ++ front :: rest :: zs) ((us ++ vs).orderedInsert Block.NoLarger rest))
      (took : h.Took blocks [] 1
        [.fresh rest, .front front, .cutting whole, .fresh whole, .mergingRight next, .mergingLeft b]
        h')
      (dead : Header.intact h'.memory next.addr = false) :
      Resized h blocks free b n size (some b.payload) h'
  /-- The block cannot grow, and no other one is to be had. -/
  | failed {h' : Heap} (less : b.size < n) (stays : ∀ xs next zs, ¬ Growable blocks xs b next zs size)
      (refused : malloc n h = .ok none h') (untouched : h.Untouched h') :
      Resized h blocks free b n size none h'
  /-- The block cannot grow. Another one is asked for, and it is given back. -/
  | moved {q : Nat} {h₁ h₂ h' : Heap} (less : b.size < n)
      (stays : ∀ xs next zs, ¬ Growable blocks xs b next zs size)
      (got : malloc n h = .ok (some q) h₁) (other : q ≠ b.payload)
      (gave : Heap.free (some b.payload) h₁ = .ok () h₂) (copied : h.Copied h₂ b.payload q b.size h') :
      Resized h blocks free b n size (some q) h'

variable {E : Fault → Prop} {h h' : Heap} {L : Ledger} {rs : List Region} {b c : Block} {n size : Nat}

/-! ### Growing -/

/-- A block that has taken in the one after it and was cut again. -/
theorem resized_grow {xs zs : List Block} {next : Block} (K : h.Keeps L) (S : L.Sound rs)
    (hb : b ∈ L.used) (valid : L.settings.blockSize n = .ok size) (less : b.size < n)
    (grows : Growable L.blocks xs b next zs size)
    (M : h.Moved (fun i => L.Headers i ∨ b.payload + size ≤ i ∧ i < (b.joined [next]).finish)
      (L.grow xs b next zs size) h')
    (log : h'.log = (b.joined [next]).cutting (Header.length + L.settings.minBlock) size L.nextId ++
      b.absorbing next ++ h.log)
    (dead : Header.intact h'.memory next.addr = false) :
    h.Resized L.blocks L.free b n size (some b.payload) h' := by
  have used := (Ledger.mem_used.1 hb).2
  obtain ⟨words, large, enough, _⟩ := Settings.blockSize_eq_ok S.settings valid
  have joint : b.joined [next] = { b with size := b.size + Header.length + next.size } := by
    rw [Block.joined_singleton, Nat.add_assoc]
    rfl
  have room : size ≤ (b.joined [next]).size := joint ▸ grows.room
  have hn : next ∈ L.free := S.mem_free_iff.2 ⟨by simp [grows.around], grows.free⟩
  obtain ⟨us, vs, among⟩ := List.append_of_mem hn
  have delisted : L.free.erase next = us ++ vs := by
    have nodup := K.nodupFree
    rw [among] at nodup ⊢
    exact erase_middle nodup
  obtain ⟨rs₁, span, ws, ys, rs₂, rfl, rfl, after⟩ := S.exists_region_around grows.around
  obtain ⟨ys, rfl, rfl⟩ := follows_in_region S.toLaid after.symm grows.region
  have P := join_passed S used grows.free words large room rfl rfl M
  have own : ∀ x ∈ some b, ∀ i, x.payload ≤ i → i < x.finish → h'.memory.byte i = h.memory.byte i := by
    rintro _ ⟨⟩ i lo up
    obtain ⟨k, rfl⟩ := Nat.exists_eq_add_of_le lo
    unfold Block.finish at up
    exact join_same S M (by omega) (by omega)
  by_cases short : (b.joined [next]).size - size < Header.length + L.settings.minBlock
  · rw [Block.cutting_of_lt short] at log
    rw [Ledger.grow_of_lt short] at P
    refine .joined less grows among joint (K.settings ▸ short) ?_ (P.took K own rfl rfl rfl log) dead
    rw [← delisted]
    exact P.keeps.lists
  · have long := Nat.le_of_not_lt short
    rw [Block.cutting_of_le long] at log
    rw [Ledger.grow_of_le long] at P
    have left : (b.joined [next]).rest size L.nextId = ⟨b.payload + size, true,
        b.size + next.size - size, h.nextId, false, b.fromBreak, b.region⟩ := by
      have bytes : b.size + (Header.length + next.size) - size - Header.length =
          b.size + next.size - size := by omega
      rw [Block.joined_singleton, K.nextId, ← bytes]
      rfl
    refine .cut less grows among joint (K.settings ▸ long) rfl left ?_ ?_ dead
    · rw [← delisted]
      exact P.keeps.lists
    · exact P.took K own rfl rfl rfl log

/-! ### Moving -/

section Free

variable {W : Nat → Prop}

/-- To give a block back is to read and write headers. -/
theorem free_ignores (K : h.Keeps L) (S : L.Sound rs) (hb : b ∈ L.used)
    (clear : ∀ i, L.Headers i → ¬ W i) : Ignores W (Heap.free (some b.payload)) h := by
  obtain ⟨mem, used⟩ := Ledger.mem_used.1 hb
  obtain ⟨rs₁, span, ws, ls, ms, zs, rs₂, l, ns, rfl, free, run, ws_used, zs_used⟩ := exists_run S hb
  have found : ∀ m, h.memory.SameBut W m → Header.ofPayload m b.payload = .ok b.addr :=
    fun m same => ofPayload_eq (K.of_same clear same) S mem
  unfold Heap.free
  refine .look_bind (fun m same => ?_) (.lift_bind (found _ (.refl W _)) ?_)
  · rw [id, id, found m same, found _ (.refl W _)]
  · exact ignores_giveBack (retakes_of_sound S used free run ws_used zs_used rfl rfl) K clear

end Free

/-- Bytes of one block that is handed out are copied to another one, and it is given back. Without the
copy the heap would be the same, but for these bytes. -/
theorem free_copied (K : h.Keeps L) (S : L.Sound rs) (hb : b ∈ L.used) (hc : c ∈ L.used) (ne : b ≠ c)
    (room : b.size ≤ c.size) :
    Yields E (Heap.free (some b.payload))
      (h.withMemory (h.memory.setBytes c.payload (h.memory.bytes b.payload b.size))) fun _ h' =>
        ∃ h₂, Heap.free (some b.payload) h = .ok () h₂ ∧
          h.Copied h₂ b.payload c.payload b.size h' := by
  have length : (h.memory.bytes b.payload b.size).length = b.size := by simp [Memory.bytes]
  -- no header lies in a block that is handed out, before or after
  have clear : ∀ {L' : Ledger} {rs' : List Region}, L'.Sound rs' → c ∈ L'.used →
      ∀ i, L'.Headers i → ¬ (c.payload ≤ i ∧ i < c.payload + b.size) := by
    intro L' rs' S' hc' i header inside
    exact S'.payload_clear (Ledger.mem_used.1 hc').1 inside.1
      (Nat.lt_of_lt_of_le inside.2 (Nat.add_le_add_left room _)) header
  obtain ⟨_, h₂, run, L', u, P, _, _⟩ := (free_passed (E := fun _ => False) K S hb).exists_ok
  have copy : h.memory.SameBut (fun i => c.payload ≤ i ∧ i < c.payload + b.size)
      (h.memory.setBytes c.payload (h.memory.bytes b.payload b.size)) := by
    intro i outside
    apply Memory.byte_setBytes_of_outside
    omega
  obtain ⟨m, run', same, stays⟩ := free_ignores K S hb (clear S hc) _ copy () h₂ run
  unfold Yields
  rw [run']
  refine ⟨h₂, run, ?_, ?_, rfl, ?_⟩
  · intro i hi
    rw [memory_withMemory, stays _ ⟨by omega, by omega⟩, Memory.byte_setBytes_of_inside (by omega)]
    simp [Memory.bytes]
  · exact fun i outside => same i (by omega)
  · obtain ⟨rs', S'⟩ := P.sound
    have survives : c ∈ L'.used := P.survives hc (by simpa using ne)
    rw [snapshot_eq P.keeps, snapshot_eq (P.keeps.of_same (clear S' survives) same)]

/-- A block that cannot grow moves when another one is to be had, and stays when not. -/
theorem relocate_resized (K : h.Keeps L) (S : L.Sound rs) (hb : b ∈ L.used) (less : b.size < n)
    (stays : ∀ xs next zs, ¬ Growable L.blocks xs b next zs size)
    (ids : L.Makes n → L.nextId + 1 < wordLimit ∨ E .additionOverflow) :
    Yields E (relocate b.payload b.size n) h fun answer h' =>
      h.Resized L.blocks L.free b n size answer h' := by
  unfold relocate
  refine (malloc_passed K S ids).with_run.bind fun answer h₁ post => ?_
  obtain ⟨got, post⟩ := post
  cases answer with
  | none => exact yields_pure.2 (.failed less stays got ((malloc_none n).of_ok got rfl))
  | some q =>
    obtain ⟨L₁, c, s, _, P, rfl, room⟩ := post
    obtain ⟨rs₁, S₁⟩ := P.sound
    have hb₁ : b ∈ L₁.used := P.survives hb (by simp)
    have hc₁ : c ∈ L₁.used := P.given_used rfl
    have ne : b ≠ c := P.given_ne hb
    have other : c.payload ≠ b.payload := fun e => ne (S₁.payload_inj (Ledger.mem_used.1 hb₁).1
      (Ledger.mem_used.1 hc₁).1 e.symm)
    dsimp only
    rw [yields_write_bind, Nat.min_eq_left (Nat.le_of_lt less)]
    refine (free_copied P.keeps S₁ hb₁ hc₁ ne (by omega)).bind fun _ h' post => ?_
    obtain ⟨h₂, gave, copied⟩ := post
    refine yields_pure.2 (.moved less stays got other gave { copied with bytes := fun i hi => ?_ })
    rw [copied.bytes i hi]
    exact P.same b hb (by simp) _ (Nat.le_add_right _ i) (Nat.add_lt_add_left hi _)

/-- A block is resized. -/
theorem realloc_resized (K : h.Keeps L) (S : L.Sound rs) (hb : b ∈ L.used) (positive : n ≠ 0)
    (valid : L.settings.blockSize n = .ok size) (ids : L.nextId + 1 < wordLimit ∨ E .additionOverflow) :
    Yields E (realloc (some b.payload) n) h fun answer h' =>
      h.Resized L.blocks L.free b n size answer h' := by
  rw [yields_realloc K S hb positive valid]
  by_cases room : n ≤ b.size
  · rw [if_pos room]
    exact yields_pure.2 (.kept room)
  have less := Nat.lt_of_not_le room
  obtain ⟨words, _, enough, _⟩ := Settings.blockSize_eq_ok S.settings valid
  obtain ⟨xs, ys, blocks⟩ := List.append_of_mem (Ledger.mem_used.1 hb).1
  rw [if_neg room]
  refine (growInPlace_moved K S hb blocks words fun _ _ _ _ => ids).bind fun grew h₁ post => ?_
  cases grew with
  | true =>
    obtain ⟨next, zs, rfl, merge, fits, M, recorded, dead⟩ := post
    have grows : Growable L.blocks xs b next zs size := by
      refine ⟨blocks, merge.2, merge.1, ?_⟩
      rwa [Nat.add_assoc]
    exact yields_pure.2 (resized_grow K S hb valid less grows M recorded.log (dead (by omega)))
  | false =>
    obtain ⟨rfl, small⟩ := post
    refine relocate_resized K S hb less ?_ fun _ => ids
    intro xs' next zs grows
    have fits := small next zs (S.around_eq blocks grows.around).2 ⟨grows.region, grows.free⟩
    have room := grows.room
    rw [Nat.add_assoc] at room
    exact Nat.not_le.2 fits room

/-- A block that has room for so many bytes is left alone, whatever numbers there are. -/
theorem realloc_of_room (K : h.Keeps L) (S : L.Sound rs) (hb : b ∈ L.used) (positive : n ≠ 0)
    (valid : L.settings.blockSize n = .ok size) (room : n ≤ b.size) :
    realloc (some b.payload) n h = .ok (some b.payload) h := by
  have stays : Yields (fun _ => False) (realloc (some b.payload) n) h fun answer h' =>
      answer = some b.payload ∧ h' = h := by
    rw [yields_realloc K S hb positive valid, if_pos room]
    exact yields_pure.2 ⟨rfl, rfl⟩
  obtain ⟨_, _, run, rfl, rfl⟩ := stays.exists_ok
  exact run

end Heap

namespace Tenancy

variable {settings : Settings} {place : Placement} {as : List Action} {t : Tenancy} {g : Grant}

/-- **A block is resized where it is, if that is possible.** After everything that may happen, let `b` be
the block behind a pointer that the client holds, and let a block for `n` bytes have `size` bytes. When `b`
has `n` bytes, resizing it to `n` bytes returns the pointer and nothing happens. When it has not and the
block after it is free, in its region and large enough, `b` takes that one in and is cut to `size` bytes if
the rest can be a block; the pointer is returned, no region is mapped, and no other block changes, nor a byte
of a payload. Otherwise what happens is what happens when `n` bytes are asked for and then `b` is given back,
but for the contents of `b`, which are found in the new block; and when no block is to be had, nothing
happens and `b` is not given back. The call returns, unless it takes a number and there is none left. -/
theorem run_resized {n size : Nat} (built : settings.Built) (lawful : place.Lawful)
    (run : Run (opened settings place) as t) (held : g ∈ t.live) (positive : n ≠ 0)
    (valid : settings.blockSize n = .ok size) :
    ∃ blocks free, t.heap.Lists blocks free ∧ free.Perm (blocks.filter fun b => !b.used) ∧
      ∃ b ∈ blocks, b.used = true ∧ b.payload = g.pointer ∧
        (n ≤ b.size → Heap.realloc (some g.pointer) n t.heap = .ok (some g.pointer) t.heap) ∧
        Heap.Yields t.heap.Spent (Heap.realloc (some g.pointer) n) t.heap fun answer h' =>
          t.heap.Resized blocks free b n size answer h' := by
  obtain ⟨L, H, rfl, _⟩ := run.exists_retained built lawful
  obtain ⟨rs, S⟩ := H.sound
  obtain ⟨b, hb, e, _⟩ := H.exists_block held
  obtain ⟨mem, used⟩ := Ledger.mem_used.1 hb
  rw [← e]
  exact ⟨L.blocks, L.free, H.keeps.lists, S.free, b, mem, used, rfl,
    Heap.realloc_of_room H.keeps S hb positive valid,
    Heap.realloc_resized H.keeps S hb positive valid H.left_or_spent⟩

/-- Of five requests to resize a block that is followed by a free one, the first is for no more bytes than it
has, the next makes it grow and be cut, then it grows into all of the other, then it moves, and at last no
block is to be had. -/
theorem run_resized_paths : ∃ t,
    Run (opened {} .standard)
      [.call (.malloc 24) (some 140737219915848),
        .call (.malloc 500) (some 140737219911752),
        .call (.free (some 140737219911752)) none,
        .call (.malloc 40) (some 140737219911752)] t ∧
      [40, 100, 500, 1000, 1 <<< 50].map
          (fun n => Heap.answer? (Heap.realloc (some 140737219911752) n) t.heap) =
        [some (some 140737219911752), some (some 140737219911752), some (some 140737219911752),
          some (some 140737219907656), some none] ∧
      ∀ x ∈ [(40, 40), (100, 104), (500, 504), (1000, 1000), (1 <<< 50, 1 <<< 50)],
        ∃ blocks free, t.heap.Lists blocks free ∧ free.Perm (blocks.filter fun b => !b.used) ∧
          ∃ b ∈ blocks, b.used = true ∧ b.payload = 140737219911752 ∧
            (x.1 ≤ b.size → Heap.realloc (some 140737219911752) x.1 t.heap =
              .ok (some 140737219911752) t.heap) ∧
            Heap.Yields t.heap.Spent (Heap.realloc (some 140737219911752) x.1) t.heap
              fun answer h' => t.heap.Resized blocks free b x.1 x.2 answer h' := by
  have valid : ∀ x ∈ [(40, 40), (100, 104), (500, 504), (1000, 1000), (1 <<< 50, 1 <<< 50)],
      x.1 ≠ 0 ∧ Settings.blockSize {} x.1 = .ok x.2 := by decide
  refine exists_of_replay_where (q := fun t => decide ([40, 100, 500, 1000, 1 <<< 50].map
    (fun n => Heap.answer? (Heap.realloc (some 140737219911752) n) t.heap) =
      [some (some 140737219911752), some (some 140737219911752), some (some 140737219911752),
        some (some 140737219907656), some none])) (by decide +kernel) fun t run answers => ?_
  have held : ⟨140737219911752, 40⟩ ∈ t.live := by
    rw [run.live_eq]
    decide
  exact ⟨of_decide_eq_true answers, fun x hx => run_resized .default Placement.standard_lawful run held
    (valid x hx).1 (valid x hx).2⟩

end Tenancy

end RegionHeap
