import Mathlib.Data.List.TakeWhile
import RegionHeap.Proofs.Ledger

/-!
# Small steps on a ledger

What the small steps of a heap do to the ledger that it keeps, and which bytes they write. A block that
leaves the catalogue leaves its mark behind until that is taken off, and a fresh header has its mark
before it is in the catalogue; in between the mark is astray.

* `Heap.Stray`, `Heap.Tidy` — marks that are no block's, and heaps without them.
* `Heap.Moved`, `Heap.MovedBut` — what a step did, with the marks that it left astray.
* `Heap.Recorded` — what a step recorded.
* `Block.Links`, `Ledger.Rewired` — bytes that some of these steps write at most.
* `linkFree_within`, `unlinkFree_within` — the free list.
* `linkAfter_within`, `linkLast_yields`, `unlink_within` — the catalogue.
* `setUsed_moved`, `setSize_within`, `revoke_moved` — fields of a header.
* `takeId_yields` — the next number, unless there is none left.
* `firstFit_eq`, `nextInRegion_eq`, `prevInRegion_eq` — what searches and neighbours are in a ledger.
-/

set_option autoImplicit false

namespace RegionHeap

/-- A mark at an aligned address where the catalogue has no block. -/
def Heap.Stray (h : Heap) (a : Nat) : Prop :=
  a % wordSize = 0 ∧ Header.intact h.memory a = true ∧ a ∉ (h.catalogue.walk h.memory).items

theorem Heap.Keeps.stray_iff {h : Heap} {L : Ledger} {a : Nat} (K : h.Keeps L) :
    h.Stray a ↔ a % wordSize = 0 ∧ h.memory.word a = Header.mark ∧ a ∉ L.blocks.map Block.addr := by
  unfold Heap.Stray Header.intact
  rw [Chain.walk_eq K.catalogue, beq_iff_eq]
  rfl

/-- Every mark at an aligned address is that of a block in the catalogue. -/
def Heap.Tidy (h : Heap) : Prop :=
  ∀ a, ¬ h.Stray a

/-- The bytes of the links at `hook` in some blocks. -/
def Block.Links (hook : Nat) (bs : List Block) (i : Nat) : Prop :=
  ∃ b ∈ bs, b.addr + hook ≤ i ∧ i < b.addr + hook + 2 * wordSize

/-- The bytes of the word that a header says its size in. -/
def Header.SizeWord (a i : Nat) : Prop :=
  a + 8 ≤ i ∧ i < a + 8 + wordSize

/-- Links are bytes of headers. -/
theorem Block.Links.headers {L : Ledger} {hook i : Nat} {bs : List Block} (linked : Links hook bs i)
    (hook_le : hook ≤ 56) (listed : ∀ b ∈ bs, b ∈ L.blocks) : L.Headers i := by
  obtain ⟨b, hb, lo, up⟩ := linked
  refine ⟨b, listed b hb, by omega, ?_⟩
  unfold wordSize at up
  unfold Header.length
  omega

theorem Block.outside_of_not_links {hook i : Nat} {bs : List Block} (off : ¬ Links hook bs i) :
    Chain.Outside hook (bs.map Block.addr) i := by
  intro a ha
  obtain ⟨b, hb, rfl⟩ := List.mem_map.1 ha
  by_contra inside
  exact off ⟨b, hb, by omega⟩

theorem Header.SizeWord.covers {a i : Nat} (inside : SizeWord a i) : Covers a i := by
  unfold SizeWord wordSize at inside
  unfold Covers length
  omega

/-- The bytes that are written to cut the block `b` or to merge it with the block after it: the header of that
block, the size of `b`, and links of both lists. -/
def Ledger.Rewired (L : Ledger) (b next : Block) (i : Nat) : Prop :=
  Header.Covers next.addr i ∨ Header.SizeWord b.addr i ∨
    Block.Links Header.catalogueHook L.blocks i ∨ Block.Links Header.freeHook L.free i

theorem Ledger.Rewired.headers {h : Heap} {L : Ledger} {b next : Block} {i : Nat} (K : h.Keeps L)
    (hb : b ∈ L.blocks) (hn : next ∈ L.blocks) (written : L.Rewired b next i) : L.Headers i := by
  rcases written with covers | size | linked | linked
  · exact ⟨next, hn, covers⟩
  · exact ⟨b, hb, size.covers⟩
  · exact linked.headers (by decide) fun _ hx => hx
  · exact linked.headers (by decide) K.listed

/-- From `h`, writing bytes of `W` at most, the heap `h'` has come to keep the ledger `L`. As long as no
block has the mark as its number, no mark is astray in `h'` that was not so in `h`, but for those at
addresses of `X`. -/
structure Heap.MovedBut (h : Heap) (X W : Nat → Prop) (L : Ledger) (h' : Heap) : Prop where
  keeps : h'.Keeps L
  same : Memory.SameBut W h.memory h'.memory
  numbers : h.nextId ≤ h'.nextId
  strays : h'.nextId ≤ Header.mark → ∀ a, h'.Stray a → h.Stray a ∨ X a

/-- From `h`, writing bytes of `W` at most, the heap `h'` has come to keep the ledger `L`, and no mark
has gone astray. -/
abbrev Heap.Moved (h : Heap) (W : Nat → Prop) (L : Ledger) (h' : Heap) : Prop :=
  h.MovedBut (fun _ => False) W L h'

namespace Heap.MovedBut

variable {h₀ h h' : Heap} {X W V : Nat → Prop} {L L' : Ledger}

theorem mono (M : MovedBut h X V L h') (sub : ∀ i, V i → W i) : MovedBut h X W L h' :=
  ⟨M.keeps, M.same.mono sub, M.numbers, M.strays⟩

theorem trans (M : MovedBut h₀ X W L h) (M' : MovedBut h X W L' h') : MovedBut h₀ X W L' h' where
  keeps := M'.keeps
  same := M.same.trans M'.same
  numbers := M.numbers.trans M'.numbers
  strays small a astray := by
    rcases M'.strays small a astray with astray | here
    · exact M.strays (M'.numbers.trans small) a astray
    · exact .inr here

theorem logging (M : MovedBut h X W L h') (e : Event) : MovedBut h X W L (h'.logging e) :=
  ⟨M.keeps.logging e, M.same, M.numbers, M.strays⟩

/-- A mark that was not written over is there, or is not there, as before. -/
theorem intact_eq {a : Nat} (M : MovedBut h X W L h')
    (off : ∀ i, a ≤ i → i < a + wordSize → ¬ W i) :
    Header.intact h'.memory a = Header.intact h.memory a :=
  Header.intact_congr fun i hi hi' => M.same i (off i hi hi')

/-- Marks may be astray in between. -/
theorem but (M : Moved h W L h') (X : Nat → Prop) : MovedBut h X W L h' :=
  ⟨M.keeps, M.same, M.numbers, fun small a astray => .inl ((M.strays small a astray).resolve_right id)⟩

theorem tidy (M : Moved h W L h') (numbers : h'.nextId ≤ Header.mark) (clean : h.Tidy) : h'.Tidy :=
  fun a astray => (M.strays numbers a astray).elim (clean a) id

/-- The marks that were astray in between are so no longer. -/
theorem settle (M : MovedBut h X W L h') (settled : ∀ a, X a → ¬ h'.Stray a) : Moved h W L h' :=
  ⟨M.keeps, M.same, M.numbers, fun small a astray =>
    .inl ((M.strays small a astray).resolve_right fun here => settled a here astray)⟩

/-- One more step of a call. -/
theorem bind {α β : Type} {E : Fault → Prop} {call : HeapM α} {rest : α → HeapM β}
    {Q : β → Heap → Prop} (M : MovedBut h₀ X W L h)
    (run : Yields E call h fun _ h' => Moved h V L' h') (sub : ∀ i, V i → W i)
    (next : ∀ a h', MovedBut h₀ X W L' h' → Yields E (rest a) h' Q) :
    Yields E (call >>= rest) h Q :=
  run.bind fun a h' M' => next a h' (M.trans ((M'.mono sub).but X))

/-- One more step of a call, which records nothing. -/
theorem bind_silent {α β : Type} {E : Fault → Prop} {call : HeapM α} {rest : α → HeapM β}
    {Q : β → Heap → Prop} (M : MovedBut h₀ X W L h) (silent : Silent call)
    (run : Yields E call h fun _ h' => Moved h V L' h') (sub : ∀ i, V i → W i)
    (next : ∀ a h', MovedBut h₀ X W L' h' → h'.log = h.log → Yields E (rest a) h' Q) :
    Yields E (call >>= rest) h Q :=
  (silent.yields run).bind fun a h' post => next a h' (M.trans ((post.2.mono sub).but X)) post.1

/-- What was written brings no mark, and the catalogue has the blocks that it had. -/
theorem of_quiet (K : h.Keeps L) (K' : h'.Keeps L') (same : Memory.SameBut W h.memory h'.memory)
    (numbers : h.nextId ≤ h'.nextId)
    (kept : ∀ b ∈ L.blocks, b.addr ∈ L'.blocks.map Block.addr ∨ X b.addr)
    (quiet : h'.nextId ≤ Header.mark → h.memory.QuietBut X h'.memory) : MovedBut h X W L' h' where
  keeps := K'
  same := same
  numbers := numbers
  strays small a astray := by
    obtain ⟨aligned, marked, off⟩ := K'.stray_iff.1 astray
    rcases quiet small a aligned marked with marked | here
    · by_cases listed : a ∈ L.blocks.map Block.addr
      · obtain ⟨b, hb, rfl⟩ := List.mem_map.1 listed
        exact .inr ((kept b hb).resolve_left off)
      · exact .inl (K.stray_iff.2 ⟨aligned, marked, listed⟩)
    · exact .inr here

end Heap.MovedBut

namespace Heap.Moved

variable {h h' : Heap} {W : Nat → Prop} {L : Ledger}

/-- Neither memory nor the catalogue changed. -/
theorem of_memory (K : h'.Keeps L) (W : Nat → Prop) (memory : h'.memory = h.memory)
    (catalogue : h'.catalogue = h.catalogue) (numbers : h.nextId ≤ h'.nextId) : Moved h W L h' where
  keeps := K
  same i _ := by rw [memory]
  numbers := numbers
  strays _ a astray := by
    unfold Heap.Stray at *
    rw [memory, catalogue] at astray
    exact .inl astray

theorem refl (K : h.Keeps L) (W : Nat → Prop) : Moved h W L h :=
  of_memory K W rfl rfl (Nat.le_refl _)

end Heap.Moved

/-- From `h` with the ledger `L` to `h'` with the ledger `L'`, the events `es` were recorded, latest
first. If a number was taken, there was one. -/
structure Heap.Recorded (h : Heap) (L : Ledger) (es : List Event) (h' : Heap) (L' : Ledger) : Prop where
  log : h'.log = es ++ h.log
  room : L'.nextId ≠ L.nextId → L'.nextId < wordLimit

/-- No number was taken. -/
theorem Heap.Recorded.of_log {h h' : Heap} {L L' : Ledger} {es : List Event}
    (log : h'.log = es ++ h.log) (same : L'.nextId = L.nextId) : h.Recorded L es h' L' :=
  ⟨log, fun ne => absurd same ne⟩

theorem Heap.Recorded.trans {h h₁ h' : Heap} {L L₁ L' : Ledger} {es fs : List Event}
    (first : h.Recorded L es h₁ L₁) (second : h₁.Recorded L₁ fs h' L') :
    h.Recorded L (fs ++ es) h' L' where
  log := by rw [second.log, first.log, List.append_assoc]
  room ne := by
    by_cases same : L'.nextId = L₁.nextId
    · rw [same] at ne ⊢
      exact first.room ne
    · exact second.room same

/-- No mark of a block in the catalogue is astray. -/
theorem Heap.Keeps.not_stray {h : Heap} {L : Ledger} {b : Block} (K : h.Keeps L) (hb : b ∈ L.blocks) :
    ¬ h.Stray b.addr :=
  fun astray => (K.stray_iff.1 astray).2.2 (addr_mem hb)

theorem EStateM.lift_bind {σ α β : Type} {x : Except Fault α} {a : α} {s : σ}
    (f : α → EStateM Fault σ β) (e : x = .ok a) : (liftM x >>= f) s = f a s := by
  subst e
  rfl

namespace Heap

variable {E : Fault → Prop} {h : Heap} {L : Ledger} {b : Block} {xs ys : List Block}

/-! ### The free list -/

/-- The first block of the free list that is large enough. -/
theorem firstFit_eq (K : h.Keeps L) (size : Nat) :
    FreeList.firstFit h.freeList h.memory size =
      .ok ((L.free.find? fun x => size ≤ x.size).map Block.addr) := by
  unfold FreeList.firstFit
  rw [Chain.walk_eq K.freeList, Walk.find?_ofList, List.find?_map]
  have same : L.free.find? ((fun a => decide (size ≤ Header.size h.memory a)) ∘ Block.addr) =
      L.free.find? fun x => size ≤ x.size := by
    rw [← List.head?_filter, ← List.head?_filter]
    congr 1
    apply List.filter_congr
    intro x hx
    rw [Function.comp_apply, K.size_eq (K.listed x hx)]
  rw [same]

theorem freeInsert_eq {m : Memory} {f : FreeList} {before : Option Nat} {a : Nat}
    (e : FreeList.firstFit f m (Header.size m a) = .ok before) :
    FreeList.insert a (m, f) = Chain.insertBefore before a (m, f) := by
  unfold FreeList.insert
  rw [Chain.get_bind]
  dsimp only
  rw [EStateM.lift_bind _ e]

/-- A block is linked in behind all smaller ones and in front of all that are as large. -/
theorem freeInsert_turns (K : h.Keeps L) (hb : b ∈ L.blocks) (hf : b ∉ L.free) :
    Chain.Turns (FreeList.insert b.addr) h.memory h.freeList
      (Chain.wire Header.freeHook h.memory
        ((L.free.takeWhile fun x => ¬ Block.NoLarger b x).map Block.addr).getLast? b.addr b.addr
        ((L.free.dropWhile fun x => ¬ Block.NoLarger b x).map Block.addr).head?)
      ((L.enlist b).free.map Block.addr) ((L.enlist b).free.map Block.addr) := by
  have before : FreeList.firstFit h.freeList h.memory (Header.size h.memory b.addr) =
      .ok ((L.free.dropWhile fun x => ¬ Block.NoLarger b x).map Block.addr).head? := by
    rw [firstFit_eq K, List.find?_eq_head?_dropWhile_not, K.size_eq hb, List.head?_map]
    simp only [decide_not]
    rfl
  have split := List.takeWhile_append_dropWhile (p := fun x => ¬ Block.NoLarger b x) (l := L.free)
  have insert := List.orderedInsert_eq_take_drop Block.NoLarger b L.free
  generalize L.free.takeWhile (fun x => ¬ Block.NoLarger b x) = us at *
  generalize L.free.dropWhile (fun x => ¬ Block.NoLarger b x) = vs at *
  have nodup := K.nodup_enlist hf
  have listed := K.listed_enlist hb
  have addrs : (L.enlist b).free.map Block.addr =
      us.map Block.addr ++ [b.addr] ++ vs.map Block.addr := by
    unfold Ledger.enlist
    rw [Ledger.withFree_free, insert]
    simp
  have nodes := K.free_nodes listed nodup
  have fits := K.free_length_lt listed nodup
  have holds := K.freeList
  rw [← List.length_map Block.addr, addrs] at fits
  rw [addrs] at nodes
  rw [← split, List.map_append] at holds
  obtain ⟨⟨a, run⟩, rest⟩ := Chain.insertBefore_turns holds nodes fits
  rw [← freeInsert_eq before] at run
  rw [addrs]
  exact ⟨⟨a, run⟩, rest⟩

theorem linkFree_within (K : h.Keeps L) (hb : b ∈ L.blocks) (hf : b ∉ L.free) :
    Yields E (linkFree b.addr) h fun _ h' =>
      Moved h (Block.Links Header.freeHook (L.enlist b).free) (L.enlist b) h' := by
  have listed := K.listed_enlist hb
  obtain ⟨⟨_, run⟩, holds, frame, quiet⟩ := freeInsert_turns K hb hf
  unfold linkFree
  rw [yields_editFreeList run]
  have K' := (K.of_freeEdit listed (K.nodup_enlist hf) holds
    (fun w hw => by
      obtain ⟨x, hx, rfl⟩ := List.mem_map.1 hw
      exact Keeps.addr_mem (listed x hx)) frame).1
  exact .of_quiet K K' (fun i off => frame i (Block.outside_of_not_links off)) (Nat.le_refl _)
    (fun x hx => .inl (Keeps.addr_mem hx))
    fun _ => quiet (.of_blocks rfl fun x hx => K.aligned x (listed x hx))

theorem linkFree_yields (K : h.Keeps L) (hb : b ∈ L.blocks) (hf : b ∉ L.free) :
    Yields E (linkFree b.addr) h fun _ h' => Moved h L.Headers (L.enlist b) h' :=
  (linkFree_within K hb hf).mono fun _ _ M => M.mono fun _ hi => hi.headers (by decide) (K.listed_enlist hb)

/-- A block is taken out from between those before and those after it. -/
theorem freeRemove_turns {us vs : List Block} (K : h.Keeps L) (split : L.free = us ++ b :: vs) :
    Chain.Turns (Chain.remove b.addr) h.memory h.freeList
      (Chain.unwire Header.freeHook h.memory (us.map Block.addr).getLast? b.addr b.addr
        (vs.map Block.addr).head?)
      (L.free.map Block.addr) ((us ++ vs).map Block.addr) := by
  have holds := K.freeList
  have nodes := K.free_nodes K.listed K.nodupFree
  rw [split, List.map_append, List.map_cons] at holds nodes ⊢
  rw [List.map_append]
  exact Chain.remove_turns holds nodes

theorem unlinkFree_within (K : h.Keeps L) (hf : b ∈ L.free) :
    Yields E (unlinkFree b.addr) h fun _ h' =>
      Moved h (Block.Links Header.freeHook L.free) (L.delist b) h' := by
  obtain ⟨us, vs, _, split, erase⟩ := List.exists_erase_eq hf
  have listed : ∀ x ∈ L.free.erase b, x ∈ L.blocks :=
    fun x hx => K.listed x (List.mem_of_mem_erase hx)
  obtain ⟨⟨_, run⟩, holds, frame, quiet⟩ := freeRemove_turns K split
  rw [← erase] at run holds
  unfold unlinkFree
  rw [yields_editFreeList run]
  have K' := (K.of_freeEdit listed (K.nodupFree.erase b) holds
    (fun w hw => by
      obtain ⟨x, hx, rfl⟩ := List.mem_map.1 hw
      exact Keeps.addr_mem (K.listed x hx)) frame).1
  exact .of_quiet K K' (fun i off => frame i (Block.outside_of_not_links off)) (Nat.le_refl _)
    (fun x hx => .inl (Keeps.addr_mem hx))
    fun _ => quiet (.of_blocks rfl fun x hx => K.aligned x (K.listed x hx))

theorem unlinkFree_yields (K : h.Keeps L) (hf : b ∈ L.free) :
    Yields E (unlinkFree b.addr) h fun _ h' => Moved h L.Headers (L.delist b) h' :=
  (unlinkFree_within K hf).mono fun _ _ M => M.mono fun _ hi => hi.headers (by decide) K.listed

/-! ### The catalogue -/

/-- `b` is linked in right after `a`. -/
theorem linkAfter_within {a : Block} (K : h.Keeps L) (hL : L.blocks = xs ++ a :: ys)
    (read : Block.read h.memory b.addr = b) (aligned : b.Aligned)
    (spaced : Header.Spaced ((xs ++ a :: b :: ys).map Block.addr)) :
    Yields E (linkAfter a.addr b.addr) h fun _ h' =>
      Moved h (Block.Links Header.catalogueHook (xs ++ a :: b :: ys))
        (L.withBlocks (xs ++ a :: b :: ys)) h' := by
  have mem : ∀ x ∈ xs ++ a :: b :: ys, x ∈ L.blocks ∨ x = b := by
    intro x hx
    rw [hL]
    simp only [List.mem_append, List.mem_cons] at hx ⊢
    tauto
  have headers : ∀ x ∈ xs ++ a :: b :: ys, Block.read h.memory x.addr = x := by
    intro x hx
    rcases mem x hx with hx | rfl
    · exact K.headers x hx
    · exact read
  have words : ∀ x ∈ xs ++ a :: b :: ys, x.Aligned := by
    intro x hx
    rcases mem x hx with hx | rfl
    · exact K.aligned x hx
    · exact aligned
  have listed : ∀ x ∈ L.free, x ∈ xs ++ a :: b :: ys := by
    intro x hx
    have := K.listed x hx
    rw [hL] at this
    simp only [List.mem_append, List.mem_cons] at this ⊢
    tauto
  have holds := K.catalogue
  have nodes := spaced.nodes
  have fits := spaced.length_lt
  have addrs : (xs ++ a :: b :: ys).map Block.addr =
      xs.map Block.addr ++ a.addr :: b.addr :: ys.map Block.addr := by simp
  rw [hL, List.map_append, List.map_cons] at holds
  rw [addrs] at nodes fits
  obtain ⟨⟨_, run⟩, holds', frame, quiet⟩ := Chain.insertAfter_turns holds nodes fits
  rw [← addrs] at run holds' frame quiet
  unfold linkAfter
  rw [yields_editCatalogue run]
  refine .of_quiet K (K.of_catalogueEdit spaced (fun x hx => List.mem_map_of_mem hx) (.refl _) headers
    words listed holds' frame) (fun i off => frame i (Block.outside_of_not_links off)) (Nat.le_refl _) ?_
    fun _ => quiet (.of_blocks rfl words)
  intro x hx
  left
  rw [hL] at hx
  apply List.mem_map_of_mem
  simp only [Ledger.withBlocks_blocks, List.mem_append, List.mem_cons] at hx ⊢
  tauto

/-- `b` is linked in at the end. -/
theorem linkLast_yields (K : h.Keeps L) (read : Block.read h.memory b.addr = b)
    (aligned : b.Aligned)
    (spaced : Header.Spaced ((L.blocks ++ [b]).map Block.addr)) :
    Yields E (linkLast b.addr) h fun _ h' =>
      Moved h (fun i => L.Headers i ∨ Header.Covers b.addr i)
        (L.withBlocks (L.blocks ++ [b])) h' := by
  have headers : ∀ x ∈ L.blocks ++ [b], Block.read h.memory x.addr = x := by
    intro x hx
    rcases List.mem_append.1 hx with hx | hx
    · exact K.headers x hx
    · rw [List.mem_singleton.1 hx, read]
  have words : ∀ x ∈ L.blocks ++ [b], x.Aligned := by
    intro x hx
    rcases List.mem_append.1 hx with hx | hx
    · exact K.aligned x hx
    · rwa [List.mem_singleton.1 hx]
  have listed : ∀ x ∈ L.free, x ∈ L.blocks ++ [b] :=
    fun x hx => List.mem_append_left _ (K.listed x hx)
  have nodes := spaced.nodes
  have fits := spaced.length_lt
  rw [List.map_append] at nodes fits
  obtain ⟨⟨_, run⟩, holds', frame, quiet⟩ := Chain.pushBack_turns K.catalogue nodes fits
  have addrs : L.blocks.map Block.addr ++ [b.addr] = (L.blocks ++ [b]).map Block.addr := by simp
  rw [addrs] at run holds' frame quiet
  unfold linkLast
  rw [yields_editCatalogue run]
  refine .of_quiet K (K.of_catalogueEdit spaced (fun x hx => List.mem_map_of_mem hx) (.refl _) headers
    words listed holds' frame) ?_ (Nat.le_refl _) ?_ fun _ => quiet (.of_blocks rfl words)
  rotate_left
  · intro x hx
    exact .inl (List.mem_map_of_mem (List.mem_append_left _ hx))
  intro i hi
  apply frame
  apply Keeps.headers_of_not_outside (L := L.withBlocks (L.blocks ++ [b])) (by decide)
    (fun w hw => hw)
  rintro ⟨x, hx, covers⟩
  rcases List.mem_append.1 hx with hx | hx
  · exact hi (.inl ⟨x, hx, covers⟩)
  · rw [List.mem_singleton.1 hx] at covers
    exact hi (.inr covers)

/-- A block is taken out from between its neighbours in the catalogue. -/
theorem catalogueRemove_turns (K : h.Keeps L) (hL : L.blocks = xs ++ b :: ys) :
    Chain.Turns (Chain.remove b.addr) h.memory h.catalogue
      (Chain.unwire Header.catalogueHook h.memory (xs.map Block.addr).getLast? b.addr b.addr
        (ys.map Block.addr).head?)
      (L.blocks.map Block.addr) ((xs ++ ys).map Block.addr) := by
  have holds := K.catalogue
  have nodes := K.spaced.nodes
  rw [hL, List.map_append, List.map_cons] at holds nodes ⊢
  rw [List.map_append]
  exact Chain.remove_turns holds nodes

/-- `b` is taken out. Its header still says what it said, and so its mark is astray. -/
theorem unlink_within (K : h.Keeps L) (hL : L.blocks = xs ++ b :: ys) (hf : b ∉ L.free) :
    Yields E (unlink b.addr) h fun _ h' =>
      MovedBut h (· = b.addr) (Block.Links Header.catalogueHook L.blocks)
        (L.withBlocks (xs ++ ys)) h' ∧
        Block.read h'.memory b.addr = b := by
  have sub : (xs ++ ys).Sublist L.blocks := by
    rw [hL]
    exact (List.sublist_cons_self b ys).append_left xs
  have listed : ∀ x ∈ L.free, x ∈ xs ++ ys := by
    intro x hx
    have := K.listed x hx
    rw [hL] at this
    rcases List.mem_append.1 this with hx' | hx'
    · exact List.mem_append_left _ hx'
    · rcases List.mem_cons.1 hx' with rfl | hx'
      · exact absurd hx hf
      · exact List.mem_append_right _ hx'
  obtain ⟨⟨_, run⟩, holds, frame, quiet⟩ := catalogueRemove_turns K hL
  unfold unlink
  rw [yields_editCatalogue run]
  have hb : b ∈ L.blocks := by simp [hL]
  refine ⟨.of_quiet K (K.of_catalogueEdit K.spaced (fun x hx => Keeps.addr_mem (sub.subset hx))
    (sub.map _) (fun x hx => K.headers x (sub.subset hx)) (fun x hx => K.aligned x (sub.subset hx))
    listed holds frame) (fun i off => frame i (Block.outside_of_not_links off)) (Nat.le_refl _) ?_
    fun _ => (quiet (.of_blocks rfl K.aligned)).mono fun _ => False.elim, ?_⟩
  · intro x hx
    rw [hL, List.perm_middle.mem_iff] at hx
    rcases List.mem_cons.1 hx with rfl | hx
    · exact .inr rfl
    · exact .inl (List.mem_map_of_mem hx)
  · refine (Block.read_congr ?_).trans (K.headers b hb)
    intro i hi hi'
    exact frame i (K.spaced.outside_catalogueHook (Keeps.addr_mem hb) hi (by omega) (by omega))

theorem unlink_yields (K : h.Keeps L) (hL : L.blocks = xs ++ b :: ys) (hf : b ∉ L.free) :
    Yields E (unlink b.addr) h fun _ h' =>
      MovedBut h (· = b.addr) L.Headers (L.withBlocks (xs ++ ys)) h' ∧
        Block.read h'.memory b.addr = b :=
  (unlink_within K hL hf).mono fun _ _ ⟨M, read⟩ =>
    ⟨M.mono fun _ hi => hi.headers (by decide) fun _ hx => hx, read⟩

/-- The block right after `b` in its region. -/
theorem nextInRegion_eq (K : h.Keeps L) (hL : L.blocks = xs ++ b :: ys) :
    Catalogue.nextInRegion h.memory b.addr =
      (ys.head?.filter fun x => x.region == b.region).map Block.addr := by
  have links := K.catalogue.links
  rw [hL, List.map_append, List.map_cons, Chain.linked_append] at links
  have next : Chain.next Header.catalogueHook h.memory b.addr = ys.head?.map Block.addr := by
    rw [links.2.2.1, Option.or_none, List.head?_map]
  unfold Catalogue.nextInRegion
  rw [next, K.region_eq (by simp [hL])]
  cases e : ys.head? with
  | none => rfl
  | some y =>
    have hy : y ∈ L.blocks := by simp [hL, List.mem_of_mem_head? e]
    by_cases same : y.region = b.region <;> simp [Option.filter, K.region_eq hy, same]

theorem nextInRegion_eq_some {y : Block} (K : h.Keeps L) (hL : L.blocks = xs ++ b :: y :: ys)
    (same : y.region = b.region) : Catalogue.nextInRegion h.memory b.addr = some y.addr := by
  rw [nextInRegion_eq K hL]
  simp [Option.filter, same]

theorem nextInRegion_eq_none (K : h.Keeps L) (hL : L.blocks = xs ++ b :: ys)
    (last : ∀ y ∈ ys.head?, y.region ≠ b.region) :
    Catalogue.nextInRegion h.memory b.addr = none := by
  rw [nextInRegion_eq K hL]
  cases e : ys.head? with
  | none => rfl
  | some y => simp [Option.filter, last y e]

/-- The block right before `b` in its region. -/
theorem prevInRegion_eq (K : h.Keeps L) (hL : L.blocks = xs ++ b :: ys) :
    Catalogue.prevInRegion h.memory b.addr =
      (xs.getLast?.filter fun x => x.region == b.region).map Block.addr := by
  have links := K.catalogue.links
  rw [hL, List.map_append, List.map_cons, Chain.linked_append] at links
  have prev : Chain.prev Header.catalogueHook h.memory b.addr = xs.getLast?.map Block.addr := by
    rw [links.2.1, Option.or_none, List.getLast?_map]
  unfold Catalogue.prevInRegion
  rw [prev, K.region_eq (by simp [hL])]
  cases e : xs.getLast? with
  | none => rfl
  | some x =>
    have hx : x ∈ L.blocks := by simp [hL, List.mem_of_getLast? e]
    by_cases same : x.region = b.region <;> simp [Option.filter, K.region_eq hx, same]

theorem prevInRegion_eq_some {x : Block} (K : h.Keeps L) (hL : L.blocks = (xs ++ [x]) ++ b :: ys)
    (same : x.region = b.region) : Catalogue.prevInRegion h.memory b.addr = some x.addr := by
  rw [prevInRegion_eq K hL]
  simp [Option.filter, same]

/-! ### Writes -/

/-- Writing fields of one header, without bringing a mark there. -/
theorem amend_moved {m : Memory} (K : h.Keeps L) (hb : b ∈ L.blocks) (b' : Block)
    (addr : b'.addr = b.addr) (aligned : b'.Aligned) (read : Block.read m b.addr = b')
    (frame : ∀ i, i < b.addr ∨ b.addr + 40 ≤ i → m.byte i = h.memory.byte i)
    (quiet : h.memory.QuietBut (fun _ => False) m) :
    Moved h L.Headers (L.amend b b') (h.withMemory m) := by
  obtain ⟨K', S⟩ := K.amend hb b' addr aligned read frame
  refine .of_quiet K K' S (Nat.le_refl _) (fun x hx => .inl ?_) fun _ => quiet
  rw [Ledger.addr_amend addr]
  exact Keeps.addr_mem hx

theorem setUsed_moved (K : h.Keeps L) (hb : b ∈ L.blocks) (u : Bool) :
    Moved h L.Headers (L.amend b (b.withUsed u))
      (h.withMemory (Header.setUsed h.memory b.addr u)) :=
  amend_moved K hb (b.withUsed u) rfl ((K.aligned b hb).withUsed u)
    (Block.read_setUsed.trans (by rw [K.headers b hb]; rfl)) (fun _ hi => byte_setUsed_of_outside hi)
    (Header.quiet_setUsed u)

theorem setSize_within (K : h.Keeps L) (hb : b ∈ L.blocks) {n : Nat} (hn : n < wordLimit)
    (words : n % wordSize = 0) :
    Moved h (Header.SizeWord b.addr) (L.amend b (b.withSize n))
      (h.withMemory (Header.setSize h.memory b.addr n)) := by
  have M := amend_moved K hb (b.withSize n) rfl ((K.aligned b hb).withSize words)
    ((Block.read_setSize hn).trans (by rw [K.headers b hb]; rfl))
    (fun _ hi => byte_setSize_of_outside hi) (Header.quiet_setSize (K.aligned b hb).addr words)
  refine ⟨M.keeps, fun i off => Memory.byte_setWord_of_disjoint ?_, M.numbers, M.strays⟩
  unfold Header.SizeWord at off
  omega

/-- Writing between the headers. -/
theorem write_moved {X W : Nat → Prop} {m : Memory} (K : h.Keeps L)
    (between : ∀ i, W i → ¬ L.Headers i) (same : Memory.SameBut W h.memory m)
    (quiet : h.nextId ≤ Header.mark → h.memory.QuietBut X m) : MovedBut h X W L (h.withMemory m) :=
  .of_quiet K (K.of_bytes fun i hi => same i fun hw => between i hw hi) same (Nat.le_refl _)
    (fun _ hx => .inl (Keeps.addr_mem hx)) quiet

/-- The mark is taken off a header that is dead, and is no longer astray. -/
theorem revoke_moved {h₀ : Heap} {W : Nat → Prop} {a : Nat} (M : MovedBut h₀ (· = a) W L h)
    (aligned : a % wordSize = 0) (dead : ∀ i, Header.Covers a i → ¬ L.Headers i)
    (sub : ∀ i, Header.Covers a i → W i) :
    Moved h₀ W L (h.withMemory (Header.revoke h.memory a)) := by
  have same : Memory.SameBut (Header.Covers a) h.memory (Header.revoke h.memory a) := by
    intro i hi
    apply byte_revoke_of_outside
    unfold Header.Covers Header.length at hi
    omega
  have revoked := write_moved M.keeps dead same fun _ => Header.quiet_revoke (X := (· = a)) aligned
  apply (M.trans (revoked.mono sub)).settle
  rintro _ rfl ⟨_, intact, _⟩
  rw [memory_withMemory, Header.intact_revoke] at intact
  cases intact

/-! ### Numbers -/

theorem takeId_yields (K : h.Keeps L) (ids : L.nextId + 1 < wordLimit ∨ E .additionOverflow)
    (W : Nat → Prop) :
    Yields E takeId h fun n h' => n = L.nextId ∧ n + 1 < wordLimit ∧
      Moved h W (L.withNextId (L.nextId + 1)) h' := by
  unfold takeId
  rw [yields_get_bind, K.nextId]
  by_cases room : L.nextId + 1 < wordLimit
  · rw [yields_lift_bind (Word.add_eq_ok room), yields_set_bind, yields_pure]
    have K' : Heap.Keeps { h with nextId := L.nextId + 1 } (L.withNextId (L.nextId + 1)) :=
      ⟨K.settings, K.place, K.transfers, K.regions, rfl, K.spaced, K.headers, K.catalogue,
        K.listed, K.nodupFree, K.freeList, K.aligned⟩
    refine ⟨rfl, room, .of_memory K' W rfl rfl ?_⟩
    rw [K.nextId]
    exact Nat.le_succ _
  · have full : Word.add L.nextId 1 = .error .additionOverflow := if_neg room
    exact yields_fault_bind full (ids.resolve_left room)

end Heap

end RegionHeap
