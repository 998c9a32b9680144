import RegionHeap.Heap.Carve
import RegionHeap.Proofs.Ledger.Steps

/-!
# Cutting a block

What `Heap.split` and `Heap.reuse` do to the ledger that the heap keeps, and what they record.

* `Block.front`, `Block.leftover?` — the two parts of a block that is cut.
* `Block.cutting` — the events of a cut.
* `Heap.split_yields` — the front stays in its place, what is left over follows it in the catalogue
  and is put on the free list.
* `Heap.split_short_yields`, `Heap.split_within` — a cut that is not made, and which bytes one writes.
* `Heap.reuse_some_yields` — the first block of the free list that is large enough is taken off it and cut.
-/

set_option autoImplicit false

namespace RegionHeap

namespace Block

/-- What stays of a block that is cut to `size` bytes, when a part that is left over has to have at
least `least` bytes, its header included. -/
def front (b : Block) (least size : Nat) : Block :=
  if b.size - size < least then b else b.withSize size

/-- The bytes of a block from its payload's byte `size` on, as a free block with the number `id`. -/
def rest (b : Block) (size id : Nat) : Block :=
  ⟨b.payload + size, true, b.size - size - Header.length, id, false, b.fromBreak, b.region⟩

/-- What is left over of a block that is cut to `size` bytes. -/
def leftover? (b : Block) (least size id : Nat) : Option Block :=
  if b.size - size < least then none else some (b.rest size id)

/-- What is recorded when a block is cut to `size` bytes, latest first. -/
def cutting (b : Block) (least size id : Nat) : List Event :=
  match b.leftover? least size id with
  | none => []
  | some rest => [.fresh rest, .front (b.withSize size), .cutting b]

variable {b r : Block} {least size id : Nat}

theorem Aligned.rest (h : b.Aligned) (words : size % wordSize = 0) : (b.rest size id).Aligned := by
  have addr := h.addr
  have bytes := h.size
  refine ⟨?_, ?_, h.region⟩ <;>
    · unfold Block.rest Block.payload Header.payload Header.length wordSize at *
      dsimp only
      omega

@[simp]
theorem addr_front : (b.front least size).addr = b.addr := by
  unfold front
  split <;> rfl

@[simp]
theorem used_front : (b.front least size).used = b.used := by
  unfold front
  split <;> rfl

/-- Nothing is recorded of a block that keeps all its bytes. -/
theorem cutting_of_lt (whole : b.size - size < least) : b.cutting least size id = [] := by
  unfold cutting leftover?
  rw [if_pos whole]

theorem cutting_of_le (parts : least ≤ b.size - size) :
    b.cutting least size id = [.fresh (b.rest size id), .front (b.withSize size), .cutting b] := by
  unfold cutting leftover?
  rw [if_neg (Nat.not_lt.2 parts)]

/-- What is left over is free. -/
theorem used_leftover :
    ∀ x ∈ (b.leftover? least size id).toList, x.used = false := by
  unfold leftover?
  split
  · simp
  · rintro x (_ | ⟨_, ⟨⟩⟩)
    rfl

end Block

/-- The ledger in which the block `b` between `xs` and `ys` has been cut to `size` bytes. -/
def Ledger.cut (L : Ledger) (xs : List Block) (b : Block) (ys : List Block) (size : Nat) : Ledger :=
  match b.leftover? (Header.length + L.settings.minBlock) size L.nextId with
  | none => L.withBlocks (xs ++ b :: ys)
  | some rest =>
    ((L.withBlocks (xs ++ b.withSize size :: rest :: ys)).enlist rest).withNextId (L.nextId + 1)

/-- The ledger in which the free block `b` between `xs` and `ys` has been handed out for `size`
bytes. -/
def Ledger.take (L : Ledger) (xs : List Block) (b : Block) (ys : List Block) (size : Nat) : Ledger :=
  ((L.delist b).withBlocks (xs ++ b.withUsed true :: ys)).cut xs (b.withUsed true) ys size

namespace Ledger

variable {L : Ledger} {b rest : Block} {xs ys : List Block} {size i : Nat}

theorem rewired_of_covers {hook : Nat} (hook_le : hook ≤ 56) (lo : rest.addr + hook ≤ i)
    (up : i < rest.addr + hook + 2 * wordSize) : L.Rewired b rest i := by
  left
  unfold wordSize at up
  unfold Header.Covers Header.length
  omega

/-- Links of the catalogue with the rest in it. -/
theorem rewired_of_catalogue (hL : L.blocks = xs ++ b :: ys)
    (linked : Block.Links Header.catalogueHook (xs ++ b.withSize size :: rest :: ys) i) :
    L.Rewired b rest i := by
  obtain ⟨x, hx, inside⟩ := linked
  simp only [List.mem_append, List.mem_cons] at hx
  rcases hx with hx | rfl | rfl | hx
  · exact .inr (.inr (.inl ⟨x, by simp [hL, hx], inside⟩))
  · exact .inr (.inr (.inl ⟨b, by simp [hL], inside⟩))
  · exact rewired_of_covers (by decide) inside.1 inside.2
  · exact .inr (.inr (.inl ⟨x, by simp [hL, hx], inside⟩))

/-- Links of the free list with the rest in it. -/
theorem rewired_of_freeList (linked : Block.Links Header.freeHook (L.enlist rest).free i) :
    L.Rewired b rest i := by
  obtain ⟨x, hx, inside⟩ := linked
  rcases (List.mem_orderedInsert _).1 hx with rfl | hx
  · exact rewired_of_covers (by decide) inside.1 inside.2
  · exact .inr (.inr (.inr ⟨x, hx, inside⟩))

end Ledger

section Cut

variable {L : Ledger} {b : Block} {xs ys : List Block} {size : Nat}

@[simp]
theorem Ledger.cut_settings : (L.cut xs b ys size).settings = L.settings := by
  unfold cut
  split <;> rfl

@[simp]
theorem Ledger.cut_place : (L.cut xs b ys size).place = L.place := by
  unfold cut
  split <;> rfl

@[simp]
theorem Ledger.cut_regions : (L.cut xs b ys size).regions = L.regions := by
  unfold cut
  split <;> rfl

@[simp]
theorem Ledger.cut_transfers : (L.cut xs b ys size).transfers = L.transfers := by
  unfold cut
  split <;> rfl

/-- A block that keeps all its bytes stays as it is. -/
theorem Ledger.cut_of_lt (whole : b.size - size < Header.length + L.settings.minBlock) :
    L.cut xs b ys size = L.withBlocks (xs ++ b :: ys) := by
  unfold cut Block.leftover?
  rw [if_pos whole]

/-- What is left over becomes a free block. -/
theorem Ledger.cut_of_le (parts : Header.length + L.settings.minBlock ≤ b.size - size) :
    L.cut xs b ys size = ((L.withBlocks (xs ++ b.withSize size :: b.rest size L.nextId :: ys)).enlist
      (b.rest size L.nextId)).withNextId (L.nextId + 1) := by
  unfold cut Block.leftover?
  rw [if_neg (Nat.not_lt.2 parts)]

/-- A block that keeps all its bytes is handed out whole. -/
theorem Ledger.take_of_lt (whole : b.size - size < Header.length + L.settings.minBlock) :
    L.take xs b ys size = (L.delist b).withBlocks (xs ++ b.withUsed true :: ys) := by
  unfold take
  refine (cut_of_lt ?_).trans rfl
  exact whole

/-- A block is handed out and what is left over becomes a free block. -/
theorem Ledger.take_of_le (parts : Header.length + L.settings.minBlock ≤ b.size - size) :
    L.take xs b ys size = (((L.delist b).withBlocks (xs ++ (b.withUsed true).withSize size ::
      (b.withUsed true).rest size L.nextId :: ys)).enlist
        ((b.withUsed true).rest size L.nextId)).withNextId (L.nextId + 1) := by
  unfold take
  refine (cut_of_le ?_).trans rfl
  exact parts

/-- A cut takes a number for what is left over. -/
theorem Ledger.cut_nextId :
    (L.cut xs b ys size).nextId = L.nextId ∨ (L.cut xs b ys size).nextId = L.nextId + 1 := by
  unfold cut
  split
  · exact .inl rfl
  · exact .inr rfl

end Cut

namespace Heap

variable {E : Fault → Prop} {h : Heap} {L : Ledger} {b : Block} {xs ys : List Block}

/-- The header of the rest is written between the headers, and `b` is given its new size. The mark of
the rest is astray until it is in the catalogue. -/
theorem carve_moved {size id : Nat} (K : h.Keeps L) (hL : L.blocks = xs ++ b :: ys)
    (hf : b ∉ L.free) (between : ∀ i, Header.Covers (b.rest size id).addr i → ¬ L.Headers i)
    (hs : size < wordLimit) (words : size % wordSize = 0) (hi : id < wordLimit)
    (number : id < h.nextId) {m : Memory}
    (hm : m = Header.setSize (Header.init h.memory (b.rest size id).addr (b.rest size id).size
      (some b.region) b.fromBreak id) b.addr size) :
    MovedBut h (· = (b.rest size id).addr)
        (fun i => Header.Covers (b.rest size id).addr i ∨ Header.SizeWord b.addr i)
        (L.withBlocks (xs ++ b.withSize size :: ys)) (h.withMemory m) ∧
      Block.read m (b.rest size id).addr = b.rest size id := by
  have hb : b ∈ L.blocks := by simp [hL]
  have region : (some b.region).getD (b.rest size id).addr < wordLimit := K.region_lt hb
  have left : (b.rest size id).size < wordLimit := by
    have := K.size_lt hb
    unfold Block.rest
    dsimp only
    omega
  have aligned := K.aligned b hb
  have rest_aligned : (b.rest size id).Aligned := aligned.rest words
  have M₁ : MovedBut h (· = (b.rest size id).addr) (Header.Covers (b.rest size id).addr) L
      (h.withMemory (Header.init h.memory (b.rest size id).addr (b.rest size id).size
        (some b.region) b.fromBreak id)) := by
    apply write_moved K between
    · intro i hi
      apply byte_init_of_outside
      unfold Header.Covers at hi
      omega
    · intro numbers
      exact Header.quiet_init rest_aligned.addr rest_aligned.size (by simpa using aligned.region)
        (Nat.lt_of_lt_of_le number numbers)
  have M₂ := setSize_within M₁.keeps hb hs words
  rw [M₁.keeps.amend_eq hL hf] at M₂
  subst hm
  constructor
  · exact (M₁.mono fun i hi => .inl hi).trans ((M₂.mono fun i hi => .inr hi).but _)
  · have fresh : Block.read (Header.init h.memory (b.rest size id).addr (b.rest size id).size
        (some b.region) b.fromBreak id) (b.rest size id).addr = b.rest size id :=
      Block.read_init left hi region
    refine (Block.read_congr ?_).trans fresh
    intro i hi hi'
    apply byte_setSize_of_outside
    have : ¬ Header.Covers b.addr i := by
      intro covers
      apply between i _ ⟨b, hb, covers⟩
      unfold Header.Covers Header.length
      omega
    unfold Header.Covers Header.length at this
    omega

/-- Where the header of the rest goes, there is no other header. -/
theorem spaced_of_owns {a : Nat} (K : h.Keeps L) (hL : L.blocks = xs ++ b :: ys)
    (own : L.Owns b) (inside : b.payload ≤ a ∧ a + Header.length ≤ b.finish) :
    Header.Spaced (xs.map Block.addr ++ b.addr :: a :: ys.map Block.addr) := by
  have spaced := K.spaced
  rw [hL, List.map_append, List.map_cons] at spaced
  have list : xs.map Block.addr ++ b.addr :: a :: ys.map Block.addr =
      (xs.map Block.addr ++ [b.addr]) ++ a :: ys.map Block.addr := by simp
  have finish := own.finish_le
  unfold Block.payload Header.payload Header.length at inside
  rw [list]
  apply Header.Spaced.insert
  · simpa using spaced
  · omega
  · unfold Header.length
    omega
  · intro c hc
    have hc : c ∈ L.blocks.map Block.addr := by
      rw [hL]
      simpa using hc
    obtain ⟨x, hx, rfl⟩ := List.mem_map.1 hc
    have := own.clear x hx
    unfold Block.payload Header.payload Header.length at this
    unfold Header.length
    omega

/-- What is left over lies in the payload of the block. -/
theorem rest_inside {size id : Nat} (room : Header.length ≤ b.size - size) (fits : size ≤ b.size) :
    b.payload ≤ (b.rest size id).addr ∧ (b.rest size id).addr + Header.length ≤ b.finish := by
  unfold Block.rest Block.finish
  dsimp only
  omega

/-- The header of the rest lies in the payload of the block, where there is no other header. -/
theorem rest_clear {size id : Nat} (own : L.Owns b)
    (inside : b.payload ≤ (b.rest size id).addr ∧ (b.rest size id).addr + Header.length ≤ b.finish) :
    ∀ i, Header.Covers (b.rest size id).addr i → ¬ L.Headers i := by
  rintro i covers ⟨x, hx, covers'⟩
  have := own.clear x hx
  unfold Header.Covers at covers covers'
  unfold Block.payload Header.payload at *
  omega

theorem rest_notMem {size id : Nat} (own : L.Owns b)
    (inside : b.payload ≤ (b.rest size id).addr ∧ (b.rest size id).addr + Header.length ≤ b.finish) :
    b.rest size id ∉ L.blocks := by
  intro hx
  refine rest_clear own inside (b.rest size id).addr ?_ ⟨_, hx, ?_⟩ <;>
    · unfold Header.Covers Header.length
      omega

/-- Nothing is done when what is left over cannot be a block. -/
theorem split_short_yields {size : Nat} (K : h.Keeps L) (hb : b ∈ L.blocks) (fits : size ≤ b.size)
    (small : Header.length + L.settings.minBlock < wordLimit)
    (short : b.size - size < Header.length + L.settings.minBlock) :
    Yields E (split b.addr size) h fun answer h' => answer = none ∧ h' = h := by
  unfold split
  rw [yields_look_bind, K.size_eq hb]
  dsimp only
  rw [if_neg (by omega), yields_get_bind, K.settings, yields_lift_bind (Word.add_eq_ok small), if_pos short,
    yields_pure]
  exact ⟨rfl, rfl⟩

/-- A used block is cut: its front stays in its place, the rest follows it and is free. Only the header of the
rest is written, the size of the front, and links. -/
theorem split_within {size : Nat} (K : h.Keeps L) (hL : L.blocks = xs ++ b :: ys)
    (hf : b ∉ L.free) (own : L.Owns b) (words : size % wordSize = 0)
    (small : Header.length + L.settings.minBlock < wordLimit)
    (parts : Header.length + L.settings.minBlock ≤ b.size - size)
    (ids : L.nextId + 1 < wordLimit ∨ E .additionOverflow) :
    Yields E (split b.addr size) h fun answer h' =>
      answer = some (b.rest size L.nextId).addr ∧
        Moved h (L.Rewired b (b.rest size L.nextId)) (L.cut xs b ys size) h' ∧
        L.nextId + 1 < wordLimit ∧
        h'.log = .fresh (b.rest size L.nextId) :: .front (b.withSize size) :: .cutting b :: h.log := by
  have hb : b ∈ L.blocks := by simp [hL]
  have header : 0 < Header.length := by decide
  unfold split
  rw [Ledger.cut_of_le parts, yields_look_bind, K.size_eq hb]
  dsimp only
  rw [if_neg (by omega), yields_get_bind, K.settings,
    yields_lift_bind (Word.add_eq_ok small), if_neg (Nat.not_lt.2 parts), yields_note_bind, yields_look_bind]
  dsimp only [id]
  have inside := @rest_inside b size L.nextId (by omega) (by omega)
  have between := rest_clear own inside
  have rest_free : b.rest size L.nextId ∉ L.free := fun hx => rest_notMem own inside (K.listed _ hx)
  have spaced := spaced_of_owns K hL own inside
  have size_lt := K.size_lt hb
  have M₁ := (Moved.refl K (L.Rewired b (b.rest size L.nextId))).logging (.cutting b)
  have left : Word.sub (b.size - size) Header.length = .ok (b.size - size - Header.length) :=
    Word.sub_eq_ok (by omega)
  rw [memory_logging, K.headers b hb, K.region_eq hb, K.fromBreak_eq hb]
  have taken := silent_takeId.yields (takeId_yields M₁.keeps ids (L.Rewired b (b.rest size L.nextId)))
  refine taken.bind fun number h₂ post => ?_
  obtain ⟨log, rfl, room, M₂⟩ := post
  have rest_addr : Header.payload b.addr + size = (b.rest size L.nextId).addr := rfl
  have rest_size : b.size - size - Header.length = (b.rest size L.nextId).size := rfl
  rw [yields_lift_bind left, yields_write_bind, yields_write_bind, memory_withMemory,
    withMemory_withMemory, rest_addr, rest_size]
  generalize hm : Header.setSize _ b.addr size = m
  have number : L.nextId < h₂.nextId := by
    rw [M₂.keeps.nextId]
    exact Nat.lt_succ_self _
  obtain ⟨M₃, read⟩ := carve_moved M₂.keeps hL hf between (by omega) words (by omega) number hm.symm
  have M : MovedBut h (· = (b.rest size L.nextId).addr) (L.Rewired b (b.rest size L.nextId))
      ((L.withNextId (L.nextId + 1)).withBlocks (xs ++ b.withSize size :: ys)) (h₂.withMemory m) :=
    ((M₁.trans M₂).but _).trans (M₃.mono fun i hi => hi.imp_right .inl)
  have linked := @linkAfter_within E _ _ (b.rest size L.nextId) xs ys (b.withSize size) M.keeps rfl
    read ((K.aligned b hb).rest words) (by simpa using spaced)
  refine M.bind_silent (silent_linkAfter _ _) linked (fun i hi => Ledger.rewired_of_catalogue hL hi)
    fun _ h₄ M log₄ => ?_
  -- the rest is in the catalogue from here on
  replace M := M.settle fun _ here => here ▸ M.keeps.not_stray (by simp)
  refine M.bind_silent (silent_linkFree _) (linkFree_within M.keeps (by simp) rest_free)
    (fun i hi => Ledger.rewired_of_freeList (L := L) hi) fun _ h₅ M log₅ => ?_
  have front : Block.read h₅.memory b.addr = b.withSize size :=
    M.keeps.headers (b.withSize size) (by simp [Ledger.enlist])
  have rest : Block.read h₅.memory (b.rest size L.nextId).addr = b.rest size L.nextId :=
    M.keeps.headers _ (by simp [Ledger.enlist])
  rw [yields_note_bind, yields_note_bind, yields_pure, memory_logging, front, rest]
  replace log : h₅.log = .cutting b :: h.log := (log₅.trans log₄).trans log
  exact ⟨rfl, MovedBut.logging (MovedBut.logging M _) _, room,
    congrArg (fun log => Event.fresh _ :: Event.front _ :: log) log⟩

/-- A used block is cut, unless what is left over cannot be a block. -/
theorem split_yields {size : Nat} (K : h.Keeps L) (hL : L.blocks = xs ++ b :: ys)
    (hf : b ∉ L.free) (own : L.Owns b) (fits : size ≤ b.size) (words : size % wordSize = 0)
    (small : Header.length + L.settings.minBlock < wordLimit)
    (ids : (L.cut xs b ys size).nextId ≠ L.nextId →
      L.nextId + 1 < wordLimit ∨ E .additionOverflow) :
    Yields E (split b.addr size) h fun answer h' =>
      answer = (b.leftover? (Header.length + L.settings.minBlock) size L.nextId).map Block.addr ∧
        Moved h (fun i => L.Headers i ∨ b.payload + size ≤ i ∧ i < b.finish)
          (L.cut xs b ys size) h' ∧
        h.Recorded L (b.cutting (Header.length + L.settings.minBlock) size L.nextId) h'
          (L.cut xs b ys size) := by
  have hb : b ∈ L.blocks := by simp [hL]
  unfold Block.cutting Block.leftover?
  by_cases whole : b.size - size < Header.length + L.settings.minBlock
  · rw [if_pos whole, Ledger.cut_of_lt whole, ← hL]
    refine (split_short_yields K hb fits small whole).mono fun answer h' post => ?_
    obtain ⟨rfl, rfl⟩ := post
    exact ⟨rfl, .refl K _, .of_log rfl rfl⟩
  · have parts := Nat.le_of_not_lt whole
    rw [Ledger.cut_of_le parts] at ids
    replace ids := ids (Nat.succ_ne_self _)
    rw [if_neg whole]
    refine (split_within K hL hf own words small parts ids).mono fun answer h' post => ?_
    obtain ⟨rfl, M, room, log⟩ := post
    refine ⟨rfl, M.mono ?_, log, fun _ => by rw [Ledger.cut_of_le parts]; exact room⟩
    rintro i (rest | size | linked | linked)
    · right
      unfold Header.Covers Header.length Block.rest at rest
      unfold Header.length at parts
      unfold Block.finish
      dsimp only at rest
      omega
    · exact .inl ⟨b, hb, size.covers⟩
    · exact .inl (linked.headers (by decide) fun _ hx => hx)
    · exact .inl (linked.headers (by decide) K.listed)

/-- When no block of the free list is large enough, nothing happens. -/
theorem reuse_none_yields {size : Nat} (K : h.Keeps L)
    (none_fits : (L.free.find? fun x => size ≤ x.size) = none) :
    Yields E (reuse size) h fun answer h' => answer = none ∧ h' = h := by
  have fit := firstFit_eq K size
  rw [none_fits] at fit
  unfold reuse
  rw [yields_get_bind, yields_lift_bind fit]
  exact ⟨rfl, rfl⟩

/-- The first block of the free list that is large enough is taken off it and cut. -/
theorem reuse_some_yields {size : Nat} (K : h.Keeps L) (hL : L.blocks = xs ++ b :: ys)
    (fits : (L.free.find? fun x => size ≤ x.size) = some b) (own : L.Owns b)
    (words : size % wordSize = 0) (small : Header.length + L.settings.minBlock < wordLimit)
    (ids : (L.take xs b ys size).nextId ≠ L.nextId →
      L.nextId + 1 < wordLimit ∨ E .additionOverflow) :
    Yields E (reuse size) h fun answer h' => answer = some b.addr ∧
      Moved h (fun i => L.Headers i ∨ b.payload + size ≤ i ∧ i < b.finish)
        (L.take xs b ys size) h' ∧
      h.Recorded L ((b.withUsed true).cutting (Header.length + L.settings.minBlock) size L.nextId ++
        [.chosen (b.withUsed true)]) h' (L.take xs b ys size) := by
  have hb : b ∈ L.blocks := by simp [hL]
  have hf : b ∈ L.free := List.mem_of_find?_eq_some fits
  have large : size ≤ b.size := by simpa using List.find?_some fits
  have fit := firstFit_eq K size
  rw [fits] at fit
  unfold reuse
  rw [yields_get_bind, yields_lift_bind fit]
  dsimp only [Option.map_some]
  have M := Moved.refl K fun i => L.Headers i ∨ b.payload + size ≤ i ∧ i < b.finish
  refine M.bind_silent (silent_unlinkFree _) (unlinkFree_yields K hf) (fun i hi => .inl hi)
    fun _ h₁ M log => ?_
  have off : b ∉ (L.delist b).free := K.nodupFree.not_mem_erase
  rw [yields_write_bind, yields_note_bind]
  have M' := setUsed_moved M.keeps hb true
  rw [M.keeps.amend_eq hL off] at M'
  replace M := M.trans (M'.mono fun i hi => .inl hi)
  replace log : (h₁.withMemory (Header.setUsed h₁.memory b.addr true)).log = h.log := log
  generalize h₁.withMemory _ = h₂ at M log ⊢
  have taken : Block.read h₂.memory b.addr = b.withUsed true :=
    M.keeps.headers (b.withUsed true) (by simp)
  rw [taken]
  have chosen : h.Recorded L [.chosen (b.withUsed true)] (h₂.logging (.chosen (b.withUsed true)))
      ((L.delist b).withBlocks (xs ++ b.withUsed true :: ys)) :=
    .of_log (congrArg (Event.chosen (b.withUsed true) :: ·) log) rfl
  replace M := M.logging (.chosen (b.withUsed true))
  generalize h₂.logging _ = h₃ at M chosen ⊢
  have off' : b.withUsed true ∉ (L.delist b).free := by
    intro hx
    apply off
    have := K.eq_of_addr hb (K.listed _ (List.mem_of_mem_erase hx)) rfl
    rwa [← this] at hx
  have addrs : L.blocks.map Block.addr =
      (xs ++ b.withUsed true :: ys).map Block.addr := by simp [hL]
  have own' : Ledger.Owns ((L.delist b).withBlocks (xs ++ b.withUsed true :: ys))
      (b.withUsed true) := own.of_addrs addrs rfl rfl
  have cut := @split_yields E _ _ (b.withUsed true) xs ys size M.keeps rfl off' own' large words
    small ids
  refine Yields.bind (yields_discard.2 (cut.mono fun _ _ post => post.2)) fun _ h₄ post => ?_
  obtain ⟨M', recorded⟩ := post
  refine ⟨rfl, M.trans (M'.mono ?_), chosen.trans recorded⟩
  rintro i (hi | hi)
  · exact .inl (hi.of_addrs addrs.symm)
  · exact .inr hi

end Heap

end RegionHeap
