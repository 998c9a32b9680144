import RegionHeap.Proofs.Sound.Reports

/-!
# Headers that were written over

Something else than the heap writes to the headers of its blocks, but not to their links. A snapshot of
the heap then shows the same blocks in the same order, each with the fields that were written.

* `Overwrite`, `Heap.overwrite` — a field written over, and a heap after several of them.
* `Heap.snapshot_overwrite` — a snapshot of that heap.
-/

set_option autoImplicit false

namespace RegionHeap

/-- A field of a header that is written over. -/
inductive Overwrite where
  | used (block : Nat) (value : Bool)
  | size (block value : Nat)
  | region (block value : Nat)
  /-- The mark is taken off. -/
  | mark (block : Nat)
  | id (block value : Nat)
  | fromBreak (block : Nat) (value : Bool)
  deriving DecidableEq, Repr

namespace Overwrite

/-- The block whose header it is. -/
def block : Overwrite → Nat
  | used b _ | size b _ | region b _ | mark b | id b _ | fromBreak b _ => b

/-- Writes the field. -/
def write (m : Memory) : Overwrite → Memory
  | used b v => Header.setUsed m b v
  | size b n => Header.setSize m b n
  | region b r => Header.setRegion m b r
  | mark b => Header.revoke m b
  | id b n => Header.setId m b n
  | fromBreak b v => Header.setFromBreak m b v

/-- What the header says then. -/
def change (b : Block) : Overwrite → Block
  | used _ v => { b with used := v }
  | size _ n => { b with size := n }
  | region _ r => { b with region := r }
  | mark _ => { b with intact := false }
  | id _ n => { b with id := n }
  | fromBreak _ v => { b with fromBreak := v }

/-- The value is a word, and the payload ends within the address range. -/
def Fits : Overwrite → Prop
  | size b n => Header.payload b + n < wordLimit
  | region _ v | id _ v => v < wordLimit
  | used _ _ | mark _ | fromBreak _ _ => True

/-- It changes the number of the block or where its memory is said to come from. -/
def Harmless : Overwrite → Prop
  | id _ _ | fromBreak _ _ => True
  | _ => False

variable {m : Memory} {o : Overwrite} {b i : Nat}

theorem read_write (fits : o.Fits) :
    Block.read (o.write m) o.block = o.change (Block.read m o.block) := by
  cases o with
  | used b v => exact Block.read_setUsed
  | size b n => exact Block.read_setSize (Nat.lt_of_le_of_lt (Nat.le_add_left _ _) fits)
  | region b r => exact Block.read_setRegion fits
  | mark b => exact Block.read_revoke
  | id b n => exact Block.read_setId fits
  | fromBreak b v => exact Block.read_setFromBreak

theorem byte_write (outside : i < o.block ∨ o.block + 40 ≤ i) : (o.write m).byte i = m.byte i := by
  cases o with
  | used b v => exact byte_setUsed_of_outside outside
  | size b n => exact byte_setSize_of_outside outside
  | region b r => exact byte_setRegion_of_outside outside
  | mark b => exact byte_revoke_of_outside outside
  | id b n => exact byte_setId_of_outside outside
  | fromBreak b v => exact byte_setFromBreak_of_outside outside

end Overwrite

/-- The block after some fields of headers were written over. -/
def Block.overwritten (os : List Overwrite) (b : Block) : Block :=
  (os.filter fun o => o.block = b.addr).foldl Overwrite.change b

/-- The heap after some fields of headers were written over. -/
def Heap.overwrite (h : Heap) (os : List Overwrite) : Heap :=
  h.withMemory (os.foldl Overwrite.write h.memory)

section Overwritten

variable {os : List Overwrite} {o : Overwrite} {as : List Nat} {m : Memory} {a i : Nat} {b : Block}

/-- What none of the writes changes is as it was. -/
theorem Block.overwritten_eq {α : Type} (field : Block → α)
    (same : ∀ o ∈ os, ∀ c : Block, field (o.change c) = field c) :
    field (b.overwritten os) = field b := by
  unfold Block.overwritten
  replace same : ∀ o ∈ os.filter (fun o => o.block = b.addr), ∀ c : Block, field (o.change c) = field c :=
    fun o ho => same o (List.mem_of_mem_filter ho)
  generalize os.filter _ = ws at same
  induction ws generalizing b with
  | nil => rfl
  | cons o ws ih =>
    rw [List.foldl_cons, ih fun o ho => same o (by simp [ho]), same o (by simp)]

@[simp]
theorem Block.addr_overwritten : (b.overwritten os).addr = b.addr :=
  Block.overwritten_eq Block.addr fun o _ _ => by cases o <;> rfl

/-- Writing to fields leaves what is not a field as it is. -/
theorem byte_overwrite (targets : ∀ o ∈ os, o.block ∈ as) (outside : ∀ a ∈ as, i < a ∨ a + 40 ≤ i) :
    (os.foldl Overwrite.write m).byte i = m.byte i := by
  induction os generalizing m with
  | nil => rfl
  | cons o os ih =>
    rw [List.foldl_cons, ih fun o ho => targets o (by simp [ho]),
      Overwrite.byte_write (outside _ (targets o (by simp)))]

/-- A header says what was written to it last. -/
theorem read_overwrite (spaced : Header.Spaced as) (targets : ∀ o ∈ os, o.block ∈ as)
    (fits : ∀ o ∈ os, o.Fits) (ha : a ∈ as) :
    Block.read (os.foldl Overwrite.write m) a = (Block.read m a).overwritten os := by
  unfold Block.overwritten
  show _ = (os.filter fun o => o.block = a).foldl _ _
  induction os generalizing m with
  | nil => rfl
  | cons o os ih =>
    rw [List.foldl_cons, ih (fun o ho => targets o (by simp [ho])) fun o ho => fits o (by simp [ho])]
    by_cases e : o.block = a
    · subst e
      rw [List.filter_cons_of_pos (by simp), List.foldl_cons, Overwrite.read_write (fits o (by simp))]
    · have apart := spaced.clear_of_ne (targets o (by simp)) ha e
      have same : Block.read (o.write m) a = Block.read m a := by
        apply Block.read_congr
        intro i hi hi'
        apply Overwrite.byte_write
        unfold Header.length at apart
        omega
      rw [List.filter_cons_of_neg (by simpa using e), same]

end Overwritten

/-- The snapshot with each block as `f` has it. -/
def Snapshot.revised (f : Block → Block) (s : Snapshot) : Snapshot :=
  { s with catalogue := s.catalogue.map f, freeList := s.freeList.map f }

/-- The header of a block says what was written to it. -/
theorem Heap.Keeps.read_overwrite {h : Heap} {L : Ledger} {os : List Overwrite} {b : Block}
    (K : h.Keeps L) (targets : ∀ o ∈ os, o.block ∈ L.blocks.map Block.addr) (fits : ∀ o ∈ os, o.Fits)
    (hb : b ∈ L.blocks) : Block.read (h.overwrite os).memory b.addr = b.overwritten os := by
  refine (RegionHeap.read_overwrite K.spaced targets fits (Keeps.addr_mem hb)).trans ?_
  rw [K.headers b hb]

/-- A snapshot shows the same blocks in the same order, with the fields that were written. -/
theorem Heap.snapshot_overwrite {h : Heap} {L : Ledger} {os : List Overwrite} (K : h.Keeps L)
    (targets : ∀ o ∈ os, o.block ∈ L.blocks.map Block.addr) (fits : ∀ o ∈ os, o.Fits) :
    (h.overwrite os).snapshot = h.snapshot.revised (Block.overwritten os) := by
  have read := fun b => K.read_overwrite (b := b) targets fits
  have blocks : (L.blocks.map Block.addr).map (Block.read (h.overwrite os).memory) =
      L.blocks.map (Block.overwritten os) := by
    rw [List.map_map]
    exact List.map_congr_left read
  have free : (L.free.map Block.addr).map (Block.read (h.overwrite os).memory) =
      L.free.map (Block.overwritten os) := by
    rw [List.map_map]
    exact List.map_congr_left fun b hb => read b (K.listed b hb)
  have links : ∀ b ∈ L.blocks, ∀ i, b.addr + 40 ≤ i → i < b.addr + 72 →
      (h.overwrite os).memory.byte i = h.memory.byte i := by
    intro b hb i hi hi'
    apply byte_overwrite targets
    intro a ha
    by_cases e : a = b.addr
    · omega
    · have := K.spaced.clear_of_ne ha (Keeps.addr_mem hb) e
      unfold Header.length at this
      omega
  obtain ⟨catalogue, freeList⟩ := K.chains_of_bytes links
  have shown := snapshot_eq K
  show Snapshot.mk h.regions h.catalogue.length h.freeList.length
    ((h.catalogue.walk (h.overwrite os).memory).map _)
    ((h.freeList.walk (h.overwrite os).memory).map _) = _
  rw [Chain.walk_eq catalogue, Chain.walk_eq freeList, Walk.map_ofList, Walk.map_ofList, blocks, free,
    shown, K.regions, K.catalogue.ends, K.freeList.ends]
  simp [Chain.ofNodes, Snapshot.revised]

end RegionHeap
