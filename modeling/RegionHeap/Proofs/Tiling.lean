import RegionHeap.Proofs.Ledger.Carve

/-!
# Regions and the blocks that fill them

A region is a mapped span that its blocks fill from end to end. Cutting a block and joining blocks
replace some blocks of a region by others that fill the same bytes.

* `Tiles` — blocks that follow each other without a gap.
* `Tiles.bounds`, `Tiles.in_order`, `Tiles.finish_eq` — where such blocks lie and how many bytes they
  take.
* `Tiles.joined`, `Tiles.parts` — joining and cutting fill the same bytes.
* `Region.Tiled.replace` — a region whose blocks were replaced so.
-/

set_option autoImplicit false

namespace RegionHeap

theorem Block.finish_eq (b : Block) : b.finish = b.addr + b.extent := by
  unfold Block.finish Block.payload Block.extent Header.payload
  omega

theorem Block.addr_lt_finish (b : Block) : b.addr < b.finish := by
  rw [b.finish_eq]
  unfold Block.extent Header.length
  omega

theorem Block.extent_joined (l : Block) (rs : List Block) :
    (l.joined rs).extent = ((l :: rs).map Block.extent).sum := by
  rw [List.map_cons, List.sum_cons]
  exact (Nat.add_assoc _ _ _).symm

/-- No header lies in the payload of a block where the blocks lie apart. -/
theorem Ledger.Owns.of_apart {L : Ledger} {b : Block} (hb : b ∈ L.blocks) (finish_le : b.finish ≤ wordLimit)
    (apart : L.blocks.Pairwise fun x y => x.finish ≤ y.addr ∨ y.finish ≤ x.addr) : L.Owns b := by
  have symm : Std.Symm fun x y : Block => x.finish ≤ y.addr ∨ y.finish ≤ x.addr :=
    ⟨fun _ _ h => h.symm⟩
  refine ⟨finish_le, fun x hx => ?_⟩
  by_cases e : x = b
  · exact .inl (Nat.le_of_eq (by rw [e]))
  · have := apart.forall hx hb e
    unfold Block.finish Block.payload Header.payload at *
    omega

/-! ### Blocks without a gap -/

/-- The blocks fill the bytes from `a` to `z`, each right after the one before it, and all name the
head `head`. -/
def Tiles (head : Nat) : Nat → List Block → Nat → Prop
  | a, [], z => a = z
  | a, b :: bs, z => b.addr = a ∧ b.region = head ∧ Tiles head b.finish bs z

section Tiles

variable {head a z : Nat} {b l : Block} {bs xs ys rs : List Block}

theorem tiles_append : Tiles head a (xs ++ ys) z ↔ ∃ m, Tiles head a xs m ∧ Tiles head m ys z := by
  induction xs generalizing a with
  | nil =>
    constructor
    · intro h
      exact ⟨a, rfl, h⟩
    · rintro ⟨m, rfl, h⟩
      exact h
  | cons x xs ih =>
    simp only [List.cons_append, Tiles, ih]
    constructor
    · rintro ⟨addr, region, m, h, h'⟩
      exact ⟨m, ⟨addr, region, h⟩, h'⟩
    · rintro ⟨m, ⟨addr, region, h⟩, h'⟩
      exact ⟨addr, region, m, h, h'⟩

theorem Tiles.finish_eq (h : Tiles head a bs z) : z = a + (bs.map Block.extent).sum := by
  induction bs generalizing a with
  | nil => exact h.symm
  | cons b bs ih =>
    obtain ⟨rfl, _, h⟩ := h
    rw [ih h, b.finish_eq]
    simp [Nat.add_assoc]

theorem Tiles.region_eq (h : Tiles head a bs z) (hb : b ∈ bs) : b.region = head := by
  induction bs generalizing a with
  | nil => simp at hb
  | cons x xs ih =>
    obtain ⟨_, region, h⟩ := h
    rcases List.mem_cons.1 hb with rfl | hb
    · exact region
    · exact ih h hb

theorem Tiles.le (h : Tiles head a bs z) : a ≤ z := by
  rw [h.finish_eq]
  exact Nat.le_add_right _ _

theorem Tiles.bounds (h : Tiles head a bs z) (hb : b ∈ bs) : a ≤ b.addr ∧ b.finish ≤ z := by
  obtain ⟨xs, ys, rfl⟩ := List.append_of_mem hb
  obtain ⟨m, before, rfl, _, after⟩ := tiles_append.1 h
  exact ⟨before.le, after.le⟩

/-- Each block ends before those after it start. -/
theorem Tiles.in_order (h : Tiles head a bs z) : bs.Pairwise fun x y => x.finish ≤ y.addr := by
  induction bs generalizing a with
  | nil => exact List.Pairwise.nil
  | cons b bs ih =>
    obtain ⟨_, _, h⟩ := h
    exact List.pairwise_cons.2 ⟨fun x hx => (h.bounds hx).1, ih h⟩

/-- The head stands first, and no other block stands where it does. -/
theorem Tiles.head_addr (h : Tiles head a (xs ++ b :: ys) z) (addr : b.addr = a) : xs = [] := by
  cases xs with
  | nil => rfl
  | cons x xs =>
    obtain ⟨first, _, h⟩ := h
    have := (h.bounds (b := b) (by simp)).1
    have := x.addr_lt_finish
    omega

/-! ### Other blocks that fill the same bytes -/

/-- One block in the place of several. -/
theorem Tiles.joined (h : Tiles head a (l :: rs) z) : Tiles head a [l.joined rs] z := by
  refine ⟨h.1, h.2.1, ?_⟩
  show (l.joined rs).finish = z
  rw [h.finish_eq, Block.finish_eq, Block.extent_joined, Block.addr_joined, h.1]

/-- What becomes of a block that is cut to `size` bytes: its front, and what is left over. -/
def Block.parts (b : Block) (least size id : Nat) : List Block :=
  b.front least size :: (b.leftover? least size id).toList

theorem Block.parts_of_lt {least size id : Nat} (whole : b.size - size < least) :
    b.parts least size id = [b] := by
  unfold parts front leftover?
  rw [if_pos whole, if_pos whole]
  rfl

theorem Block.parts_of_le {least size id : Nat} (cut : least ≤ b.size - size) :
    b.parts least size id = [b.withSize size, b.rest size id] := by
  unfold parts front leftover?
  rw [if_neg (by omega), if_neg (by omega)]
  rfl

/-- The parts of a block in its place. -/
theorem Tiles.parts {least size id : Nat} (h : Tiles head a [b] z) (room : Header.length ≤ least)
    (fits : size ≤ b.size) : Tiles head a (b.parts least size id) z := by
  by_cases whole : b.size - size < least
  · rwa [Block.parts_of_lt whole]
  · rw [Block.parts_of_le (by omega)]
    obtain ⟨addr, region, finish⟩ := h
    refine ⟨addr, region, rfl, region, ?_⟩
    rw [← show b.finish = z from finish]
    show (b.rest size id).finish = b.finish
    unfold Block.rest Block.finish Block.payload Header.payload
    dsimp only
    omega

end Tiles

/-! ### Regions -/

/-- A region: the span that was mapped for it, and its blocks in address order. -/
structure Region where
  span : Span
  blocks : List Block

/-- The regions on either side of the one that a block is in, and the blocks in it. -/
theorem exists_region_of_mem {rs : List Region} {b : Block} (hb : b ∈ rs.flatMap Region.blocks) :
    ∃ rs₁ span us vs rs₂, rs = rs₁ ++ ⟨span, us ++ b :: vs⟩ :: rs₂ := by
  obtain ⟨⟨span, blocks⟩, hr, inside⟩ := List.mem_flatMap.1 hb
  obtain ⟨rs₁, rs₂, rfl⟩ := List.append_of_mem hr
  obtain ⟨us, vs, rfl⟩ := List.append_of_mem inside
  exact ⟨rs₁, span, us, vs, rs₂, rfl⟩

/-- The block bears the mark and holds whole words, at least `least` bytes. -/
structure Block.Fit (least : Nat) (b : Block) : Prop where
  intact : b.intact = true
  words : b.size % wordSize = 0
  least : least ≤ b.size

/-- The blocks of the region fill its span. The first one starts where the span starts, and all name
it. -/
structure Region.Tiled (least : Nat) (r : Region) : Prop where
  nonempty : r.blocks ≠ []
  tiles : Tiles r.span.start r.span.start r.blocks r.span.finish
  fit : ∀ b ∈ r.blocks, b.Fit least

/-- No two neighbours are both free. -/
def Block.Separate (x y : Block) : Prop :=
  x.used = true ∨ y.used = true

/-- No two neighbours of the region are both free. -/
def Region.Merged (r : Region) : Prop :=
  r.blocks.IsChain Block.Separate

section Region

variable {least : Nat} {span : Span} {r : Region} {b l : Block} {us vs seg seg' rs : List Block}

theorem Region.Tiled.sum_extents (h : r.Tiled least) :
    (r.blocks.map Block.extent).sum = r.span.length := by
  have := h.tiles.finish_eq
  unfold Span.finish at this
  omega

theorem Region.Tiled.region_eq (h : r.Tiled least) (hb : b ∈ r.blocks) : b.region = r.span.start :=
  h.tiles.region_eq hb

/-- Some blocks of a region are replaced by others that fill the same bytes. -/
theorem Region.Tiled.replace (h : Region.Tiled least ⟨span, us ++ (seg ++ vs)⟩) (some : seg' ≠ [])
    (same : ∀ head a z, Tiles head a seg z → Tiles head a seg' z) (fit : ∀ b ∈ seg', b.Fit least) :
    Region.Tiled least ⟨span, us ++ (seg' ++ vs)⟩ := by
  refine ⟨by simp [some], ?_, ?_⟩
  · obtain ⟨a, before, h'⟩ := tiles_append.1 h.tiles
    obtain ⟨z, middle, after⟩ := tiles_append.1 h'
    exact tiles_append.2 ⟨a, before, tiles_append.2 ⟨z, same _ _ _ middle, after⟩⟩
  · intro b hb
    have old := h.fit b
    simp only [List.mem_append] at hb old
    rcases hb with hb | hb | hb
    · exact old (.inl hb)
    · exact fit b hb
    · exact old (.inr (.inr hb))

theorem Block.Fit.withUsed (h : b.Fit least) (u : Bool) : (b.withUsed u).Fit least :=
  ⟨h.intact, h.words, h.least⟩

theorem Block.Fit.joined (h : l.Fit least) (hrs : ∀ r ∈ rs, r.Fit least) :
    (l.joined rs).Fit least := by
  have words : ((rs.map Block.extent).sum) % wordSize = 0 := by
    induction rs with
    | nil => rfl
    | cons r rs ih =>
      have := ih fun x hx => hrs x (by simp [hx])
      have := (hrs r (by simp)).words
      rw [List.map_cons, List.sum_cons]
      unfold Block.extent Header.length wordSize at *
      omega
  have := h.words
  have := h.least
  refine ⟨h.intact, ?_, ?_⟩
  · show (l.size + _) % wordSize = 0
    unfold wordSize at *
    omega
  · show least ≤ l.size + _
    omega

/-- Both parts of a block hold whole words and at least the smallest block. -/
theorem Block.Fit.parts {size id : Nat} (h : b.Fit least) (words : size % wordSize = 0)
    (large : least ≤ size) {x : Block} (hx : x ∈ b.parts (Header.length + least) size id) :
    x.Fit least := by
  by_cases whole : b.size - size < Header.length + least
  · rw [Block.parts_of_lt whole, List.mem_singleton] at hx
    rwa [hx]
  · rw [Block.parts_of_le (by omega)] at hx
    have := h.words
    rcases List.mem_cons.1 hx with rfl | hx
    · exact ⟨h.intact, words, large⟩
    · rw [List.mem_singleton.1 hx]
      refine ⟨rfl, ?_, ?_⟩
      · show (b.size - size - Header.length) % wordSize = 0
        unfold Header.length wordSize at *
        omega
      · show least ≤ b.size - size - Header.length
        omega

/-- The neighbours of some blocks stay as they are. -/
theorem Region.Merged.replace (h : Region.Merged ⟨span, us ++ (seg ++ vs)⟩)
    (inner : seg'.IsChain Block.Separate) (some : seg' ≠ [])
    (before : ∀ x ∈ us.getLast?, ∀ y ∈ seg'.head?, x.Separate y)
    (after : ∀ x ∈ seg'.getLast?, ∀ y ∈ vs.head?, x.Separate y) :
    Region.Merged ⟨span, us ++ (seg' ++ vs)⟩ := by
  unfold Region.Merged at *
  rw [List.isChain_append, List.isChain_append] at *
  obtain ⟨left, ⟨_, right, _⟩, _⟩ := h
  refine ⟨left, ⟨inner, right, after⟩, ?_⟩
  intro x hx y hy
  apply before x hx y
  obtain ⟨s, seg', rfl⟩ := List.exists_cons_of_ne_nil some
  exact hy

end Region

end RegionHeap
