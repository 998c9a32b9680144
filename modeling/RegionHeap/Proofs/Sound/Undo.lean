import RegionHeap.Proofs.Sound.Calls

/-!
# Undoing what was handed out

What `Heap.giveBack` makes of a block that was just handed out, and what handing out makes of one that was
just given back.

* `orderedInsert_erase`, `find?_orderedInsert` — the first block that is large enough is where it would be
  put, and a block that was put on the free list is the first that is as large.
* `Ledger.merge_take`, `Ledger.take_merge` — a block that was cut is whole again, and one that was merged
  with nothing is taken whole.
* `giveBack_take`, `giveBack_adopt` — a block of the free list, or of a region just mapped, is given back.
* `giveBack_lone`, `allocate_merge` — a block without free neighbours is given back, and handed out again.
-/

set_option autoImplicit false

namespace RegionHeap

/-! ### The free list -/

section FreeList

variable {F as bs : List Block} {b : Block} {size : Nat}

/-- A block is put behind all smaller ones. -/
theorem orderedInsert_append (smaller : ∀ x ∈ as, x.size < b.size)
    (rest : ∀ x ∈ bs.head?, b.size ≤ x.size) :
    (as ++ bs).orderedInsert Block.NoLarger b = as ++ b :: bs := by
  induction as with
  | nil =>
    cases bs with
    | nil => rfl
    | cons c cs =>
      have before : Block.NoLarger b c := rest c rfl
      rw [List.nil_append, List.orderedInsert_cons, if_pos before]
      rfl
  | cons a as ih =>
    have before : ¬ Block.NoLarger b a := Nat.not_le.2 (smaller a (by simp))
    rw [List.cons_append, List.orderedInsert_cons, if_neg before,
      ih fun x hx => smaller x (by simp [hx])]
    rfl

/-- The first block that is large enough, taken off the free list and put back, is where it was. -/
theorem orderedInsert_erase (sorted : F.Pairwise Block.NoLarger)
    (found : (F.find? fun x => size ≤ x.size) = some b) :
    (F.erase b).orderedInsert Block.NoLarger b = F := by
  obtain ⟨fits, as, bs, rfl, small⟩ := List.find?_eq_some_iff_append.1 found
  have smaller : ∀ x ∈ as, x.size < b.size := by
    intro x hx
    have := small x hx
    simp at this fits
    omega
  have notMem : b ∉ as := fun hb => Nat.lt_irrefl _ (smaller b hb)
  have later := (List.pairwise_cons.1 (List.pairwise_append.1 sorted).2.1).1
  rw [List.erase_append_right _ notMem, List.erase_cons_head]
  exact orderedInsert_append smaller fun x hx => later x (List.mem_of_mem_head? hx)

/-- A block that was put on the free list is the first that is as large. -/
theorem find?_orderedInsert :
    ((F.orderedInsert Block.NoLarger b).find? fun x => b.size ≤ x.size) = some b := by
  induction F with
  | nil => simp
  | cons a F ih =>
    rw [List.orderedInsert_cons]
    split
    · simp
    · next larger =>
      have larger : ¬ b.size ≤ a.size := larger
      rw [List.find?_cons_of_neg (by simpa using larger), ih]

/-- A block that is not on the free list is not taken off it. -/
theorem filter_notMem_singleton (new : b ∉ F) : F.filter (· ∉ [b]) = F :=
  List.filter_eq_self.2 fun _ hx => decide_eq_true fun e => new (List.mem_singleton.1 e ▸ hx)

end FreeList

/-! ### Blocks -/

/-- The parts of a free block that was cut, free again and joined, are the block. -/
theorem Block.joined_front {b : Block} {least size id : Nat} (free : b.used = false)
    (room : Header.length ≤ least) (fits : size ≤ b.size) :
    (((b.withUsed true).front least size).withUsed false).joined
      ((b.withUsed true).leftover? least size id).toList = b := by
  unfold front leftover?
  by_cases whole : (b.withUsed true).size - size < least
  · rw [if_pos whole, if_pos whole]
    exact Block.withUsed_false free
  · rw [if_neg whole, if_neg whole, Option.toList_some, joined_singleton]
    have sum : size + (Header.length + (b.size - size - Header.length)) = b.size := by
      rw [withUsed_size] at whole
      omega
    show (b.withUsed false).withSize (size + (Header.length + (b.size - size - Header.length))) = b
    rw [sum]
    exact Block.withUsed_false free

/-! ### Ledgers -/

namespace Ledger

variable {L : Ledger} {rs rs' rs₁ rs₂ : List Region} {span : Span} {b : Block}
  {us vs xs ys : List Block}
  {size : Nat}

/-- What the free list holds beside the parts of a block that was handed out. -/
theorem filter_take (S : L.Laid rs) (S' : (L.take xs b ys size).Laid rs')
    (blocks : L.blocks = xs ++ b :: ys) :
    (L.take xs b ys size).free.filter (· ∉
      ((b.withUsed true).front (Header.length + L.settings.minBlock) size).withUsed false ::
        ((b.withUsed true).leftover? (Header.length + L.settings.minBlock) size L.nextId).toList) =
      L.free.erase b := by
  have nodup : L.free.Nodup := S.free.nodup_iff.2 (S.nodup.filter _)
  have hb : b ∈ L.blocks := by simp [blocks]
  have other : ∀ x ∈ L.free.erase b, x ∈ L.blocks ∧ x ≠ b := by
    intro x hx
    obtain ⟨ne, hx⟩ := nodup.mem_erase_iff.1 hx
    exact ⟨(S.mem_free_iff.1 hx).1, ne⟩
  have front : ∀ x ∈ L.free.erase b,
      x ≠ ((b.withUsed true).front (Header.length + L.settings.minBlock) size).withUsed false := by
    rintro x hx rfl
    obtain ⟨mem, ne⟩ := other _ hx
    apply ne
    apply S.payload_inj mem hb
    unfold Block.payload
    rw [Block.withUsed_addr, Block.addr_front, Block.withUsed_addr]
  by_cases whole : b.size - size < Header.length + L.settings.minBlock
  · have none : (b.withUsed true).leftover? (Header.length + L.settings.minBlock) size L.nextId =
        none := if_pos whole
    rw [none, take_of_lt whole]
    refine List.filter_eq_self.2 fun x hx => decide_eq_true ?_
    rw [Option.toList_none, List.mem_singleton]
    exact front x hx
  · have some : (b.withUsed true).leftover? (Header.length + L.settings.minBlock) size L.nextId =
        some ((b.withUsed true).rest size L.nextId) := if_neg whole
    have parts := @take_of_le L b xs ys size (Nat.le_of_not_lt whole)
    have distinct : (xs ++ (b.withUsed true).withSize size ::
        (b.withUsed true).rest size L.nextId :: ys).Nodup := by
      have nodup := S'.nodup
      rwa [parts] at nodup
    rw [List.append_cons, List.nodup_middle, List.nodup_cons] at distinct
    rw [some, Option.toList_some, parts]
    show ((L.free.erase b).orderedInsert Block.NoLarger ((b.withUsed true).rest size L.nextId)).filter
      _ = _
    rw [filter_orderedInsert (by simp)]
    refine List.filter_eq_self.2 fun x hx => decide_eq_true ?_
    rw [List.mem_cons, List.mem_singleton, not_or]
    refine ⟨front x hx, ?_⟩
    rintro rfl
    obtain ⟨mem, ne⟩ := other _ hx
    rw [blocks, List.mem_append, List.mem_cons] at mem
    exact distinct.1 (by simp only [List.mem_append, List.mem_singleton]; tauto)

/-- A block that was just handed out, given back, is what it was. -/
theorem merge_take (S : L.Laid rs) (S' : (L.take xs b ys size).Laid rs')
    (blocks : L.blocks = xs ++ b :: ys)
    (found : (L.free.find? fun x => size ≤ x.size) = some b) :
    (L.take xs b ys size).merge xs
        (((b.withUsed true).front (Header.length + L.settings.minBlock) size).withUsed false)
        ((b.withUsed true).leftover? (Header.length + L.settings.minBlock) size L.nextId).toList ys =
      L.withNextId (L.take xs b ys size).nextId := by
  obtain ⟨_, free⟩ := S.mem_free_iff.1 (List.mem_of_find?_eq_some found)
  have fits : size ≤ b.size := by simpa using List.find?_some found
  unfold merge
  rw [filter_take S S' blocks, Block.joined_front free (Nat.le_add_right _ _) fits,
    orderedInsert_erase S.sorted found, ← blocks]
  by_cases whole : b.size - size < Header.length + L.settings.minBlock
  · rw [take_of_lt whole]
    rfl
  · rw [take_of_le (Nat.le_of_not_lt whole)]
    rfl

/-- A block that was just given back, and merged with nothing, is taken whole. -/
theorem take_merge (blocks : L.blocks = xs ++ b :: ys) (used : b.used = true)
    (new : b.withUsed false ∉ L.free) :
    (L.merge xs (b.withUsed false) [] ys).take xs (b.withUsed false) ys b.size = L := by
  have whole : (b.withUsed false).size - b.size < Header.length + L.settings.minBlock := by
    rw [Block.withUsed_size, Nat.sub_self, Header.length]
    omega
  have others := filter_notMem_singleton new
  have back : (b.withUsed false).withUsed true = b := by
    rw [← used]
    rfl
  have free : (L.free.orderedInsert Block.NoLarger (b.withUsed false)).erase (b.withUsed false) =
      L.free := List.erase_orderedInsert_of_notMem new
  unfold take
  refine (cut_of_lt ?_).trans ?_
  · exact whole
  show (⟨L.settings, L.place, L.transfers, xs ++ (b.withUsed false).withUsed true :: ys,
    ((L.free.filter (· ∉ [b.withUsed false])).orderedInsert Block.NoLarger
      (b.withUsed false)).erase (b.withUsed false), L.regions, L.nextId⟩ : Ledger) = L
  rw [others, free, back, ← blocks]

/-- A region that was just mapped, its block given back. -/
theorem free_merge_adopt {c : Block} (new : c ∉ L.free) (xs ys : List Block) :
    (((L.mapped span).adopt b).merge xs c [] ys).free = L.free.orderedInsert Block.NoLarger c := by
  show (L.free.filter (· ∉ [c])).orderedInsert Block.NoLarger c = _
  rw [filter_notMem_singleton new]

/-- A region that was just mapped, its block given back and the region with it. -/
theorem shut_merge_adopt {c : Block} (new : c ∉ L.free) :
    (((L.mapped span).adopt b).merge L.blocks c [] []).shut L.blocks c [] =
      (L.withNextId (L.nextId + 1)).withTransfers
        (.unmapped ⟨c.addr, c.extent⟩ :: .mapped span :: L.transfers) := by
  have free := @free_merge_adopt L span b c new L.blocks []
  unfold shut without
  rw [free, filter_orderedInsert (List.mem_singleton_self c), filter_notMem_singleton new,
    List.append_nil]
  rfl

end Ledger

/-! ### Calls -/

namespace Heap

variable {E : Fault → Prop} {h : Heap} {L : Ledger} {rs : List Region} {b : Block}
  {xs ys : List Block} {size : Nat}

/-- A block that was handed out of the free list is given back at once: its parts are one block again,
where they were, or the region goes that this block fills. -/
theorem giveBack_take (K : h.Keeps (L.take xs b ys size)) (S : L.Sound rs)
    (found : (L.free.find? fun x => size ≤ x.size) = some b) (blocks : L.blocks = xs ++ b :: ys)
    (words : size % wordSize = 0) (large : L.settings.minBlock ≤ size) :
    Yields E (giveBack b.addr) h fun _ h' =>
      (¬ (L.settings.retained < L.regions ∧ b.Fills ys) ∧
        Moved h (L.take xs b ys size).Headers (L.withNextId (L.take xs b ys size).nextId) h') ∨
      (L.settings.retained < L.regions ∧ ∃ rs₁ rs₂,
        rs = rs₁ ++ ⟨⟨b.addr, b.extent⟩, [b]⟩ :: rs₂ ∧
        h'.Keeps ((L.withNextId (L.take xs b ys size).nextId).shut xs b ys) ∧
        ((L.withNextId (L.take xs b ys size).nextId).shut xs b ys).Sound (rs₁ ++ rs₂)) := by
  obtain ⟨_, free⟩ := S.mem_free_iff.1 (List.mem_of_find?_eq_some found)
  have fits : size ≤ b.size := by simpa using List.find?_some found
  obtain ⟨rs₁, span, us, vs, rs₂, rfl, before, after⟩ := S.exists_region_around blocks
  have S' := take_sound S free words large fits before after
  have merged := Ledger.merge_take S.toLaid S'.toLaid blocks found
  have back := @Block.joined_front b (Header.length + L.settings.minBlock) size L.nextId free
    (Nat.le_add_right _ _) fits
  have settings : (L.take xs b ys size).settings = L.settings := Ledger.cut_settings
  have regions : (L.take xs b ys size).regions = L.regions := Ledger.cut_regions
  have old : Region.Merged ⟨span, us ++ ([b] ++ vs)⟩ := S.merged _ (by simp)
  have front_used := @Block.used_front (b.withUsed true) (Header.length + L.settings.minBlock) size
  have front_addr := @Block.addr_front (b.withUsed true) (Header.length + L.settings.minBlock) size
  have rest_free := @Block.used_leftover (b.withUsed true) (Header.length + L.settings.minBlock) size
    L.nextId
  unfold Block.parts at S'
  generalize (b.withUsed true).front (Header.length + L.settings.minBlock) size = front at *
  generalize ((b.withUsed true).leftover? (Header.length + L.settings.minBlock) size
    L.nextId).toList = rest at *
  replace S' : (L.take xs b ys size).Sound
      (rs₁ ++ ⟨span, us ++ (([] ++ front :: rest) ++ vs)⟩ :: rs₂) := S'
  have us_used := old.used_before (x := b) rfl free
  have vs_used := old.used_after (x := b) rfl free
  have given := @giveBack_moved E h _ front rs₁ rs₂ span _ us vs [] rest rest xs ys S' front_used
    rest_free rfl us_used vs_used before after K
  rw [back, merged, settings, regions, front_addr] at given
  refine given.mono fun _ h' post => ?_
  rcases post with ⟨stays, M, _⟩ | ⟨many, fills, M, _⟩
  · exact .inl ⟨stays, M⟩
  · have shut := shut_sound S' front_used rest_free rfl us_used vs_used before after
    rw [back, merged] at shut
    obtain ⟨rfl, rfl, whole, sound⟩ := shut fills
    refine .inr ⟨many, rs₁, rs₂, ?_, M.keeps, sound⟩
    rw [whole, Block.withUsed_addr, front_addr]
    rfl

/-- The block of a region that was just mapped is given back at once: it is the one free block of the
region, or the region goes with it. -/
theorem giveBack_adopt {start : Nat} (S : L.Sound rs)
    (K : h.Keeps ((L.mapped ⟨start, Header.length + size⟩).adopt (Block.whole start size)))
    (place : L.place L.transfers (Header.length + size) = .ok start)
    (words : size % wordSize = 0) (large : L.settings.minBlock ≤ size) :
    Yields E (giveBack start) h fun _ h' =>
      (¬ L.settings.retained < L.regions + 1 ∧ ∃ L', h'.Keeps L' ∧
        L'.transfers = .mapped ⟨start, Header.length + size⟩ :: L.transfers ∧
        L'.nextId = L.nextId + 1 ∧ L'.free = L.free.orderedInsert Block.NoLarger
          (((Block.whole start size).withId L.nextId).withUsed false) ∧
        L'.Sound (rs ++ [⟨⟨start, Header.length + size⟩,
          [((Block.whole start size).withId L.nextId).withUsed false]⟩])) ∨
      (L.settings.retained < L.regions + 1 ∧
        Moved h ((L.mapped ⟨start, Header.length + size⟩).adopt (Block.whole start size)).Headers
          ((L.withNextId (L.nextId + 1)).withTransfers
            (.unmapped ⟨start, Header.length + size⟩ ::
              .mapped ⟨start, Header.length + size⟩ :: L.transfers)) h') := by
  have S' := adopt_sound S place words large
  have new : ((Block.whole start size).withId L.nextId).withUsed false ∉ L.free := by
    intro hx
    have := S.id_lt _ (S.mem_free_iff.1 hx).1
    exact Nat.lt_irrefl _ this
  have free := @Ledger.free_merge_adopt L ⟨start, Header.length + size⟩ (Block.whole start size) _ new
    L.blocks []
  have shut := @Ledger.shut_merge_adopt L ⟨start, Header.length + size⟩ (Block.whole start size) _ new
  replace S' : ((L.mapped ⟨start, Header.length + size⟩).adopt (Block.whole start size)).Sound
      (rs ++ ⟨⟨start, Header.length + size⟩,
        [] ++ (([] ++ (Block.whole start size).withId L.nextId :: []) ++ [])⟩ :: []) := S'
  have before : L.blocks = rs.flatMap Region.blocks ++ [] := by rw [S.blocks, List.append_nil]
  have after : ([] : List Block) = [] ++ ([] : List Region).flatMap Region.blocks := rfl
  have none : ∀ x ∈ ([] : List Block) ++ [], x.used = false := by simp
  have fills := (fills_iff S' rfl none rfl (by simp) (by simp) before after).2 ⟨rfl, rfl⟩
  refine (giveBack_moved S' rfl none rfl (by simp) (by simp) before after K).mono fun _ h' post => ?_
  rcases post with ⟨stays, M, _⟩ | ⟨many, _, M, _⟩
  · have sound := merge_sound S' rfl none rfl (by simp) (by simp) before after
    exact .inl ⟨fun many => stays ⟨many, fills⟩, _, M.keeps, rfl, rfl, free, sound⟩
  · refine .inr ⟨many, ?_⟩
    rwa [Block.joined_nil, shut] at M

/-- A block with no free block beside it is given back as it is, unless its region goes with it. -/
theorem giveBack_lone (K : h.Keeps L) (S : L.Sound rs) (blocks : L.blocks = xs ++ b :: ys)
    (used : b.used = true) (start : ∀ x ∈ xs.getLast?, ¬ x.Mergeable b.region)
    (stop : ∀ y ∈ ys.head?, ¬ y.Mergeable b.region) :
    Yields E (giveBack b.addr) h fun _ h' =>
      Moved h L.Headers (L.merge xs (b.withUsed false) [] ys) h' ∨
        h'.space.transfers ≠ h.space.transfers := by
  have hb : b ∈ L.blocks := by simp [blocks]
  have busy : b ∉ L.free := S.used_notMem_free (Ledger.mem_used.2 ⟨hb, used⟩)
  obtain ⟨r, hr, inside⟩ := S.exists_mem hb
  have count : 0 < L.regions := by
    rw [S.count]
    exact List.length_pos_of_mem hr
  have aligned : b.region = b.addr → b.addr % pageSize = 0 := by
    intro e
    rw [← e, (S.tiled r hr).region_eq inside]
    exact (S.placed hr).aligned
  have extent : ((b.withUsed false).joined []).extent < wordLimit := by
    rw [Block.joined_nil]
    show b.extent < wordLimit
    exact S.extent_lt hb
  have retakes : L.Retakes b (b.withUsed false) xs [] [] ys [] :=
    ⟨blocks, used, busy, rfl, by simp, by simp, start, stop, extent, count, aligned⟩
  refine (giveBack_yields retakes K).mono fun _ h' post => ?_
  rcases post with ⟨_, M, _⟩ | ⟨_, _, M, _⟩
  · exact .inl M
  · right
    rw [M.keeps.transfers, K.transfers]
    exact List.cons_ne_self _ _

/-- It is handed out again for as many bytes. -/
theorem allocate_merge (K : h.Keeps (L.merge xs (b.withUsed false) [] ys)) (S : L.Sound rs)
    (blocks : L.blocks = xs ++ b :: ys) (used : b.used = true) (most : b.size ≤ maxPayload) :
    Yields E (allocate b.size) h fun answer h' =>
      answer = .ok b.payload ∧ Moved h L.Headers L h' := by
  have hb : b ∈ L.blocks := by simp [blocks]
  have new : b.withUsed false ∉ L.free := fun hx =>
    S.withUsed_notMem hb used (S.mem_free_iff.1 hx).1
  have fit := S.fit hb
  have addrs : L.blocks.map Block.addr =
      (L.merge xs (b.withUsed false) [] ys).blocks.map Block.addr := by
    simp [Ledger.merge, blocks]
  have list : (L.merge xs (b.withUsed false) [] ys).blocks = xs ++ b.withUsed false :: ys := rfl
  have first : (L.merge xs (b.withUsed false) [] ys).free.find? (fun x => b.size ≤ x.size) =
      some (b.withUsed false) := by
    have found := @find?_orderedInsert L.free (b.withUsed false)
    rw [← filter_notMem_singleton new] at found
    exact found
  have own : (L.merge xs (b.withUsed false) [] ys).Owns (b.withUsed false) :=
    (S.owns hb).of_addrs addrs rfl rfl
  have again := Ledger.take_merge blocks used new
  unfold allocate
  rw [yields_get_bind, K.settings]
  have valid : (L.merge xs (b.withUsed false) [] ys).settings.blockSize b.size = .ok b.size :=
    Settings.blockSize_of_words fit.words fit.least most
  rw [valid]
  have ids : ((L.merge xs (b.withUsed false) [] ys).take xs (b.withUsed false) ys b.size).nextId ≠
      (L.merge xs (b.withUsed false) [] ys).nextId →
        (L.merge xs (b.withUsed false) [] ys).nextId + 1 < wordLimit ∨ E .additionOverflow :=
    fun number => absurd (congrArg Ledger.nextId again) number
  refine (reuse_some_yields K list first own fit.words S.small ids).bind fun answer h₁ post => ?_
  obtain ⟨rfl, M, _⟩ := post
  rw [again] at M
  refine yields_pure.2 ⟨rfl, M.mono ?_⟩
  rintro i (hi | ⟨lo, hi⟩)
  · exact hi.of_addrs addrs.symm
  · exact absurd hi (Nat.not_lt.2 lo)

end Heap

end RegionHeap
