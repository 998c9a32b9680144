import RegionHeap.Proofs.Sound

/-!
# Edits of sound ledgers

The edits that calls make on a ledger keep it laid out, and each says what becomes of the blocks that
are handed out.

* `Laid.take`, `Laid.cut`, `Laid.join`, `Laid.merge` — edits of one region.
* `Laid.adopt`, `Laid.drop` — a region comes or goes.
* `Region.Merged.parts`, `Region.Merged.merge` — which edits leave no two free neighbours.
-/

set_option autoImplicit false

namespace RegionHeap

/-- A block in the place of one that starts and ends where it does. -/
theorem Tiles.amend {head a z : Nat} {xs ys : List Block} {b b' : Block}
    (h : Tiles head a (xs ++ b :: ys) z) (addr : b'.addr = b.addr) (region : b'.region = b.region)
    (finish : b'.finish = b.finish) : Tiles head a (xs ++ b' :: ys) z := by
  obtain ⟨m, before, start, named, after⟩ := tiles_append.1 h
  exact tiles_append.2 ⟨m, before, addr.trans start, region.trans named, finish ▸ after⟩

/-! ### Free neighbours -/

section Merged

variable {span : Span} {us vs seg : List Block} {b x : Block}

/-- What follows a free block is in use. -/
theorem Region.Merged.used_after (h : Region.Merged ⟨span, us ++ (seg ++ vs)⟩)
    (last : x ∈ seg.getLast?) (free : x.used = false) : ∀ y ∈ vs.head?, y.used = true := by
  unfold Region.Merged at h
  rw [List.isChain_append, List.isChain_append] at h
  intro y hy
  rcases h.2.1.2.2 x last y hy with used | used
  · rw [free] at used
    cases used
  · exact used

/-- What precedes a free block is in use. -/
theorem Region.Merged.used_before (h : Region.Merged ⟨span, us ++ (seg ++ vs)⟩)
    (first : x ∈ seg.head?) (free : x.used = false) : ∀ y ∈ us.getLast?, y.used = true := by
  unfold Region.Merged at h
  rw [List.isChain_append] at h
  intro y hy
  have next : x ∈ (seg ++ vs).head? := List.mem_head?_append_of_mem_head? first
  rcases h.2.2 y hy x next with used | used
  · exact used
  · rw [free] at used
    cases used

/-- The parts of a used block in the place of some blocks before a used one. -/
theorem Region.Merged.parts {least size id : Nat} (h : Region.Merged ⟨span, us ++ (seg ++ vs)⟩)
    (used : b.used = true) (after : ∀ y ∈ vs.head?, y.used = true) :
    Region.Merged ⟨span, us ++ (b.parts least size id ++ vs)⟩ := by
  have front : (b.front least size).used = true := by rw [Block.used_front, used]
  apply h.replace
  · unfold Block.parts
    cases b.leftover? least size id with
    | none => exact List.isChain_singleton _
    | some r => exact List.isChain_pair.2 (.inl front)
  · simp [Block.parts]
  · intro x _ y hy
    obtain rfl : b.front least size = y := by simpa [Block.parts] using hy
    exact .inr front
  · intro x _ y hy
    exact .inr (after y hy)

/-- One block in the place of several whose neighbours are in use. -/
theorem Region.Merged.merge (h : Region.Merged ⟨span, us ++ (seg ++ vs)⟩) (b : Block)
    (before : ∀ x ∈ us.getLast?, x.used = true) (after : ∀ y ∈ vs.head?, y.used = true) :
    Region.Merged ⟨span, us ++ ([b] ++ vs)⟩ := by
  apply h.replace (List.isChain_singleton b) (by simp)
  · intro x hx _ _
    exact .inl (before x hx)
  · intro _ _ y hy
    exact .inr (after y hy)

end Merged

namespace Ledger

/-- The blocks that are handed out around some blocks of the catalogue. -/
theorem perm_used {L : Ledger} {xs seg ys : List Block} (e : L.blocks = xs ++ (seg ++ ys)) :
    L.used.Perm (seg.filter Block.used ++ (xs ++ ys).filter Block.used) := by
  unfold used
  rw [e]
  exact Laid.perm_filter_middle _ _ _ _

namespace Laid

variable {L : Ledger} {rs rs₁ rs₂ : List Region} {r : Region} {span : Span} {b l next : Block}
  {us vs ls ms ns xs ys : List Block} {size : Nat}

/-! ### Edits of one region -/

/-- A free block is handed out. -/
theorem use (h : L.Laid (rs₁ ++ ⟨span, us ++ b :: vs⟩ :: rs₂)) (free : b.used = false)
    (before : xs = rs₁.flatMap Region.blocks ++ us) (after : ys = vs ++ rs₂.flatMap Region.blocks) :
    ((L.delist b).withBlocks (xs ++ b.withUsed true :: ys)).Laid
      (rs₁ ++ ⟨span, us ++ b.withUsed true :: vs⟩ :: rs₂) := by
  subst before after
  have h' : L.Laid (rs₁ ++ ⟨span, us ++ ([b] ++ vs)⟩ :: rs₂) := h
  have perm := h'.perm_free.erase b
  refine @edit L rs₁ rs₂ span us vs [b] [b.withUsed true] h' _ _ 0 rfl (by simp) ?_ ?_ (by simp) ?_
    (h.sorted.sublist List.erase_sublist)
  · intro head a z tiles
    exact @Tiles.amend head a z [] [] b _ tiles rfl rfl rfl
  · intro x hx
    rw [List.mem_singleton.1 hx]
    exact (h.fit (by simp [h.blocks])).withUsed true
  · simpa [Block.vacant, free] using perm

/-- A used block is cut. -/
theorem cut (h : L.Laid (rs₁ ++ ⟨span, us ++ b :: vs⟩ :: rs₂)) (used : b.used = true)
    (words : size % wordSize = 0) (large : L.settings.minBlock ≤ size) (fits : size ≤ b.size)
    (before : xs = rs₁.flatMap Region.blocks ++ us) (after : ys = vs ++ rs₂.flatMap Region.blocks) :
    (L.cut xs b ys size).Laid (rs₁ ++ ⟨span, us ++
      (b.parts (Header.length + L.settings.minBlock) size L.nextId ++ vs)⟩ :: rs₂) := by
  subst before after
  have h' : L.Laid (rs₁ ++ ⟨span, us ++ ([b] ++ vs)⟩ :: rs₂) := h
  have fit := h.fit (b := b) (by simp [h.blocks])
  have tiles : ∀ head a z, Tiles head a [b] z → Tiles head a
      (b.parts (Header.length + L.settings.minBlock) size L.nextId) z :=
    fun head a z tiles => tiles.parts (Nat.le_add_right _ _) fits
  have fits' := fun x => @Block.Fit.parts L.settings.minBlock b size L.nextId fit words large x
  by_cases whole : b.size - size < Header.length + L.settings.minBlock
  · rw [Ledger.cut_of_lt whole, Block.parts_of_lt whole]
    have same : L.withBlocks ((rs₁.flatMap Region.blocks ++ us) ++
        b :: (vs ++ rs₂.flatMap Region.blocks)) = L := congrArg L.withBlocks h'.blocks_eq.symm
    exact same.symm ▸ h
  · have le := Nat.le_of_not_lt whole
    rw [Block.parts_of_le le] at tiles fits' ⊢
    rw [Ledger.cut_of_le le]
    have perm := h'.perm_free
    refine @edit L rs₁ rs₂ span us vs [b] [b.withSize size, b.rest size L.nextId] h' _ _ 1 rfl
      (by simp) tiles fits' ?_ ?_ (List.Pairwise.orderedInsert _ _ h.sorted)
    · exact List.Sublist.refl _
    · refine (List.perm_orderedInsert _ _ _).trans ?_
      have front : (b.withSize size).vacant = false := by simp [Block.vacant, used]
      have rest : (b.rest size L.nextId).vacant = true := rfl
      have old : b.vacant = false := by simp [Block.vacant, used]
      simp only [List.filter_cons, front, rest, old, List.filter_nil, if_true, List.nil_append,
        Bool.false_eq_true, if_false, List.cons_append] at perm ⊢
      exact perm.cons _

/-- A free block is handed out and cut. -/
theorem take (h : L.Laid (rs₁ ++ ⟨span, us ++ b :: vs⟩ :: rs₂)) (free : b.used = false)
    (words : size % wordSize = 0) (large : L.settings.minBlock ≤ size) (fits : size ≤ b.size)
    (before : xs = rs₁.flatMap Region.blocks ++ us) (after : ys = vs ++ rs₂.flatMap Region.blocks) :
    (L.take xs b ys size).Laid (rs₁ ++ ⟨span, us ++
      ((b.withUsed true).parts (Header.length + L.settings.minBlock) size L.nextId ++ vs)⟩ :: rs₂) :=
  (h.use free before after).cut rfl words large fits before after

/-- A used block takes in the free one after it. -/
theorem join (h : L.Laid (rs₁ ++ ⟨span, us ++ b :: next :: vs⟩ :: rs₂)) (used : b.used = true)
    (free : next.used = false) (before : xs = rs₁.flatMap Region.blocks ++ us)
    (after : ys = vs ++ rs₂.flatMap Region.blocks) :
    ((L.delist next).withBlocks (xs ++ b.joined [next] :: ys)).Laid
      (rs₁ ++ ⟨span, us ++ b.joined [next] :: vs⟩ :: rs₂) := by
  subst before after
  have h' : L.Laid (rs₁ ++ ⟨span, us ++ ([b, next] ++ vs)⟩ :: rs₂) := h
  have hb : Region.mk span (us ++ b :: next :: vs) ∈
    rs₁ ++ ⟨span, us ++ b :: next :: vs⟩ :: rs₂ := by simp
  have fit := (h.tiled _ hb).fit
  have perm := h'.perm_free.erase next
  refine @edit L rs₁ rs₂ span us vs [b, next] [b.joined [next]] h' _ _ 0 rfl (by simp)
    (fun head a z tiles => tiles.joined) ?_ ?_ ?_ (h.sorted.sublist List.erase_sublist)
  · intro x hx
    rw [List.mem_singleton.1 hx]
    exact (fit b (by simp)).joined fun y hy => by
      rw [List.mem_singleton.1 hy]
      exact fit next (by simp)
  · simp [Block.joined]
  · have b_vacant : b.vacant = false := by simp [Block.vacant, used]
    have next_vacant : next.vacant = true := by simp [Block.vacant, free]
    have joined : (b.joined [next]).vacant = false := b_vacant
    simpa [List.filter_cons, b_vacant, next_vacant, joined] using perm

/-- What is left of a list when all members of one part go and none of the other. -/
theorem filter_removed {F seg others gone : List Block} (perm : F.Perm (seg ++ others))
    (inside : ∀ x ∈ seg, x ∈ gone) (outside : ∀ x ∈ others, x ∉ gone) :
    (F.filter (· ∉ gone)).Perm others := by
  have kept := perm.filter (· ∉ gone)
  have none : seg.filter (· ∉ gone) = [] := by
    rw [List.filter_eq_nil_iff]
    intro x hx
    simpa using inside x hx
  have all : others.filter (· ∉ gone) = others := by
    rw [List.filter_eq_self]
    intro x hx
    simpa using outside x hx
  rwa [List.filter_append, none, all, List.nil_append] at kept

/-- A block in use is not in the catalogue as a free one. -/
theorem withUsed_notMem (h : L.Laid rs) (hb : b ∈ L.blocks) (used : b.used = true) :
    b.withUsed false ∉ L.blocks := by
  intro hx
  have ne : b.withUsed false ≠ b := by
    intro e
    have := congrArg Block.used e
    rw [used] at this
    cases this
  have := h.apart_of_ne hx hb ne
  have := b.addr_lt_finish
  simp only [Block.finish_withUsed, Block.withUsed_addr] at *
  omega

/-- The merged block is as fit as those that it is made of. -/
theorem fit_of_run {least : Nat} (run : ls ++ b.withUsed false :: ms = l :: ns)
    (fit : ∀ x ∈ ls ++ b :: ms, x.Fit least) : (l.joined ns).Fit least := by
  have parts : ∀ x ∈ l :: ns, x.Fit least := by
    intro x hx
    rcases mem_of_run run hx with rfl | hx
    · exact (fit b (by simp)).withUsed false
    · exact fit x (by simp at hx ⊢; tauto)
  exact (parts l (by simp)).joined fun x hx => parts x (by simp [hx])

/-- A used block is given back and becomes one with the free ones around it. -/
theorem merge (h : L.Laid (rs₁ ++ ⟨span, us ++ ((ls ++ b :: ms) ++ vs)⟩ :: rs₂))
    (used : b.used = true) (free : ∀ x ∈ ls ++ ms, x.used = false)
    (run : ls ++ b.withUsed false :: ms = l :: ns)
    (before : xs = rs₁.flatMap Region.blocks ++ us) (after : ys = vs ++ rs₂.flatMap Region.blocks) :
    (L.merge xs l ns ys).Laid (rs₁ ++ ⟨span, us ++ l.joined ns :: vs⟩ :: rs₂) := by
  subst before after
  have hr : Region.mk span (us ++ ((ls ++ b :: ms) ++ vs)) ∈
    rs₁ ++ ⟨span, us ++ ((ls ++ b :: ms) ++ vs)⟩ :: rs₂ := by simp
  have fit := (h.tiled _ hr).fit
  have nodup := h.nodup
  have dead := h.withUsed_notMem (h.mem_blocks hr (b := b) (by simp)) used
  have perm := h.perm_free
  rw [h.blocks_eq] at nodup dead
  generalize hX : rs₁.flatMap Region.blocks ++ us = X at *
  generalize hY : vs ++ rs₂.flatMap Region.blocks = Y at *
  have outside : ∀ x ∈ (X ++ Y).filter Block.vacant, x ∉ l :: ns := by
    intro x hx inside
    have hx := (List.mem_filter.1 hx).1
    have apart := (List.perm_append_comm_assoc X (ls ++ b :: ms) Y).nodup_iff.1 nodup
    rcases mem_of_run run inside with rfl | inside
    · apply dead
      simp only [List.mem_append] at hx ⊢
      tauto
    · refine (List.nodup_append.1 apart).2.2 x ?_ x hx rfl
      simp only [List.mem_append, List.mem_cons] at inside ⊢
      tauto
  have inside : ∀ x ∈ (ls ++ b :: ms).filter Block.vacant, x ∈ l :: ns := by
    intro x hx
    obtain ⟨mem, vacant⟩ := List.mem_filter.1 hx
    have ne : x ≠ b := by
      rintro rfl
      simp [Block.vacant, used] at vacant
    rw [← run]
    simp only [List.mem_append, List.mem_cons] at mem ⊢
    tauto
  have joined : (l.joined ns).vacant = true := by
    have l_free : l.used = false := by
      rcases mem_of_run run (List.mem_cons_self ..) with e | hx
      · rw [e]
        rfl
      · exact free l hx
    show (!l.used) = true
    rw [l_free]
    rfl
  refine @edit L rs₁ rs₂ span us vs (ls ++ b :: ms) [l.joined ns] h (X ++ l.joined ns :: Y)
    ((L.free.filter (· ∉ l :: ns)).orderedInsert Block.NoLarger (l.joined ns)) 0 ?_ (by simp) ?_ ?_
    ?_ ?_ (List.Pairwise.orderedInsert _ _ (h.sorted.sublist List.filter_sublist))
  · rw [hX, hY]
    rfl
  · intro head a z tiles
    have same : Tiles head a (ls ++ b.withUsed false :: ms) z := tiles.amend rfl rfl rfl
    rw [run] at same
    exact same.joined
  · intro x hx
    rw [List.mem_singleton.1 hx]
    exact fit_of_run run fun y hy => fit y (by simp at hy ⊢; tauto)
  · have ids := congrArg (List.map Block.id) run
    simp only [List.map_append, List.map_cons, Block.withUsed_id] at ids
    have : (ls ++ b :: ms).map Block.id = l.id :: ns.map Block.id := by
      rw [← ids]
      simp
    rw [this]
    simp [Block.joined]
  · rw [hX, hY, List.filter_cons_of_pos joined, List.filter_nil, List.singleton_append]
    refine (List.perm_orderedInsert _ _ _).trans ?_
    exact (filter_removed perm inside outside).cons _

/-! ### Regions that come and go -/

/-- A region that was just mapped. -/
theorem adopt {start : Nat} (h : L.Laid rs)
    (e : L.place L.transfers (Header.length + size) = .ok start) (words : size % wordSize = 0)
    (large : L.settings.minBlock ≤ size) :
    ((L.mapped ⟨start, Header.length + size⟩).adopt (Block.whole start size)).Laid
      (rs ++ [⟨⟨start, Header.length + size⟩, [(Block.whole start size).withId L.nextId]⟩]) := by
  refine ⟨h.settings, h.lawful, h.settled.mapped h.lawful e, ?_, ?_, ?_, ?_, ?_, ?_, ?_, h.sorted⟩
  · rw [List.map_append, h.spans]
    rfl
  · rw [List.flatMap_append, ← h.blocks]
    rfl
  · intro r hr
    rcases List.mem_append.1 hr with hr | hr
    · exact h.tiled r hr
    · rw [List.mem_singleton.1 hr]
      refine ⟨by simp, ⟨rfl, rfl, ?_⟩, ?_⟩
      · show start + Header.length + size = start + (Header.length + size)
        omega
      · intro b hb
        rw [List.mem_singleton.1 hb]
        exact ⟨rfl, words, large⟩
  · rw [List.length_append, ← h.count]
    rfl
  · show ((L.blocks ++ [_]).map Block.id).Nodup
    rw [List.map_append]
    refine List.nodup_append.2 ⟨h.ids, List.nodup_singleton _, ?_⟩
    rintro i hi j hj rfl
    obtain ⟨x, hx, rfl⟩ := List.mem_map.1 hi
    have := h.id_lt x hx
    rw [List.mem_singleton.1 hj] at this
    exact Nat.lt_irrefl _ this
  · intro b hb
    show b.id < L.nextId + 1
    rcases List.mem_append.1 hb with hb | hb
    · exact Nat.lt_succ_of_lt (h.id_lt b hb)
    · rw [List.mem_singleton.1 hb]
      exact Nat.lt_succ_self _
  · show L.free.Perm ((L.blocks ++ [_]).filter Block.vacant)
    rw [List.filter_append]
    simpa [Block.vacant, Block.whole] using h.free

/-- A region is given back, with whatever it holds. -/
theorem drop (h : L.Laid (rs₁ ++ r :: rs₂))
    (rest : xs = rs₁.flatMap Region.blocks ++ rs₂.flatMap Region.blocks) :
    ((L.without r.blocks xs).unmapped r.span).Laid (rs₁ ++ rs₂) := by
  subst rest
  have spans := h.spans
  rw [List.map_append, List.map_cons] at spans
  have hr : r.span ∈ outstanding L.transfers := by
    rw [← spans]
    simp
  have erased : (outstanding L.transfers).erase r.span = (rs₁ ++ rs₂).map Region.span := by
    have nodup := h.settled.nodup
    rw [← spans] at nodup ⊢
    rw [erase_middle nodup, List.map_append]
  have blocks : L.blocks = rs₁.flatMap Region.blocks ++ (r.blocks ++ rs₂.flatMap Region.blocks) := by
    rw [h.blocks]
    simp
  have sub : (rs₁.flatMap Region.blocks ++ rs₂.flatMap Region.blocks).Sublist L.blocks := by
    rw [blocks]
    exact (List.sublist_append_right _ _).append_left _
  have sub_rs : ∀ u ∈ rs₁ ++ rs₂, u ∈ rs₁ ++ r :: rs₂ := by
    intro u hu
    simp only [List.mem_append, List.mem_cons] at hu ⊢
    tauto
  refine ⟨h.settings, h.lawful, h.settled.unmapped hr, erased.symm, ?_,
    fun u hu => h.tiled u (sub_rs u hu), ?_, h.ids.sublist (sub.map _),
    fun b hb => h.id_lt b (sub.subset hb), ?_, h.sorted.sublist List.filter_sublist⟩
  · rw [List.flatMap_append]
    rfl
  · have := h.count
    rw [List.length_append, List.length_cons] at this
    show L.regions - 1 = _
    rw [List.length_append]
    omega
  · show (L.free.filter (· ∉ r.blocks)).Perm
      ((rs₁.flatMap Region.blocks ++ rs₂.flatMap Region.blocks).filter Block.vacant)
    have nodup := h.nodup
    have perm := h.free
    rw [blocks] at nodup perm
    have apart := (List.perm_append_comm_assoc _ r.blocks _).nodup_iff.1 nodup
    refine filter_removed (perm.trans (perm_filter_middle _ _ _ _)) ?_ ?_
    · intro x hx
      exact (List.mem_filter.1 hx).1
    · intro x hx inside
      exact (List.nodup_append.1 apart).2.2 x inside x (List.mem_filter.1 hx).1 rfl

end Laid

/-! ### The blocks handed out -/

section Used

variable {L : Ledger} {b next l : Block} {xs ys ls ms ns : List Block} {size : Nat}

/-- Cutting leaves the front in use and what is left over free. -/
theorem used_cut (used : b.used = true) : (L.cut xs b ys size).used.Perm
    (b.front (Header.length + L.settings.minBlock) size :: (xs ++ ys).filter Block.used) := by
  have front : (b.front (Header.length + L.settings.minBlock) size).used = true := by
    rw [Block.used_front, used]
  have parts : (L.cut xs b ys size).blocks =
      xs ++ (b.parts (Header.length + L.settings.minBlock) size L.nextId ++ ys) := by
    by_cases whole : b.size - size < Header.length + L.settings.minBlock
    · rw [cut_of_lt whole, Block.parts_of_lt whole]
      rfl
    · have le := Nat.le_of_not_lt whole
      rw [cut_of_le le, Block.parts_of_le le]
      rfl
  refine (perm_used parts).trans ?_
  have : (b.parts (Header.length + L.settings.minBlock) size L.nextId).filter Block.used =
      [b.front (Header.length + L.settings.minBlock) size] := by
    unfold Block.parts Block.leftover?
    rw [List.filter_cons_of_pos front]
    split <;> simp [Block.rest]
  rw [this]
  rfl

/-- A request that takes a free block adds its front to the blocks handed out. -/
theorem used_take (e : L.blocks = xs ++ b :: ys) (free : b.used = false) :
    (L.take xs b ys size).used.Perm
      ((b.withUsed true).front (Header.length + L.settings.minBlock) size :: L.used) := by
  have old := @perm_used L xs [b] ys e
  rw [List.filter_cons_of_neg (by simp [free]), List.filter_nil, List.nil_append] at old
  exact (used_cut rfl).trans (old.symm.cons _)

/-- A block that is given back is the only one no longer handed out. -/
theorem used_merge (e : L.blocks = xs ++ ((ls ++ b :: ms) ++ ys)) (used : b.used = true)
    (free : ∀ x ∈ ls ++ ms, x.used = false) (l_free : l.used = false) :
    L.used.Perm (b :: (L.merge xs l ns ys).used) := by
  have old := perm_used e
  have new : (L.merge xs l ns ys).used = (xs ++ ys).filter Block.used := by
    show (xs ++ l.joined ns :: ys).filter Block.used = _
    rw [List.filter_append, List.filter_append, List.filter_cons_of_neg (by simp [Block.joined, l_free])]
  have run : (ls ++ b :: ms).filter Block.used = [b] := by
    have none : ∀ zs : List Block, (∀ x ∈ zs, x.used = false) → zs.filter Block.used = [] := by
      intro zs hzs
      rw [List.filter_eq_nil_iff]
      intro x hx
      simp [hzs x hx]
    rw [List.filter_append, List.filter_cons_of_pos used, none ls fun x hx => free x (by simp [hx]),
      none ms fun x hx => free x (by simp [hx])]
    rfl
  rw [run] at old
  rw [new]
  exact old

/-- A region that is one free block takes no block with it that is handed out. -/
theorem used_shut (e : L.blocks = xs ++ b :: ys) (free : b.used = false) :
    (L.shut xs b ys).used.Perm L.used := by
  have old := @perm_used L xs [b] ys e
  rw [List.filter_cons_of_neg (by simp [free]), List.filter_nil, List.nil_append] at old
  exact old.symm

/-- A block of a region just mapped is handed out besides the others. -/
theorem used_adopt (used : b.used = true) :
    (L.adopt b).used.Perm (b.withId L.nextId :: L.used) := by
  show ((L.blocks ++ [b.withId L.nextId]).filter Block.used).Perm _
  rw [List.filter_append, List.filter_cons_of_pos (by simp [used])]
  exact List.perm_append_singleton _ _

end Used

end Ledger

end RegionHeap
