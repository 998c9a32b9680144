import RegionHeap.Proofs.Ledger.Merge
import RegionHeap.Proofs.Ledger.Regions
import RegionHeap.Proofs.Ledger.Split

/-!
# Taking blocks back and growing them

What `Heap.giveBack` and `Heap.growInPlace` do to the ledger that the heap keeps, and what they record.

* `Block.retaking` — the events of giving a block back.
* `Ledger.Retakes` — a block that is to be given back, and the free blocks around it.
* `Heap.giveBack_yields` — the block is merged with the free blocks around it, and when the result
  fills its region and enough regions are kept, the region is given back.
* `Heap.absorb_next_yields`, `Heap.split_grown_yields` — the block takes in the free block after it, and is
  cut again.
* `Heap.growInPlace_yields` — so it does when that block is free and large enough, and only then.
-/

set_option autoImplicit false

namespace RegionHeap

theorem filter_orderedInsert {b : Block} {run F : List Block} (hb : b ∈ run) :
    (F.orderedInsert Block.NoLarger b).filter (· ∉ run) = F.filter (· ∉ run) := by
  have split := List.takeWhile_append_dropWhile (p := fun x => ¬ Block.NoLarger b x) (l := F)
  rw [List.orderedInsert_eq_take_drop, List.filter_append, List.filter_cons_of_neg (by simp [hb]),
    ← List.filter_append, split]

/-! ### The run of a block that is given back -/

section Run

variable {b l : Block} {ls rs vs : List Block}

/-- The blocks of a run are the one that was given back and free ones. -/
theorem mem_of_run {x : Block} (run : ls ++ b.withUsed false :: rs = l :: vs) (hx : x ∈ l :: vs) :
    x = b.withUsed false ∨ x ∈ ls ++ rs := by
  rw [← run] at hx
  simp only [List.mem_append, List.mem_cons] at hx ⊢
  tauto

theorem mergeable_of_run (run : ls ++ b.withUsed false :: rs = l :: vs)
    (merge : ∀ x ∈ ls ++ rs, x.Mergeable b.region) : ∀ x ∈ l :: vs, x.Mergeable b.region := by
  intro x hx
  rcases mem_of_run run hx with rfl | hx
  · exact ⟨rfl, rfl⟩
  · exact merge x hx

end Run

/-- What is recorded when the block `b` is given back and merged with the free blocks around it, so that
`l` takes in `vs`, latest first. -/
def Block.retaking (b l : Block) (vs : List Block) : List Event :=
  .merged (l.joined vs) :: (l.absorbingAll vs ++ [.freed (b.withUsed false)])

/-- Whether the block `whole`, which stands before `ys` in the catalogue, is all of its region. -/
def Block.Fills (whole : Block) (ys : List Block) : Prop :=
  whole.region = whole.addr ∧ ∀ y ∈ ys.head?, y.region ≠ whole.region

instance (whole : Block) (ys : List Block) : Decidable (whole.Fills ys) :=
  inferInstanceAs (Decidable (_ ∧ ∀ y ∈ ys.head?, y.region ≠ whole.region))

/-- The ledger in which the block `b` after `xs` has taken in the free block `next` between it and `zs`,
and was cut to `size` bytes. -/
def Ledger.grow (L : Ledger) (xs : List Block) (b next : Block) (zs : List Block) (size : Nat) :
    Ledger :=
  ((L.delist next).withBlocks (xs ++ b.joined [next] :: zs)).cut xs (b.joined [next]) zs size

section Grow

variable {L : Ledger} {b next : Block} {xs zs : List Block} {size : Nat}

/-- A block that has grown keeps all its bytes. -/
theorem Ledger.grow_of_lt
    (whole : (b.joined [next]).size - size < Header.length + L.settings.minBlock) :
    L.grow xs b next zs size = (L.delist next).withBlocks (xs ++ b.joined [next] :: zs) := by
  unfold grow
  refine (cut_of_lt ?_).trans rfl
  exact whole

/-- What a block that has grown does not need becomes a free block. -/
theorem Ledger.grow_of_le
    (parts : Header.length + L.settings.minBlock ≤ (b.joined [next]).size - size) :
    L.grow xs b next zs size = (((L.delist next).withBlocks (xs ++ (b.joined [next]).withSize size ::
      (b.joined [next]).rest size L.nextId :: zs)).enlist
        ((b.joined [next]).rest size L.nextId)).withNextId (L.nextId + 1) := by
  unfold grow
  refine (cut_of_le ?_).trans rfl
  exact parts

end Grow

/-- The ledger without the region that the free block `b` between `xs` and `ys` fills. -/
def Ledger.shut (L : Ledger) (xs : List Block) (b : Block) (ys : List Block) : Ledger :=
  (L.without [b] (xs ++ ys)).unmapped ⟨b.addr, b.extent⟩

/-- The block `b` of the ledger is handed out, and `ls` and `rs` are the free blocks of its region around
it, as far as they go: between `xs` and `ys`, the run `l :: vs` is to become one block. -/
structure Ledger.Retakes (L : Ledger) (b l : Block) (xs ls rs ys vs : List Block) : Prop where
  blocks : L.blocks = xs ++ ((ls ++ b :: rs) ++ ys)
  used : b.used = true
  busy : b ∉ L.free
  run : ls ++ b.withUsed false :: rs = l :: vs
  merge : ∀ x ∈ ls ++ rs, x.Mergeable b.region
  free : ∀ x ∈ ls ++ rs, x ∈ L.free
  start : ∀ x ∈ xs.getLast?, ¬ x.Mergeable b.region
  stop : ∀ y ∈ ys.head?, ¬ y.Mergeable b.region
  fits : (l.joined vs).extent < wordLimit
  some : 0 < L.regions
  aligned : l.region = l.addr → l.addr % pageSize = 0

/-- The ledger in which the run of the block is free and not merged yet. -/
def Ledger.vacate (L : Ledger) (xs : List Block) (l : Block) (vs ys : List Block) : Ledger :=
  L.withBlocks (xs ++ (l :: vs ++ ys))

namespace Ledger.Retakes

variable {h : Heap} {L : Ledger} {b l : Block} {xs ys ls rs vs : List Block}
  (R : L.Retakes b l xs ls rs ys vs)

include R

/-- In the catalogue the block is between those before and those after it. -/
theorem split : L.blocks = (xs ++ ls) ++ b :: (rs ++ ys) := by
  simp [R.blocks]

theorem mem_blocks : b ∈ L.blocks := by
  simp [R.split]

theorem vacated : (xs ++ ls) ++ b.withUsed false :: (rs ++ ys) = xs ++ (l :: vs ++ ys) := by
  rw [← R.run]
  simp

theorem mem_run : b.withUsed false ∈ l :: vs := by
  rw [← R.run]
  simp

theorem mem_vacate : b.withUsed false ∈ (L.vacate xs l vs ys).blocks :=
  List.mem_append_right _ (List.mem_append_left _ R.mem_run)

/-- Headers are where they were. -/
theorem headers {i : Nat} (hi : (L.vacate xs l vs ys).Headers i) : L.Headers i := by
  apply hi.of_addrs
  rw [R.split, Ledger.vacate, Ledger.withBlocks_blocks, ← R.vacated]
  simp

theorem headers_merge {i : Nat} (hi : (L.merge xs l vs ys).Headers i) : L.Headers i :=
  R.headers (hi.of_joined rfl rfl (by simp))

/-- The block is not on the free list yet. -/
theorem off (K : h.Keeps L) : b.withUsed false ∉ L.free := by
  intro hx
  rw [← K.eq_of_addr R.mem_blocks (K.listed _ hx) rfl] at hx
  exact R.busy hx

theorem mergeable : ∀ x ∈ l :: vs, x.Mergeable l.region := by
  have own := mergeable_of_run R.run R.merge
  rw [(own l List.mem_cons_self).1]
  exact own

theorem region_eq : l.region = b.region :=
  (mergeable_of_run R.run R.merge l List.mem_cons_self).1

theorem listed :
    ∀ x ∈ l :: vs, x ∈ ((L.vacate xs l vs ys).enlist (b.withUsed false)).free := by
  intro x hx
  refine (List.mem_orderedInsert _).2 ?_
  rcases mem_of_run R.run hx with rfl | hx
  · exact .inl rfl
  · exact .inr (R.free x hx)

theorem merged :
    ((L.vacate xs l vs ys).enlist (b.withUsed false)).merge xs l vs ys = L.merge xs l vs ys := by
  unfold Ledger.merge Ledger.enlist Ledger.vacate
  rw [Ledger.withFree_free, Ledger.withBlocks_free, filter_orderedInsert R.mem_run]
  rfl

theorem size_lt : (l.joined vs).size < wordLimit := by
  have := R.fits
  unfold Block.extent at this
  omega

/-- The header of the block says that it is free. -/
theorem moved (K : h.Keeps L) : h.Moved L.Headers (L.vacate xs l vs ys)
    (h.withMemory (Header.setUsed h.memory b.addr false)) := by
  have M := Heap.setUsed_moved K R.mem_blocks false
  rwa [K.amend_eq R.split R.busy, R.vacated] at M

end Ledger.Retakes

namespace Heap

variable {E : Fault → Prop} {h : Heap} {L : Ledger} {b l : Block} {xs ys ls rs vs : List Block}

theorem fillsRegion_iff (K : h.Keeps L) (hL : L.blocks = xs ++ b :: ys) :
    h.fillsRegion b.addr = true ↔ b.Fills ys := by
  unfold fillsRegion Block.Fills Header.isRegionHead
  rw [nextInRegion_eq K hL, K.region_eq (by simp [hL])]
  cases e : ys.head? with
  | none => simp
  | some y => by_cases same : y.region = b.region <;> simp [Option.filter, same]

section Retakes

variable (R : L.Retakes b l xs ls rs ys vs)

include R

/-- The run that the block is then part of becomes one block. -/
theorem retake_yields (K : h.Keeps ((L.vacate xs l vs ys).enlist (b.withUsed false))) :
    Yields E (coalesce b.addr) h fun left h' => left = l.addr ∧
      Moved h (L.vacate xs l vs ys).Headers (L.merge xs l vs ys) h' ∧
        h'.log = l.absorbingAll vs ++ h.log := by
  have start := R.start
  have stop := R.stop
  rw [← R.region_eq] at start stop
  have coalesced := @coalesce_yields E h _ (b.withUsed false) l xs ys vs K rfl R.mem_run R.mergeable
    R.listed start stop R.size_lt
  rw [R.merged] at coalesced
  exact coalesced.mono fun _ _ post => ⟨post.1, post.2.1, post.2.2.1⟩

/-- The block is put on the free list and merged with the free blocks around it. -/
theorem retake_bind {α : Type} {rest : Nat → HeapM α} {Q : α → Heap → Prop} (K : h.Keeps L)
    (next : ∀ h', Moved h L.Headers (L.merge xs l vs ys) h' →
      h'.log = l.absorbingAll vs ++ .freed (b.withUsed false) :: h.log → Yields E (rest l.addr) h' Q) :
    Yields E (do
      write (Header.setUsed · b.addr false)
      linkFree b.addr
      note .freed b.addr
      rest (← coalesce b.addr)) h Q := by
  rw [yields_write_bind]
  have M := R.moved K
  have log : (h.withMemory (Header.setUsed h.memory b.addr false)).log = h.log := rfl
  generalize h.withMemory _ = h₁ at M log ⊢
  have linked := @linkFree_yields E h₁ _ (b.withUsed false) M.keeps R.mem_vacate (R.off K)
  refine M.bind_silent (silent_linkFree _) linked (fun i hi => R.headers hi) fun _ h₂ M log₂ => ?_
  have listed : Block.read h₂.memory b.addr = b.withUsed false := M.keeps.headers _ R.mem_vacate
  rw [yields_note_bind, listed]
  replace M := M.logging (.freed (b.withUsed false))
  replace log : (h₂.logging (.freed (b.withUsed false))).log = .freed (b.withUsed false) :: h.log :=
    congrArg (Event.freed (b.withUsed false) :: ·) (log₂.trans log)
  generalize h₂.logging _ = h₃ at M log ⊢
  refine (retake_yields R M.keeps).bind fun left h₄ post => ?_
  obtain ⟨rfl, M', log₄⟩ := post
  rw [log] at log₄
  exact next h₄ (M.trans (M'.mono fun i hi => R.headers hi)) log₄

/-- A used block is given back: it is merged with the free blocks around it. When the result fills its
region, giving the region back may be the last thing that happens. -/
theorem giveBack_yields (K : h.Keeps L) :
    Yields E (giveBack b.addr) h fun _ h' =>
      (¬ (L.settings.retained < L.regions ∧ (l.joined vs).Fills ys) ∧
        Moved h L.Headers (L.merge xs l vs ys) h' ∧ h'.log = b.retaking l vs ++ h.log) ∨
      (L.settings.retained < L.regions ∧ (l.joined vs).Fills ys ∧
        Moved h L.Headers ((L.merge xs l vs ys).shut xs (l.joined vs) ys) h' ∧
        h'.log = .closing (l.joined vs) :: b.retaking l vs ++ h.log ∧
        ∃ h₁, h₁.Keeps (L.merge xs l vs ys) ∧ closeRegion l.addr h₁ = .ok () h') := by
  have busy : ¬ (!Header.used h.memory b.addr) = true := by
    rw [K.used_eq R.mem_blocks, R.used]
    simp
  unfold giveBack
  rw [yields_look_bind, if_neg busy]
  refine retake_bind R K fun h₁ M log => ?_
  have whole : Block.read h₁.memory l.addr = l.joined vs :=
    M.keeps.headers (l.joined vs) (by simp [Ledger.merge])
  rw [yields_note_bind, whole]
  replace M := M.logging (.merged (l.joined vs))
  replace log : (h₁.logging (.merged (l.joined vs))).log = b.retaking l vs ++ h.log := by
    unfold Block.retaking logging
    rw [log]
    simp
  generalize h₁.logging _ = h₂ at M log ⊢
  have fills := fillsRegion_iff M.keeps (b := l.joined vs) rfl
  rw [Block.addr_joined] at fills
  have regions : h₂.regions = L.regions := M.keeps.regions
  have settings : h₂.settings = L.settings := M.keeps.settings
  rw [yields_get_bind, settings, regions]
  by_cases gone : L.settings.retained < L.regions ∧ h₂.fillsRegion l.addr = true
  · rw [if_pos gone]
    have head : (l.joined vs).Fills ys := fills.1 gone.2
    have closed := @closeRegion_yields E h₂ _ (l.joined vs) xs ys M.keeps rfl
      ((List.mem_orderedInsert _).2 (.inl rfl)) R.some (R.aligned head.1) R.fits
    refine closed.with_run.mono fun _ h₃ post => ?_
    obtain ⟨run, closing, M'⟩ := post
    rw [log] at closing
    exact .inr ⟨gone.1, head, M.trans (M'.mono fun i hi => R.headers_merge hi), closing, h₂, M.keeps, run⟩
  · rw [if_neg gone, yields_pure]
    rw [fills] at gone
    exact .inl ⟨gone, M, log⟩

end Retakes

section Grow

variable {next : Block} {zs : List Block} {size : Nat}

/-- The free block after a used one is taken in. -/
theorem absorb_next_yields (K : h.Keeps L) (hL : L.blocks = xs ++ b :: next :: zs) (hf : b ∉ L.free)
    (merge : next.Mergeable b.region) (listed : next ∈ L.free)
    (fits : (b.joined [next]).size < wordLimit) :
    Yields E (absorb b.addr next.addr) h fun _ h' =>
      Moved h L.Headers ((L.delist next).withBlocks (xs ++ b.joined [next] :: zs)) h' ∧
        h'.log = b.absorbing next ++ h.log ∧ Header.intact h'.memory next.addr = false := by
  have absorbed := @absorb_yields E h L b next xs zs K hL merge listed fits
  rwa [Ledger.absorb_singleton K.nodupFree hf] at absorbed

/-- The block that grew is cut, unless what is left over cannot be a block. The mark of the block that was
taken in stays dead, if it lies in what is kept. -/
theorem split_grown_yields {h₁ : Heap} (K : h.Keeps L) (hL : L.blocks = xs ++ b :: next :: zs)
    (hf : b ∉ L.free) (own : Ledger.Owns (L.withBlocks (xs ++ b.joined [next] :: zs)) (b.joined [next]))
    (fits : size ≤ (b.joined [next]).size) (words : size % wordSize = 0)
    (small : Header.length + L.settings.minBlock < wordLimit)
    (ids : (L.grow xs b next zs size).nextId ≠ L.nextId → L.nextId + 1 < wordLimit ∨ E .additionOverflow)
    (M : Moved h L.Headers ((L.delist next).withBlocks (xs ++ b.joined [next] :: zs)) h₁)
    (log : h₁.log = b.absorbing next ++ h.log) (dead : Header.intact h₁.memory next.addr = false) :
    Yields E (split b.addr size) h₁ fun _ h' =>
      Moved h (fun i => L.Headers i ∨ b.payload + size ≤ i ∧ i < (b.joined [next]).finish)
        (L.grow xs b next zs size) h' ∧
      h.Recorded L ((b.joined [next]).cutting (Header.length + L.settings.minBlock) size L.nextId ++
        b.absorbing next) h' (L.grow xs b next zs size) ∧
      (next.addr + wordSize ≤ b.payload + size → Header.intact h'.memory next.addr = false) := by
  have off : b.joined [next] ∉ L.free.erase next := by
    intro hx
    have hx := List.mem_of_mem_erase hx
    have hb : b ∈ L.blocks := by simp [hL]
    have := K.eq_of_addr hb (K.listed _ hx) rfl
    rw [this] at hf
    exact hf hx
  have cut := @split_yields E h₁ _ (b.joined [next]) xs zs size M.keeps rfl off
    ⟨own.finish_le, own.clear⟩ fits words small ids
  refine cut.mono fun _ h' post => ?_
  obtain ⟨_, M', recorded⟩ := post
  have joined : h.Recorded L (b.absorbing next) h₁
      ((L.delist next).withBlocks (xs ++ b.joined [next] :: zs)) := .of_log log rfl
  refine ⟨(M.mono fun i hi => .inl hi).trans (M'.mono ?_), joined.trans recorded, fun kept => ?_⟩
  · rintro i (hi | hi)
    · exact .inl (hi.of_joined hL rfl (by simp))
    · exact .inr hi
  · have start : (b.joined [next]).payload = b.payload := rfl
    have taken : L.blocks = xs ++ b :: ([next] ++ zs) := hL
    rw [← dead]
    refine M'.intact_eq fun i hi hi' => not_or.2 ⟨?_, by omega⟩
    exact K.not_headers_of_absorbed taken (List.mem_singleton_self next)
      ⟨hi, by unfold wordSize at hi'; unfold Header.length; omega⟩

/-- What is read before a used block grows: the block after it in its region, and the size of both. -/
theorem yields_growInPlace {Q : Bool → Heap → Prop} (K : h.Keeps L)
    (hL : L.blocks = xs ++ b :: next :: zs) (same : next.region = b.region)
    (fits : b.size + Header.length + next.size < wordLimit) :
    Yields E (growInPlace b.addr size) h Q ↔
      if next.used = true ∨ (b.joined [next]).size < size then Q false h
      else Yields E (do
        absorb b.addr next.addr
        discard (split b.addr size)
        return true) h Q := by
  have hb : b ∈ L.blocks := by simp [hL]
  have hn : next ∈ L.blocks := by simp [hL]
  have joint : (b.joined [next]).size = b.size + Header.length + next.size := by
    rw [Block.joined_singleton, Block.withSize_size, Nat.add_assoc]
  unfold growInPlace
  rw [yields_look_bind, id, nextInRegion_eq K hL]
  simp only [List.head?_cons, Option.filter, same, beq_self_eq_true, if_true, Option.map_some]
  rw [K.size_eq hb, K.size_eq hn, yields_lift_bind (Word.add_eq_ok (by omega)),
    yields_lift_bind (Word.add_eq_ok fits), K.used_eq hn, joint]
  simp only [Bool.or_eq_true, decide_eq_true_eq]
  split
  · exact yields_pure
  · exact Iff.rfl

end Grow

/-- A used block grows when the block after it is free and large enough, and only then. -/
theorem growInPlace_yields {size : Nat} (K : h.Keeps L) (hL : L.blocks = xs ++ b :: ys)
    (hf : b ∉ L.free) (words : size % wordSize = 0)
    (small : Header.length + L.settings.minBlock < wordLimit)
    (fits : ∀ next zs, ys = next :: zs → next.region = b.region →
      b.size + Header.length + next.size < wordLimit)
    (free : ∀ next ∈ ys, next.used = false → next ∈ L.free)
    (own : ∀ next zs, ys = next :: zs → next.Mergeable b.region →
      Ledger.Owns (L.withBlocks (xs ++ b.joined [next] :: zs)) (b.joined [next]))
    (ids : ∀ next zs, ys = next :: zs → next.Mergeable b.region → size ≤ (b.joined [next]).size →
      (L.grow xs b next zs size).nextId ≠ L.nextId → L.nextId + 1 < wordLimit ∨ E .additionOverflow) :
    Yields E (growInPlace b.addr size) h fun answer h' =>
      match answer with
      | true => ∃ next zs, ys = next :: zs ∧ next.Mergeable b.region ∧ size ≤ (b.joined [next]).size ∧
          Moved h (fun i => L.Headers i ∨ b.payload + size ≤ i ∧ i < (b.joined [next]).finish)
            (L.grow xs b next zs size) h' ∧
          h.Recorded L ((b.joined [next]).cutting (Header.length + L.settings.minBlock) size L.nextId ++
            b.absorbing next) h' (L.grow xs b next zs size) ∧
          (next.addr + wordSize ≤ b.payload + size → Header.intact h'.memory next.addr = false)
      | false => h' = h ∧ ∀ next zs, ys = next :: zs → next.Mergeable b.region →
          (b.joined [next]).size < size := by
  by_cases follows : ∃ next zs, ys = next :: zs ∧ next.region = b.region
  · obtain ⟨next, zs, rfl, same⟩ := follows
    have bound := fits next zs rfl same
    rw [yields_growInPlace K hL same bound]
    split
    · next refused =>
      refine ⟨rfl, ?_⟩
      rintro _ _ ⟨⟩ merge
      exact refused.resolve_left (by simp [merge.2])
    · next granted =>
      rw [not_or, Bool.not_eq_true, Nat.not_lt] at granted
      have merge : next.Mergeable b.region := ⟨same, granted.1⟩
      have joint : (b.joined [next]).size < wordLimit := by
        rw [Block.joined_singleton, Block.withSize_size, ← Nat.add_assoc]
        exact bound
      have listed := free next (by simp) granted.1
      refine (absorb_next_yields K hL hf merge listed joint).bind fun _ h₁ post => ?_
      obtain ⟨M, log, dead⟩ := post
      refine Yields.bind (yields_discard.2 (split_grown_yields K hL hf (own next zs rfl merge) granted.2
        words small (ids next zs rfl merge granted.2) M log dead)) fun _ h₂ post => ?_
      exact yields_pure.2 ⟨next, zs, rfl, merge, granted.2, post⟩
  · have alone : (ys.head?.filter fun y => y.region == b.region) = none := by
      cases ys with
      | nil => rfl
      | cons next zs => simpa [Option.filter] using fun same => follows ⟨next, zs, rfl, same⟩
    unfold growInPlace
    rw [yields_look_bind, id, nextInRegion_eq K hL, alone]
    refine yields_pure.2 ⟨rfl, ?_⟩
    rintro next zs e merge
    exact absurd ⟨next, zs, e, merge.1⟩ follows

end Heap

end RegionHeap
