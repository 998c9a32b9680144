import RegionHeap.Proofs.Sound.Handing

/-!
# The order of equals

Blocks of one size stand in the free list with the one first that was put there last. The log shows when
that was: a free block is recorded as soon as it has been put on the list.

* `listings` — the free blocks that a log tells of, latest first.
* `Ranked` — a list of blocks in which equals stand in the order of their listings.
* `Ranked.insert` — putting a block in front of the first that is as large keeps that order.
* `Ledger.Ranks` — what is recorded on the way from one ledger to another one ranks the free list again.
* `handing_ranks`, `retaking_ranks`, `shut_ranks`, `grow_ranks` — so it does for what calls are made of.
-/

set_option autoImplicit false

namespace RegionHeap

/-- The free block that the event tells of, if it has come up or has got another size. -/
def Event.listed? : Event → Option Block
  | freed b | merged b => some b
  | fresh b => if b.used then none else some b
  | _ => none

/-- The free blocks that a log tells of, latest first. -/
def listings (log : List Event) : List Block :=
  log.filterMap Event.listed?

theorem listings_append (es log : List Event) :
    listings (es ++ log) = listings es ++ listings log :=
  List.filterMap_append

theorem listings_fresh_used {b : Block} (used : b.used = true) (log : List Event) :
    listings (.fresh b :: log) = listings log := by
  unfold listings
  rw [List.filterMap_cons_none]
  simp [Event.listed?, used]

theorem listings_fresh_free {b : Block} (free : b.used = false) (log : List Event) :
    listings (.fresh b :: log) = b :: listings log := by
  unfold listings
  rw [List.filterMap_cons_some]
  simp [Event.listed?, free]

/-- The blocks of `F` are all in `ls`, and equals stand in the order in which they come first there. -/
structure Ranked (F ls : List Block) : Prop where
  listed : ∀ b ∈ F, b ∈ ls
  latest : F.Pairwise fun x y => x.size = y.size → ls.idxOf x < ls.idxOf y

namespace Ranked

variable {F F' ls : List Block} {b : Block}

theorem nil : Ranked [] ls :=
  ⟨by simp, .nil⟩

/-- Blocks that go leave the others in their order. -/
theorem sublist (R : Ranked F ls) (sub : F'.Sublist F) : Ranked F' ls :=
  ⟨fun x hx => R.listed x (sub.subset hx), R.latest.sublist sub⟩

/-- What is recorded of other blocks does not matter. -/
theorem record (R : Ranked F ls) (other : b ∉ F) : Ranked F (b :: ls) where
  listed x hx := List.mem_cons_of_mem b (R.listed x hx)
  latest := by
    apply R.latest.imp_of_mem
    intro x y hx hy less same
    have ne : ∀ z ∈ F, b ≠ z := fun z hz e => other (e ▸ hz)
    rw [List.idxOf_cons_ne ls (ne x hx), List.idxOf_cons_ne ls (ne y hy)]
    exact Nat.succ_lt_succ (less same)

theorem record_all {bs : List Block} (R : Ranked F ls) (others : ∀ b ∈ bs, b ∉ F) :
    Ranked F (bs ++ ls) := by
  induction bs with
  | nil => exact R
  | cons b bs ih => exact (ih fun x hx => others x (by simp [hx])).record (others b (by simp))

/-- A block comes in front of those that are as large, and is recorded last. -/
theorem insert (R : Ranked F ls) (other : b ∉ F) :
    Ranked (F.orderedInsert Block.NoLarger b) (b :: ls) := by
  have old := R.record other
  have split := List.takeWhile_append_dropWhile (p := fun x => ¬ Block.NoLarger b x) (l := F)
  refine ⟨?_, ?_⟩
  · intro x hx
    rcases (List.mem_orderedInsert _).1 hx with rfl | hx
    · exact List.mem_cons_self
    · exact old.listed x hx
  have latest := old.latest
  rw [List.orderedInsert_eq_take_drop]
  rw [← split, List.pairwise_append] at latest
  obtain ⟨before, after, across⟩ := latest
  have less : ∀ x ∈ F.takeWhile (fun x => ¬ Block.NoLarger b x), x.size < b.size := by
    intro x hx
    have := List.mem_takeWhile_imp hx
    unfold Block.NoLarger at this
    simpa using this
  have first : ∀ y ∈ F, (b :: ls).idxOf b < (b :: ls).idxOf y := by
    intro y hy
    have ne : b ≠ y := by
      rintro rfl
      exact other hy
    rw [List.idxOf_cons_self, List.idxOf_cons_ne ls ne]
    exact Nat.succ_pos _
  refine List.pairwise_append.2 ⟨before, List.pairwise_cons.2 ⟨?_, after⟩, ?_⟩
  · exact fun y hy _ => first y ((List.dropWhile_sublist _).subset hy)
  · intro x hx y hy
    rcases List.mem_cons.1 hy with rfl | hy
    · exact fun same => absurd same (Nat.ne_of_lt (less x hx))
    · exact across x hx y hy

end Ranked

namespace Ledger

/-- If the free list of `L` is ranked by a log, that of `L'` is after `es` were recorded, too. -/
def Ranks (L : Ledger) (es : List Event) (L' : Ledger) : Prop :=
  ∀ log, Ranked L.free (listings log) → Ranked L'.free (listings (es ++ log))

section Ranks

variable {L L₁ L' : Ledger} {es fs : List Event} {rs : List Region} {b c l next : Block}
  {xs ys zs ls ms ns : List Block} {s : Option Span} {size : Nat}

/-- Blocks left the free list and none was recorded. -/
theorem Ranks.of_sublist (sub : L'.free.Sublist L.free) (none : listings es = []) : L.Ranks es L' := by
  intro log R
  rw [listings_append, none, List.nil_append]
  exact R.sublist sub

theorem Ranks.trans (first : L.Ranks es L₁) (second : L₁.Ranks fs L') : L.Ranks (fs ++ es) L' := by
  intro log R
  rw [List.append_assoc]
  exact second _ (first log R)

/-- What is cut off a block bears a number that no block of the free list has, and is recorded. -/
theorem cut_ranks (numbers : ∀ x ∈ L.free, x.id < L.nextId) :
    L.Ranks (b.cutting (Header.length + L.settings.minBlock) size L.nextId) (L.cut xs b ys size) := by
  by_cases whole : b.size - size < Header.length + L.settings.minBlock
  · rw [cut_of_lt whole, Block.cutting_of_lt whole]
    exact .of_sublist (.refl _) rfl
  · have parts := Nat.le_of_not_lt whole
    rw [cut_of_le parts, Block.cutting_of_le parts]
    intro log R
    rw [listings_append, listings_fresh_free rfl]
    exact R.insert fun hx => Nat.lt_irrefl _ (numbers _ hx)

theorem Laid.free_numbers (S : L.Laid rs) : ∀ x ∈ L.free, x.id < L.nextId :=
  fun x hx => S.id_lt x (S.mem_free_iff.1 hx).1

/-- A block that is handed out leaves the free list, and what is left over comes in. -/
theorem handing_ranks (S : L.Laid rs) (handed : L.Handed size c s L') :
    L.Ranks (L.handing size) L' := by
  unfold handing
  cases handed with
  | @reused xs ys b found blocks =>
    rw [found]
    have chosen : L.Ranks [.chosen (b.withUsed true)]
        ((L.delist b).withBlocks (xs ++ b.withUsed true :: ys)) :=
      .of_sublist List.erase_sublist rfl
    exact chosen.trans (cut_ranks fun x hx => S.free_numbers x (List.mem_of_mem_erase hx))
  | mapped full place =>
    rw [full, place]
    exact .of_sublist (.refl _) (listings_fresh_used rfl _)

/-- A block that grows takes the one after it out of the free list, and what is left over comes in. -/
theorem grow_ranks (S : L.Laid rs) (used : b.used = true) :
    L.Ranks ((b.joined [next]).cutting (Header.length + L.settings.minBlock) size L.nextId ++
      b.absorbing next) (L.grow xs b next zs size) := by
  have absorbed : L.Ranks (b.absorbing next)
      ((L.delist next).withBlocks (xs ++ b.joined [next] :: zs)) :=
    .of_sublist List.erase_sublist (@listings_fresh_used (b.joined [next]) used _)
  exact absorbed.trans (cut_ranks fun x hx => S.free_numbers x (List.mem_of_mem_erase hx))

/-- What is recorded while blocks are merged is about the first of them. -/
theorem addr_of_listed {x : Block} (hx : x ∈ listings (l.absorbingAll ns)) : x.addr = l.addr := by
  induction ns generalizing l with
  | nil => simp [Block.absorbingAll, listings] at hx
  | cons r ns ih =>
    rw [Block.absorbingAll, listings_append, List.mem_append] at hx
    rcases hx with hx | hx
    · exact (ih hx).trans (Block.addr_joined l [r])
    · unfold Block.absorbing at hx
      cases used : (l.joined [r]).used with
      | true =>
        rw [listings_fresh_used used] at hx
        cases hx
      | false =>
        rw [listings_fresh_free used] at hx
        rcases List.mem_cons.1 hx with rfl | hx
        · exact Block.addr_joined l [r]
        · cases hx

/-- A block that is given back takes its free neighbours out of the free list and comes in with them. -/
theorem retaking_ranks (S : L.Laid rs) (blocks : L.blocks = xs ++ ((ls ++ b :: ms) ++ ys))
    (used : b.used = true) (run : ls ++ b.withUsed false :: ms = l :: ns) :
    L.Ranks (b.retaking l ns) (L.merge xs l ns ys) := by
  have hb : b ∈ L.blocks := by simp [blocks]
  -- what stays in the free list is elsewhere
  have elsewhere : ∀ x ∈ L.free.filter (· ∉ l :: ns), x.addr ≠ b.addr ∧ x.addr ≠ l.addr := by
    intro x hx
    obtain ⟨hx, kept⟩ := List.mem_filter.1 hx
    obtain ⟨mem, free⟩ := S.mem_free_iff.1 hx
    have ne : x.addr ≠ b.addr := by
      intro e
      obtain rfl := S.payload_inj mem hb (congrArg Header.payload e)
      rw [free] at used
      cases used
    refine ⟨ne, fun e => ?_⟩
    rcases mem_of_run run (List.mem_cons_self (a := l)) with here | inside
    · rw [here] at e
      exact ne e
    · have hl : l ∈ L.blocks := by
        rw [blocks]
        simp only [List.mem_append, List.mem_cons] at inside ⊢
        tauto
      obtain rfl := S.payload_inj mem hl (congrArg Header.payload e)
      simp at kept
  intro log R
  have kept : Ranked (L.free.filter (· ∉ l :: ns)) (listings log) := R.sublist List.filter_sublist
  have recorded : listings (b.retaking l ns ++ log) =
      l.joined ns :: ((listings (l.absorbingAll ns) ++ [b.withUsed false]) ++ listings log) := by
    unfold Block.retaking
    rw [listings_append]
    show l.joined ns :: listings (l.absorbingAll ns ++ [.freed (b.withUsed false)]) ++ _ = _
    rw [listings_append]
    rfl
  rw [recorded]
  refine (kept.record_all ?_).insert fun hx => (elsewhere _ hx).2 (Block.addr_joined l ns)
  intro x hx inside
  rcases List.mem_append.1 hx with hx | hx
  · exact (elsewhere x inside).2 (addr_of_listed hx)
  · rw [List.mem_singleton.1 hx] at inside
    exact (elsewhere _ inside).1 rfl

/-- A region that goes takes its block out of the free list. -/
theorem shut_ranks : L.Ranks [.closing b] (L.shut xs b ys) :=
  .of_sublist List.filter_sublist rfl

end Ranks

end Ledger

end RegionHeap
