import Mathlib.Data.List.Induction
import RegionHeap.Heap.Region
import RegionHeap.Proofs.Ledger.Steps

/-!
# Merging blocks

What `Heap.absorb`, `Heap.absorbFree` and `Heap.coalesce` do to the ledger that the heap keeps, and what
they record.

* `Block.absorbing`, `Block.absorbingAll` — the events of a merge.
* `Heap.absorb_within` — the left block takes in the free one that follows it.
* `Heap.leftmostFree_eq`, `Heap.absorbFree_yields` — the two loops of a merge.
* `Heap.coalesce_yields` — a run of free blocks that cannot be made longer becomes one block, at the
  place of the first one, and is put where its size belongs in the free list.
-/

set_option autoImplicit false

namespace RegionHeap

/-- The block together with those that follow it. -/
def Block.joined (l : Block) (rs : List Block) : Block :=
  l.withSize (l.size + (rs.map Block.extent).sum)

@[simp]
theorem Block.addr_joined (l : Block) (rs : List Block) : (l.joined rs).addr = l.addr := rfl

@[simp]
theorem Block.joined_nil (l : Block) : l.joined [] = l := rfl

theorem Block.joined_singleton (l r : Block) :
    l.joined [r] = l.withSize (l.size + (Header.length + r.size)) := rfl

theorem Block.joined_cons (l r : Block) (rs : List Block) :
    l.joined (r :: rs) = (l.joined [r]).joined rs := by
  simp [joined, withSize, Nat.add_assoc]

/-- What is recorded when a block takes in the one after it, latest first. -/
def Block.absorbing (l r : Block) : List Event :=
  [.fresh (l.joined [r]), .mergingRight r, .mergingLeft l]

/-- What is recorded when a block takes in those after it, one after the other. -/
def Block.absorbingAll : Block → List Block → List Event
  | _, [] => []
  | l, r :: rs => (l.joined [r]).absorbingAll rs ++ l.absorbing r

/-- Whether a block would be merged with a free block of the region `region`. -/
def Block.Mergeable (region : Nat) (b : Block) : Prop :=
  b.region = region ∧ b.used = false

/-- The ledger in which the block `l` between `xs` and `ys` has taken in the free blocks `rs` after
it. -/
def Ledger.absorb (L : Ledger) (xs : List Block) (l : Block) (rs ys : List Block) : Ledger :=
  (L.withBlocks (xs ++ l.joined rs :: ys)).withFree
    ((L.free.filter (· ∉ rs)).map (Block.swap l (l.joined rs)))

/-- The ledger in which the free blocks `l :: rs` between `xs` and `ys` have become one. -/
def Ledger.merge (L : Ledger) (xs : List Block) (l : Block) (rs ys : List Block) : Ledger :=
  (L.withBlocks (xs ++ l.joined rs :: ys)).withFree
    ((L.free.filter (· ∉ l :: rs)).orderedInsert Block.NoLarger (l.joined rs))

/-! ### The free list of a merge -/

section FreeList

variable {F rs : List Block} {l l₁ l₂ r : Block}

/-- What two absorptions in a row leave of the free list. -/
theorem filter_swap_swap (l_rs : l ∉ rs) (l₁_rs : l₁ ∉ rs) (fresh : ∀ x ∈ F, x = l₁ → x = l) :
    (((F.filter (· ∉ [r])).map (Block.swap l l₁)).filter (· ∉ rs)).map (Block.swap l₁ l₂) =
      (F.filter (· ∉ r :: rs)).map (Block.swap l l₂) := by
  have keep : ∀ x, (Block.swap l l₁ x ∉ rs) ↔ x ∉ rs := by
    intro x
    unfold Block.swap
    split
    · next e => simp [e, l_rs, l₁_rs]
    · rfl
  rw [List.filter_map, List.filter_filter, List.map_map]
  have kept : F.filter (fun x => ((fun y => decide (y ∉ rs)) ∘ Block.swap l l₁) x &&
      decide (x ∉ [r])) = F.filter (· ∉ r :: rs) := by
    apply List.filter_congr
    intro x _
    simp only [Function.comp_apply, keep, List.mem_cons, List.not_mem_nil, or_false, not_or,
      Bool.decide_and]
    rw [Bool.and_comm]
  rw [kept]
  apply List.map_congr_left
  intro x hx
  have hx := (List.mem_filter.1 hx).1
  rw [Function.comp_apply]
  unfold Block.swap
  by_cases e : x = l
  · simp [e]
  · have : x ≠ l₁ := fun e' => e (fresh x hx e')
    simp [e, this]

/-- The block that took in the others, off the free list. -/
theorem erase_map_swap (nodup : ((F.filter (· ∉ rs)).map (Block.swap l l₁)).Nodup)
    (fresh : ∀ x ∈ F, x = l₁ → x = l) :
    ((F.filter (· ∉ rs)).map (Block.swap l l₁)).erase l₁ = F.filter (· ∉ l :: rs) := by
  rw [nodup.erase_eq_filter, List.filter_map, List.filter_filter]
  have kept : F.filter (fun x => ((fun y => y != l₁) ∘ Block.swap l l₁) x && decide (x ∉ rs)) =
      F.filter (· ∉ l :: rs) := by
    apply List.filter_congr
    intro x hx
    have : (Block.swap l l₁ x != l₁) = decide (x ≠ l) := by
      unfold Block.swap
      by_cases e : x = l
      · simp [e]
      · have : x ≠ l₁ := fun e' => e (fresh x hx e')
        simp [e, this]
    simp only [Function.comp_apply, this, List.mem_cons, not_or, Bool.decide_and]
  rw [kept]
  apply map_swap_of_notMem
  simp

end FreeList

/-! ### Absorbing -/

section Absorb

variable {h : Heap} {L : Ledger} {l r : Block} {xs ys zs rs ws : List Block}

@[simp]
theorem Ledger.absorb_blocks : (L.absorb xs l rs ys).blocks = xs ++ l.joined rs :: ys := rfl

theorem Ledger.mem_free_absorb {x : Block} (hx : x ∈ L.free) (ne : x ≠ l) (kept : x ∉ rs) :
    x ∈ (L.absorb xs l rs ys).free := by
  refine List.mem_map.2 ⟨x, by simp [hx, kept], ?_⟩
  unfold Block.swap
  rw [if_neg ne]

/-- The bytes of headers once a block has taken in some of those after it. -/
theorem Ledger.Headers.of_joined {L' : Ledger} {i : Nat} (hi : L'.Headers i)
    (hL : L.blocks = xs ++ l :: zs) (hL' : L'.blocks = xs ++ l.joined ws :: ys) (sub : ys ⊆ zs) :
    L.Headers i := by
  obtain ⟨x, hx, covers⟩ := hi
  rw [hL', List.mem_append, List.mem_cons] at hx
  rcases hx with hx | rfl | hx
  · exact ⟨x, by simp [hL, hx], covers⟩
  · exact ⟨l, by simp [hL], covers⟩
  · exact ⟨x, by simp [hL, sub hx], covers⟩

/-- Where the header of a block was that was taken in, there is none any more. -/
theorem Heap.Keeps.not_headers_of_absorbed {x : Block} {i : Nat} (K : h.Keeps L)
    (hL : L.blocks = xs ++ l :: (ws ++ ys)) (hx : x ∈ ws) (covers : Header.Covers x.addr i) :
    ¬ (L.absorb xs l ws ys).Headers i := by
  have addrs : (L.absorb xs l ws ys).blocks.map Block.addr = (xs ++ l :: ys).map Block.addr := by
    simp
  have perm : L.blocks.Perm (ws ++ (xs ++ l :: ys)) := by
    rw [hL, List.append_cons xs l ys, List.append_cons xs l (ws ++ ys)]
    exact List.perm_append_comm_assoc _ _ _
  have apart := (List.nodup_append.1 (perm.nodup_iff.1 K.nodup)).2.2
  have left : ∀ y ∈ xs ++ l :: ys, y ∈ L.blocks :=
    fun y hy => perm.mem_iff.2 (List.mem_append_right ws hy)
  have hx' : x ∈ L.blocks := by simp [hL, hx]
  apply K.not_headers_of_notMem hx' _ _ covers
  · rw [addrs]
    exact List.map_subset _ left
  · rw [addrs]
    intro mem
    obtain ⟨y, hy, e⟩ := List.mem_map.1 mem
    exact apart x hx y hy (K.eq_of_addr hx' (left y hy) e.symm)

/-- No block but `l` itself is what `l` becomes. -/
theorem Heap.Keeps.eq_of_joined (K : h.Keeps L) (hl : l ∈ L.blocks) {x : Block}
    (hx : x ∈ L.blocks) (e : x = l.joined ws) : x = l :=
  K.eq_of_addr hx hl (by rw [e, Block.addr_joined])

/-- Taking in nothing changes nothing. -/
theorem Ledger.absorb_nil (hL : L.blocks = xs ++ l :: ys) : L.absorb xs l [] ys = L := by
  have same : Block.swap l l = id := by
    funext x
    unfold Block.swap
    split
    · next e => rw [e, id]
    · rfl
  unfold Ledger.absorb
  rw [Block.joined_nil, same, ← hL]
  simp only [List.not_mem_nil, not_false_eq_true, decide_true, List.filter_true, List.map_id]
  rfl

/-- A block in use takes in the one after it. -/
theorem Ledger.absorb_singleton (nodup : L.free.Nodup) (hf : l ∉ L.free) :
    L.absorb xs l [r] ys = (L.delist r).withBlocks (xs ++ l.joined [r] :: ys) := by
  have off : l ∉ L.free.erase r := fun hx => hf (List.mem_of_mem_erase hx)
  unfold Ledger.absorb Ledger.delist
  rw [← erase_eq_filter_singleton nodup, map_swap_of_notMem off]
  rfl

/-- The first of several blocks fits when all of them do. -/
theorem Block.size_joined_lt (fits : (l.joined (r :: rs)).size < wordLimit) :
    l.size + (Header.length + r.size) < wordLimit := by
  rw [joined_cons] at fits
  have := congrArg Block.size (joined_singleton l r)
  unfold joined at fits this
  simp only [withSize_size] at fits this
  omega

/-- Once one block was taken in, those after it are still on the free list. -/
theorem Ledger.listed_absorb (K : h.Keeps L) (hL : L.blocks = xs ++ l :: (r :: rs ++ ys))
    (free : ∀ x ∈ r :: rs, x ∈ L.free) : ∀ x ∈ rs, x ∈ (L.absorb xs l [r] (rs ++ ys)).free := by
  have nodup := K.nodup
  rw [hL] at nodup
  obtain ⟨l_rs, nodup⟩ := List.nodup_cons.1 (List.nodup_append.1 nodup).2.1
  intro x hx
  apply mem_free_absorb (free x (by simp [hx]))
  · rintro rfl
    exact l_rs (by simp [hx])
  · rw [List.mem_singleton]
    rintro rfl
    exact (List.nodup_cons.1 nodup).1 (by simp [hx])

/-- What the block becomes is on the free list in its place. -/
theorem Ledger.joined_mem_absorb (K : h.Keeps L) (hL : L.blocks = xs ++ l :: (rs ++ ys))
    (hl : l ∈ L.free) : l.joined rs ∈ (L.absorb xs l rs ys).free := by
  have nodup := K.nodup
  rw [hL, List.nodup_middle, List.nodup_cons] at nodup
  have l_rs : l ∉ rs := fun hx => nodup.1 (by simp [hx])
  refine List.mem_map.2 ⟨l, ?_, by simp [Block.swap]⟩
  simpa [l_rs] using hl

/-- Taking in one block and then those after it takes in all of them. -/
theorem Ledger.absorb_cons (K : h.Keeps L) (hL : L.blocks = xs ++ l :: (r :: rs ++ ys)) :
    (L.absorb xs l [r] (rs ++ ys)).absorb xs (l.joined [r]) rs ys = L.absorb xs l (r :: rs) ys := by
  have hl : l ∈ L.blocks := by simp [hL]
  have nodup := K.nodup
  rw [hL, List.nodup_middle, List.nodup_cons] at nodup
  have l_rs : l ∉ rs := fun hx => nodup.1 (by simp [hx])
  have l₁_rs : l.joined [r] ∉ rs := by
    intro hx
    have := K.eq_of_joined hl (x := l.joined [r]) (by simp [hL, hx]) rfl
    exact l_rs (this ▸ hx)
  unfold Ledger.absorb
  rw [← Block.joined_cons, Ledger.withFree_free,
    filter_swap_swap l_rs l₁_rs fun x hx => K.eq_of_joined hl (K.listed x hx)]
  rfl

end Absorb

namespace Heap

variable {E : Fault → Prop} {h : Heap} {L : Ledger} {b l r : Block} {xs ys rs : List Block}

/-- The left block takes in the free block that follows it, whose header is dead from then on. Only that
header is written, the size of the left block, and links. -/
theorem absorb_within (K : h.Keeps L) (hL : L.blocks = xs ++ l :: r :: ys)
    (merge : r.Mergeable l.region) (hr : r ∈ L.free)
    (fits : l.size + (Header.length + r.size) < wordLimit) :
    Yields E (absorb l.addr r.addr) h fun _ h' =>
      Moved h (L.Rewired l r) (L.absorb xs l [r] ys) h' ∧ h'.log = l.absorbing r ++ h.log ∧
        Header.intact h'.memory r.addr = false := by
  have hl : l ∈ L.blocks := by simp [hL]
  have hr' : r ∈ L.blocks := by simp [hL]
  have nodup := K.nodup
  rw [hL, List.nodup_middle, List.nodup_cons, List.mem_append, not_or, List.mem_cons, not_or] at nodup
  obtain ⟨⟨l_xs, l_ne, l_ys⟩, _⟩ := nodup
  have same : ¬ Header.region h.memory l.addr ≠ Header.region h.memory r.addr := by
    rw [K.region_eq hl, K.region_eq hr', merge.1]
    simp
  have unused : ¬ Header.used h.memory r.addr = true := by
    rw [K.used_eq hr', merge.2]
    simp
  unfold absorb
  rw [yields_look_bind]
  dsimp only [id]
  rw [if_neg same, if_neg unused, yields_note_bind, yields_note_bind]
  rw [memory_logging, K.headers l hl, K.headers r hr']
  have M := ((Moved.refl K (L.Rewired l r)).logging (.mergingLeft l)).logging (.mergingRight r)
  refine M.bind_silent (silent_unlinkFree _) (unlinkFree_within M.keeps hr)
    (fun i hi => .inr (.inr (.inr hi))) fun _ h₁ M log => ?_
  have off : r ∉ (L.delist r).free := K.nodupFree.not_mem_erase
  have blocks : (L.delist r).blocks = (xs ++ [l]) ++ r :: ys := by
    simp [Ledger.delist, hL]
  have unlinked := (silent_unlink r.addr).yields (@unlink_within E _ _ _ _ _ M.keeps blocks off)
  refine unlinked.bind fun _ h₂ post => ?_
  obtain ⟨log₂, M₂, read⟩ := post
  replace log := log₂.trans log
  -- the mark of `r` is astray until it is taken off, last of all
  replace M := (M.but (· = r.addr)).trans (M₂.mono fun i hi => .inr (.inr (.inl hi)))
  have hl' : l ∈ ((L.delist r).withBlocks (xs ++ [l] ++ ys)).blocks := by simp
  have size_r : Header.size h₂.memory r.addr = r.size := congrArg Block.size read
  have joint := Word.add_eq_ok fits
  rw [yields_look_bind, size_r, yields_lift_bind (Word.add_eq_ok (by omega)), yields_look_bind,
    M.keeps.size_eq hl', yields_lift_bind joint, yields_write_bind, yields_write_bind, yields_note]
  have words : (l.size + (Header.length + r.size)) % wordSize = 0 := by
    have := (K.aligned l hl).size
    have := (K.aligned r hr').size
    unfold Header.length wordSize at *
    omega
  have M₃ := setSize_within M.keeps hl' fits words
  rw [← Block.joined_singleton] at M₃
  have amended : ((L.delist r).withBlocks (xs ++ [l] ++ ys)).amend l (l.joined [r]) =
      L.absorb xs l [r] ys := by
    unfold Ledger.amend Ledger.absorb
    rw [Ledger.withBlocks_blocks, List.append_assoc, List.singleton_append,
      map_swap_zipper l_xs l_ys, ← erase_eq_filter_singleton K.nodupFree]
    rfl
  rw [amended] at M₃
  replace M := M.trans ((M₃.mono fun i hi => .inr (.inl hi)).but (· = r.addr))
  replace log : (h₂.withMemory (Header.setSize h₂.memory l.addr
      (l.size + (Header.length + r.size)))).log = _ := log
  generalize h₂.withMemory _ = h₃ at M log ⊢
  have split : L.blocks = (xs ++ [l]) ++ r :: ys := by simp [hL]
  have settled := revoke_moved M (K.aligned r hr').addr
    (fun i covers => K.not_headers_of_removed split (by simp) covers) fun i hi => .inl hi
  have joined : Block.read (h₃.withMemory (Header.revoke h₃.memory r.addr)).memory l.addr =
      l.joined [r] := settled.keeps.headers (l.joined [r]) (by simp)
  rw [joined]
  exact ⟨settled.logging _, congrArg (Event.fresh (l.joined [r]) :: ·) log, Header.intact_revoke⟩

theorem absorb_yields (K : h.Keeps L) (hL : L.blocks = xs ++ l :: r :: ys)
    (merge : r.Mergeable l.region) (hr : r ∈ L.free)
    (fits : l.size + (Header.length + r.size) < wordLimit) :
    Yields E (absorb l.addr r.addr) h fun _ h' =>
      Moved h L.Headers (L.absorb xs l [r] ys) h' ∧ h'.log = l.absorbing r ++ h.log ∧
        Header.intact h'.memory r.addr = false := by
  refine (absorb_within K hL merge hr fits).mono fun _ h' post => ?_
  exact ⟨post.1.mono fun i hi => hi.headers K (by simp [hL]) (by simp [hL]), post.2⟩

/-! ### The two loops of a merge -/

/-- A run of free blocks that cannot be made longer is followed by a block in use, or by none. -/
theorem used_next (K : h.Keeps L) (hL : L.blocks = xs ++ b :: ys)
    (stop : ∀ y ∈ ys.head?, ¬ y.Mergeable b.region) {next : Nat}
    (e : Catalogue.nextInRegion h.memory b.addr = some next) :
    Header.used h.memory next = true := by
  rw [nextInRegion_eq K hL] at e
  obtain ⟨y, hy, rfl⟩ := Option.map_eq_some_iff.1 e
  obtain ⟨first, same⟩ := Option.filter_eq_some_iff.1 hy
  rw [K.used_eq (by simp [hL, List.mem_of_mem_head? first])]
  by_contra free
  exact stop y first ⟨by simpa using same, by simpa using free⟩

/-- It follows a block in use, or none. -/
theorem used_prev (K : h.Keeps L) (hL : L.blocks = xs ++ b :: ys)
    (stop : ∀ x ∈ xs.getLast?, ¬ x.Mergeable b.region) {prev : Nat}
    (e : Catalogue.prevInRegion h.memory b.addr = some prev) :
    Header.used h.memory prev = true := by
  rw [prevInRegion_eq K hL] at e
  obtain ⟨x, hx, rfl⟩ := Option.map_eq_some_iff.1 e
  obtain ⟨last, same⟩ := Option.filter_eq_some_iff.1 hx
  rw [K.used_eq (by simp [hL, List.mem_of_getLast? last])]
  by_contra free
  exact stop x last ⟨by simpa using same, by simpa using free⟩

/-- A part of a run that reaches back to its first block starts with that block. -/
theorem exists_eq_cons {ls ms : List Block} (run : ls ++ b :: ms = l :: rs) :
    ∃ ws, ls ++ [b] = l :: ws := by
  cases ls with
  | nil => exact ⟨[], by simp at run; simp [run]⟩
  | cons x ls => exact ⟨ls ++ [b], by simp at run; simp [run]⟩

/-- Going left over free blocks ends at the first one of them. -/
theorem leftmostFree_eq {ls : List Block} {n : Nat} (K : h.Keeps L)
    (hL : L.blocks = xs ++ (ls ++ b :: ys)) (run : ls ++ [b] = l :: rs)
    (merge : ∀ x ∈ ls, x.Mergeable b.region) (stop : ∀ x ∈ xs.getLast?, ¬ x.Mergeable b.region)
    (steps : ls.length ≤ n) : Catalogue.leftmostFree h.memory n b.addr = l.addr := by
  induction ls using List.reverseRecOn generalizing b ys rs n with
  | nil =>
    obtain ⟨rfl, rfl⟩ : b = l ∧ [] = rs := by simpa using run
    cases n with
    | zero => rfl
    | succ n =>
      unfold Catalogue.leftmostFree
      cases e : Catalogue.prevInRegion h.memory b.addr with
      | none => rfl
      | some prev =>
        dsimp only
        rw [if_pos (used_prev K hL stop e)]
  | append_singleton ls c ih =>
    obtain ⟨region, unused⟩ := merge c (by simp)
    have hL' : L.blocks = xs ++ (ls ++ c :: b :: ys) := by simp [hL]
    have before : L.blocks = (xs ++ ls ++ [c]) ++ b :: ys := by simp [hL]
    have longer : ls ++ c :: [b] = l :: rs := by simpa using run
    obtain ⟨rs', run'⟩ := exists_eq_cons longer
    rw [List.length_append, List.length_singleton] at steps
    obtain ⟨n, rfl⟩ : ∃ k, n = k + 1 := ⟨n - 1, by omega⟩
    have free : ¬ Header.used h.memory c.addr = true := by
      rw [K.used_eq (by simp [hL']), unused]
      simp
    unfold Catalogue.leftmostFree
    rw [prevInRegion_eq_some K before region]
    dsimp only
    rw [if_neg free]
    apply ih hL' run'
    · intro x hx
      rw [region]
      exact merge x (by simp [hx])
    · intro x hx
      rw [region]
      exact stop x hx
    · omega

/-- Nothing is absorbed where no free block follows. -/
theorem absorbFree_of_stop {n : Nat} (K : h.Keeps L) (hL : L.blocks = xs ++ l :: ys)
    (stop : ∀ y ∈ ys.head?, ¬ y.Mergeable l.region) :
    Yields E (absorbFree l.addr n) h fun _ h' => h' = h := by
  cases n with
  | zero => rfl
  | succ n =>
    unfold absorbFree
    rw [yields_look_bind, id]
    cases e : Catalogue.nextInRegion h.memory l.addr with
    | none => rfl
    | some next =>
      dsimp only
      rw [if_pos (used_next K hL stop e)]
      rfl

/-- Absorbing what follows takes in the whole run of free blocks. -/
theorem absorbFree_yields {n : Nat} (K : h.Keeps L) (hL : L.blocks = xs ++ l :: (rs ++ ys))
    (merge : ∀ r ∈ rs, r.Mergeable l.region) (free : ∀ r ∈ rs, r ∈ L.free)
    (stop : ∀ y ∈ ys.head?, ¬ y.Mergeable l.region) (steps : rs.length ≤ n)
    (fits : (l.joined rs).size < wordLimit) :
    Yields E (absorbFree l.addr n) h fun _ h' =>
      Moved h L.Headers (L.absorb xs l rs ys) h' ∧ h'.log = l.absorbingAll rs ++ h.log ∧
        ∀ r ∈ rs, Header.intact h'.memory r.addr = false := by
  induction rs generalizing l L h n with
  | nil =>
    rw [List.nil_append] at hL
    rw [Ledger.absorb_nil hL]
    refine (absorbFree_of_stop K hL stop).mono fun _ h' same => ?_
    rw [same]
    exact ⟨Moved.refl K _, rfl, by simp⟩
  | cons r rs ih =>
    obtain ⟨n, rfl⟩ : ∃ k, n = k + 1 := ⟨n - 1, by simp at steps; omega⟩
    have mr := merge r (by simp)
    have unused : ¬ Header.used h.memory r.addr = true := by
      rw [K.used_eq (by simp [hL]), mr.2]
      simp
    unfold absorbFree
    rw [yields_look_bind, id, nextInRegion_eq_some K hL mr.1]
    dsimp only
    rw [if_neg unused]
    have step := @absorb_yields E h L l r xs (rs ++ ys) K hL mr (free r (by simp))
      (Block.size_joined_lt fits)
    have listed := Ledger.listed_absorb K hL free
    refine step.bind fun _ h₁ post => ?_
    obtain ⟨M, log, dead⟩ := post
    have rest := @ih h₁ _ (l.joined [r]) n M.keeps rfl (fun x hx => merge x (by simp [hx])) listed
      stop (by simp at steps; omega) (by rwa [← Block.joined_cons])
    refine rest.mono fun _ h' post => ?_
    obtain ⟨M', log', rest_dead⟩ := post
    rw [Ledger.absorb_cons K hL] at M'
    refine ⟨M.trans (M'.mono fun i hi => hi.of_joined hL rfl (by simp)), ?_, ?_⟩
    · rw [log', log, Block.absorbingAll, List.append_assoc]
    · intro x hx
      rcases List.mem_cons.1 hx with rfl | hx
      · -- nothing is written where the first one stood, once it is off the catalogue
        rw [← dead]
        refine M'.intact_eq fun i hi hi' => ?_
        exact K.not_headers_of_absorbed hL (List.mem_singleton_self x)
          ⟨hi, by unfold wordSize at hi'; unfold Header.length; omega⟩
      · exact rest_dead x hx

/-- The merge of a run of free blocks starts from the leftmost one of them. -/
theorem leftmostFree_of_mem (K : h.Keeps L) (hL : L.blocks = xs ++ l :: (rs ++ ys))
    (hb : b ∈ l :: rs) (merge : ∀ x ∈ l :: rs, x.Mergeable l.region)
    (start : ∀ x ∈ xs.getLast?, ¬ x.Mergeable l.region) :
    Catalogue.leftmostFree h.memory h.catalogue.length b.addr = l.addr := by
  obtain ⟨ls, ws, run⟩ := List.append_of_mem hb
  have split : L.blocks = xs ++ (ls ++ b :: (ws ++ ys)) := by
    rw [hL, ← List.cons_append, run]
    simp
  obtain ⟨rs', run'⟩ := exists_eq_cons run.symm
  have region : b.region = l.region := (merge b hb).1
  apply leftmostFree_eq K split run'
  · intro x hx
    rw [region]
    exact merge x (by rw [run]; simp [hx])
  · intro x hx
    rw [region]
    exact start x hx
  · rw [K.catalogue_length, split]
    simp
    omega

/-- The run of free blocks around a free block becomes one free block. -/
theorem coalesce_yields (K : h.Keeps L) (hL : L.blocks = xs ++ l :: (rs ++ ys)) (hb : b ∈ l :: rs)
    (merge : ∀ x ∈ l :: rs, x.Mergeable l.region) (free : ∀ x ∈ l :: rs, x ∈ L.free)
    (start : ∀ x ∈ xs.getLast?, ¬ x.Mergeable l.region)
    (stop : ∀ y ∈ ys.head?, ¬ y.Mergeable l.region) (fits : (l.joined rs).size < wordLimit) :
    Yields E (coalesce b.addr) h fun left h' => left = l.addr ∧
      Moved h L.Headers (L.merge xs l rs ys) h' ∧ h'.log = l.absorbingAll rs ++ h.log ∧
        ∀ r ∈ rs, Header.intact h'.memory r.addr = false := by
  have hl : l ∈ L.blocks := by simp [hL]
  unfold coalesce
  rw [yields_get_bind, leftmostFree_of_mem K hL hb merge start]
  have absorbed := @absorbFree_yields E h L l xs ys rs h.catalogue.length K hL
    (fun r hr => merge r (by simp [hr])) (fun r hr => free r (by simp [hr])) stop
    (by rw [K.catalogue_length, hL]; simp; omega) fits
  refine absorbed.bind fun _ h₁ post => ?_
  obtain ⟨M, log, dead⟩ := post
  have fresh : ∀ x ∈ L.free, x = l.joined rs → x = l :=
    fun x hx => K.eq_of_joined hl (K.listed x hx)
  have listed := Ledger.joined_mem_absorb K hL (free l (by simp))
  have off := erase_map_swap M.keeps.nodupFree fresh
  -- the two steps that are left write only headers of the blocks that are left
  have N := Moved.refl M.keeps (L.absorb xs l rs ys).Headers
  have unlinked := @unlinkFree_yields E h₁ _ (l.joined rs) M.keeps listed
  refine N.bind_silent (silent_unlinkFree _) unlinked (fun i hi => hi) fun _ h₂ N log₂ => ?_
  have linked := @linkFree_yields E h₂ _ (l.joined rs) N.keeps (by simp [Ledger.delist])
    M.keeps.nodupFree.not_mem_erase
  refine N.bind_silent (silent_linkFree _) linked (fun i hi => hi) fun _ h₃ N log₃ => ?_
  rw [yields_pure]
  refine ⟨rfl, ?_, (log₃.trans log₂).trans log, ?_⟩
  · unfold Ledger.merge
    rw [← off]
    exact M.trans (N.mono fun i hi => hi.of_joined hL rfl (by simp))
  · intro x hx
    rw [← dead x hx]
    refine N.intact_eq fun i hi hi' => ?_
    exact K.not_headers_of_absorbed hL hx
      ⟨hi, by unfold wordSize at hi'; unfold Header.length; omega⟩

end Heap

end RegionHeap
