import RegionHeap.Proofs.Tiling

/-!
# Merging free neighbours

What giving blocks back does to the blocks of a region, without regard to the order in which blocks are
merged: the blocks given back are free, and each run of free neighbours becomes one block.

* `fused` — the blocks of a region with all free neighbours merged.
* `fused_run` — one run of free blocks between blocks in use.
* `fused_map_fused` — merging early makes no difference to merging late.
* `Region.freed` — a region after some of its blocks were given back.
* `Region.freed_freed` — giving back some and then others gives back all of them.
* `Region.giveBack` — all regions after a block was given back, and those among them that are idle.
-/

set_option autoImplicit false

namespace RegionHeap

/-! ### Runs of free blocks -/

/-- The block in front of others: when it and the first of them are free, they are one. -/
def Block.meld (b : Block) : List Block → List Block
  | [] => [b]
  | c :: cs => if b.used = false ∧ c.used = false then b.joined [c] :: cs else b :: c :: cs

/-- The blocks with each run of free neighbours as one block. -/
def fused : List Block → List Block
  | [] => []
  | b :: bs => b.meld (fused bs)

section Fused

variable {b c l : Block} {bs cs ns ws zs : List Block}

theorem Block.meld_of_used (used : b.used = true) (cs : List Block) : b.meld cs = b :: cs := by
  cases cs with
  | nil => rfl
  | cons c cs => simp [meld, used]

theorem Block.meld_of_head (used : ∀ c ∈ cs.head?, c.used = true) : b.meld cs = b :: cs := by
  cases cs with
  | nil => rfl
  | cons c cs => simp [meld, used c rfl]

theorem Block.meld_of_free (hb : b.used = false) (hc : c.used = false) (cs : List Block) :
    b.meld (c :: cs) = b.joined [c] :: cs :=
  if_pos ⟨hb, hc⟩

/-- A block that takes in one that has taken in others has taken in all of them. -/
theorem Block.joined_joined (b c : Block) (cs : List Block) :
    b.joined [c.joined cs] = b.joined (c :: cs) := by
  unfold joined withSize extent
  simp [Nat.add_assoc]

/-- Of three free blocks in a row, it makes no difference which two are merged first. -/
theorem Block.meld_meld (hb : b.used = false) (hc : c.used = false) (cs : List Block) :
    b.meld (c.meld cs) = (b.joined [c]).meld cs := by
  cases cs with
  | nil => exact Block.meld_of_free hb hc []
  | cons d ds =>
    cases hd : d.used with
    | true =>
      have head : ∀ x ∈ (d :: ds).head?, x.used = true := by
        rintro x ⟨⟩
        exact hd
      rw [Block.meld_of_head head, Block.meld_of_head head, Block.meld_of_free hb hc]
    | false =>
      have joined : (b.joined [c]).used = false := hb
      rw [Block.meld_of_free hc hd, Block.meld_of_free joined hd,
        Block.meld_of_free (c := c.joined [d]) hb hc, Block.joined_joined, Block.joined_cons]

/-- Where no two neighbours are free there is nothing to merge. -/
theorem fused_eq_self (h : bs.IsChain Block.Separate) : fused bs = bs := by
  induction bs with
  | nil => rfl
  | cons b bs ih =>
    rw [fused, ih h.tail]
    cases bs with
    | nil => rfl
    | cons c cs =>
      rcases (List.isChain_cons_cons.1 h).1 with used | used
      · exact Block.meld_of_used used _
      · apply Block.meld_of_head
        rintro x ⟨⟩
        exact used

/-- No two neighbours are both free then. -/
theorem fused_separate (bs : List Block) : (fused bs).IsChain Block.Separate := by
  have meld : ∀ b cs, cs.IsChain Block.Separate → (Block.meld b cs).IsChain Block.Separate := by
    intro b cs chain
    cases cs with
    | nil => exact List.isChain_singleton b
    | cons c cs =>
      by_cases both : b.used = false ∧ c.used = false
      · rw [Block.meld_of_free both.1 both.2]
        cases cs with
        | nil => exact List.isChain_singleton _
        | cons d ds =>
          rw [List.isChain_cons_cons] at chain ⊢
          -- the free block at the front had a block in use after it
          have used : d.used = true := chain.1.resolve_left (by simp [both.2])
          exact ⟨.inr used, chain.2⟩
      · rw [Block.meld, if_neg both, List.isChain_cons_cons]
        refine ⟨?_, chain⟩
        unfold Block.Separate
        cases hb : b.used <;> cases hc : c.used <;> simp_all
  induction bs with
  | nil => exact List.isChain_nil
  | cons b bs ih => exact meld b _ ih

/-- What stands before a block in use does not matter after it. -/
theorem fused_append (h : ws.IsChain Block.Separate) (last : ∀ x ∈ ws.getLast?, x.used = true)
    (bs : List Block) : fused (ws ++ bs) = ws ++ fused bs := by
  induction ws with
  | nil => rfl
  | cons w ws ih =>
    rw [List.cons_append, fused]
    cases ws with
    | nil => exact Block.meld_of_used (last w rfl) _
    | cons v vs =>
      rw [ih h.tail (by rwa [List.getLast?_cons_cons] at last)]
      rcases (List.isChain_cons_cons.1 h).1 with used | used
      · exact Block.meld_of_used used _
      · apply Block.meld_of_head
        rintro x ⟨⟩
        exact used

/-- A run of free blocks up to a block in use is one block. -/
theorem fused_run (free : ∀ x ∈ l :: ns, x.used = false) (h : zs.IsChain Block.Separate)
    (stop : ∀ x ∈ zs.head?, x.used = true) : fused (l :: (ns ++ zs)) = l.joined ns :: zs := by
  induction ns generalizing l with
  | nil => rw [List.nil_append, fused, fused_eq_self h, Block.meld_of_head stop, Block.joined_nil]
  | cons n ns ih =>
    have n_free : n.used = false := free n (by simp)
    have rest := @ih n fun x hx => free x (List.mem_cons_of_mem l hx)
    rw [fused, List.cons_append, rest, Block.meld_of_free (c := n.joined ns) (free l (by simp)) n_free,
      Block.joined_joined]

/-- Blocks in use stay as they are. -/
theorem filter_used_fused (bs : List Block) : (fused bs).filter Block.used = bs.filter Block.used := by
  induction bs with
  | nil => rfl
  | cons b bs ih =>
    have meld : (b.meld (fused bs)).filter Block.used = (b :: fused bs).filter Block.used := by
      cases fused bs with
      | nil => rfl
      | cons c cs =>
        by_cases both : b.used = false ∧ c.used = false
        · rw [Block.meld_of_free both.1 both.2]
          have joined : (b.joined [c]).used = false := both.1
          simp [both.1, both.2, joined]
        · rw [Block.meld, if_neg both]
    rw [fused, meld, List.filter_cons, List.filter_cons, ih]

/-- A change that leaves free blocks as they are sees no difference between merging before it and
merging after it. -/
theorem fused_map_fused {f : Block → Block} (fixed : ∀ x : Block, x.used = false → f x = x)
    (bs : List Block) : fused ((fused bs).map f) = fused (bs.map f) := by
  have meld : ∀ b cs, fused ((b.meld cs).map f) = (f b).meld (fused (cs.map f)) := by
    intro b cs
    cases cs with
    | nil => rfl
    | cons c cs =>
      by_cases both : b.used = false ∧ c.used = false
      · have joined : (b.joined [c]).used = false := both.1
        rw [Block.meld_of_free both.1 both.2, List.map_cons, List.map_cons, fused, fused,
          fixed _ joined, fixed b both.1, fixed c both.2, Block.meld_meld both.1 both.2]
      · rw [Block.meld, if_neg both]
        rfl
  induction bs with
  | nil => rfl
  | cons b bs ih => rw [fused, meld, ih, List.map_cons, fused]

end Fused

/-! ### Blocks given back -/

/-- The block after those behind the pointers `ps` were given back. -/
def Block.freed (ps : List Nat) (b : Block) : Block :=
  if b.payload ∈ ps then b.withUsed false else b

/-- The region after the blocks behind the pointers `ps` were given back. -/
def Region.freed (ps : List Nat) (r : Region) : Region :=
  ⟨r.span, fused (r.blocks.map (Block.freed ps))⟩

/-- No block of the region is in use. -/
def Region.idle (r : Region) : Bool :=
  r.blocks.all fun b => !b.used

/-- Some block of the region is in use, but none once those behind the pointers `ps` were given back. -/
def Region.emptied (ps : List Nat) (r : Region) : Bool :=
  !r.idle && r.blocks.all fun b => !b.used || decide (b.payload ∈ ps)

section Freed

variable {b : Block} {r : Region} {ps qs : List Nat}

theorem Block.withUsed_false (free : b.used = false) : b.withUsed false = b := by
  unfold withUsed
  rw [← free]

theorem Block.freed_of_free (free : b.used = false) : b.freed ps = b := by
  unfold freed
  rw [Block.withUsed_false free, ite_self]

theorem Block.freed_of_notMem (h : b.payload ∉ ps) : b.freed ps = b :=
  if_neg h

theorem Block.used_freed : (b.freed ps).used = (b.used && decide (b.payload ∉ ps)) := by
  unfold freed
  split <;> simp [*]

theorem Block.freed_freed : (b.freed ps).freed qs = b.freed (ps ++ qs) := by
  by_cases hp : b.payload ∈ ps
  · have free : (b.freed ps).used = false := by simp [Block.used_freed, hp]
    rw [Block.freed_of_free free]
    unfold freed
    rw [if_pos hp, if_pos (List.mem_append_left _ hp)]
  · unfold freed
    simp [hp]

/-- Giving back some blocks and then others gives back all of them. -/
theorem Region.freed_freed : (r.freed ps).freed qs = r.freed (ps ++ qs) := by
  unfold Region.freed
  dsimp only
  rw [fused_map_fused fun x free => Block.freed_of_free free, List.map_map]
  congr 2
  apply List.map_congr_left
  intro b _
  exact Block.freed_freed

theorem Region.freed_merged (ps : List Nat) (r : Region) : (r.freed ps).Merged :=
  fused_separate _

/-- The order in which blocks are given back makes no difference to their region. -/
theorem Region.freed_perm (perm : ps.Perm qs) : r.freed ps = r.freed qs := by
  have same : Block.freed ps = Block.freed qs := by
    funext b
    simp only [Block.freed, perm.mem_iff]
  unfold Region.freed
  rw [same]

/-- A region with nothing to be given back stays as it is. -/
theorem Region.freed_eq_self (merged : r.Merged)
    (other : ∀ b ∈ r.blocks, b.payload ∈ ps → b.used = false) : r.freed ps = r := by
  have same : r.blocks.map (Block.freed ps) = r.blocks := by
    refine (List.map_congr_left ?_).trans (List.map_id _)
    intro b hb
    by_cases mem : b.payload ∈ ps
    · exact Block.freed_of_free (other b hb mem)
    · exact Block.freed_of_notMem mem
  unfold Region.freed
  rw [same, fused_eq_self merged]

/-- The blocks in use of a region are those that were not given back. -/
theorem Region.filter_used_freed : (r.freed ps).blocks.filter Block.used =
    (r.blocks.filter Block.used).filter fun b => b.payload ∉ ps := by
  unfold Region.freed
  rw [filter_used_fused, List.filter_map, List.filter_filter]
  have used : r.blocks.filter (Block.used ∘ Block.freed ps) =
      r.blocks.filter fun b => decide (b.payload ∉ ps) && b.used := by
    apply List.filter_congr
    intro b _
    rw [Function.comp_apply, Block.used_freed, Bool.and_comm]
  rw [used]
  refine (List.map_congr_left ?_).trans (List.map_id _)
  intro b hb
  apply Block.freed_of_notMem
  have := (List.mem_filter.1 hb).2
  rw [Bool.and_eq_true, decide_eq_true_eq] at this
  exact this.1

theorem Region.idle_iff : r.idle = true ↔ r.blocks.filter Block.used = [] := by
  unfold Region.idle
  rw [List.filter_eq_nil_iff, List.all_eq_true]
  simp

theorem Region.idle_freed_iff : (r.freed ps).idle = true ↔
    ∀ b ∈ r.blocks, b.used = true → b.payload ∈ ps := by
  rw [Region.idle_iff, Region.filter_used_freed, List.filter_eq_nil_iff]
  simp [List.mem_filter]

/-- A region is emptied when it is idle afterwards and was not before. -/
theorem Region.emptied_eq : r.emptied ps = (!r.idle && (r.freed ps).idle) := by
  have : (r.blocks.all fun b => !b.used || decide (b.payload ∈ ps)) = (r.freed ps).idle := by
    rw [Bool.eq_iff_iff, Region.idle_freed_iff, List.all_eq_true]
    apply forall_congr'
    intro b
    cases b.used <;> simp
  unfold Region.emptied
  rw [this]

end Freed

/-- A block of a region is given back: with the free blocks around it, it becomes one. -/
theorem Region.freed_of_run {span : Span} {b l : Block} {ws ls ms ns zs : List Block}
    (merged : Region.Merged ⟨span, ws ++ ((ls ++ b :: ms) ++ zs)⟩)
    (other : ∀ x ∈ ws ++ (ls ++ (ms ++ zs)), x.payload ≠ b.payload)
    (run : ls ++ b.withUsed false :: ms = l :: ns) (free : ∀ x ∈ l :: ns, x.used = false)
    (before : ∀ x ∈ ws.getLast?, x.used = true) (after : ∀ x ∈ zs.head?, x.used = true) :
    Region.freed [b.payload] ⟨span, ws ++ ((ls ++ b :: ms) ++ zs)⟩ =
      ⟨span, ws ++ l.joined ns :: zs⟩ := by
  have fixed : ∀ xs : List Block, (∀ x ∈ xs, x ∈ ws ++ (ls ++ (ms ++ zs))) →
      xs.map (Block.freed [b.payload]) = xs := by
    intro xs sub
    refine (List.map_congr_left ?_).trans (List.map_id _)
    intro x hx
    apply Block.freed_of_notMem
    rw [List.mem_singleton]
    exact other x (sub x hx)
  have given : b.freed [b.payload] = b.withUsed false := if_pos (List.mem_singleton_self _)
  have chain : (ws ++ ((ls ++ b :: ms) ++ zs)).IsChain Block.Separate := merged
  rw [List.isChain_append, List.isChain_append] at chain
  unfold Region.freed
  simp only [List.map_append, List.map_cons, given]
  rw [fixed ws fun x hx => by simp [hx], fixed ls fun x hx => by simp [hx],
    fixed ms fun x hx => by simp [hx], fixed zs fun x hx => by simp [hx], run,
    List.cons_append, fused_append chain.1 before, fused_run free chain.2.1.2.1 after]

/-! ### Regions that are kept -/

/-- The regions after the block behind the pointer `p` was given back: the one that this empties goes
if there are more than `retained`. -/
def Region.giveBack (retained p : Nat) (rs : List Region) : List Region :=
  (if retained < rs.length then rs.filter fun r => !r.emptied [p] else rs).map (Region.freed [p])

section GiveBack

variable {retained p : Nat} {r : Region} {rs rs₁ rs₂ : List Region}

/-- Nothing of the region is behind the pointer, unless it is free. -/
theorem Region.map_freed_eq_self (merged : ∀ u ∈ rs, u.Merged)
    (other : ∀ u ∈ rs, ∀ b ∈ u.blocks, b.payload = p → b.used = false) :
    rs.map (Region.freed [p]) = rs := by
  refine (List.map_congr_left ?_).trans (List.map_id _)
  intro u hu
  exact Region.freed_eq_self (merged u hu) fun b hb e => other u hu b hb (List.mem_singleton.1 e)

theorem Region.not_emptied (other : ∀ b ∈ r.blocks, b.payload = p → b.used = false) :
    r.emptied [p] = false := by
  rw [Region.emptied_eq, Bool.and_eq_false_imp]
  intro busy
  rw [Bool.not_eq_true', ← Bool.not_eq_true, Region.idle_iff] at busy
  rw [← Bool.not_eq_true, Region.idle_freed_iff]
  intro all
  apply busy
  rw [List.filter_eq_nil_iff]
  intro b hb used
  have := other b hb (List.mem_singleton.1 (all b hb used))
  rw [used] at this
  cases this

/-- Only the region changes in which the block is. -/
theorem Region.giveBack_eq (merged : ∀ u ∈ rs₁ ++ rs₂, u.Merged)
    (other : ∀ u ∈ rs₁ ++ rs₂, ∀ b ∈ u.blocks, b.payload = p → b.used = false) :
    Region.giveBack retained p (rs₁ ++ r :: rs₂) =
      if retained < (rs₁ ++ r :: rs₂).length ∧ r.emptied [p] = true then rs₁ ++ rs₂
      else rs₁ ++ r.freed [p] :: rs₂ := by
  have left := fun u hu => @Region.not_emptied p u (other u (List.mem_append_left rs₂ hu))
  have right := fun u hu => @Region.not_emptied p u (other u (List.mem_append_right rs₁ hu))
  have same := Region.map_freed_eq_self merged other
  have changed : (rs₁ ++ r :: rs₂).map (Region.freed [p]) = rs₁ ++ r.freed [p] :: rs₂ := by
    rw [List.map_append] at same
    obtain ⟨same₁, same₂⟩ := List.append_inj same (List.length_map _)
    rw [List.map_append, List.map_cons, same₁, same₂]
  have kept₁ : rs₁.filter (fun u => !u.emptied [p]) = rs₁ :=
    List.filter_eq_self.2 fun u hu => by simp [left u hu]
  have kept₂ : rs₂.filter (fun u => !u.emptied [p]) = rs₂ :=
    List.filter_eq_self.2 fun u hu => by simp [right u hu]
  unfold Region.giveBack
  by_cases many : retained < (rs₁ ++ r :: rs₂).length
  · rw [if_pos many, List.filter_append]
    cases e : r.emptied [p] with
    | true =>
      rw [if_pos ⟨many, rfl⟩, List.filter_cons_of_neg (by simp [e]), kept₁, kept₂, same]
    | false =>
      rw [if_neg (by simp), List.filter_cons_of_pos (by simp [e]), kept₁, kept₂, changed]
  · rw [if_neg many, if_neg (fun h => many h.1), changed]

/-- **Few regions are idle.** Giving a block back leaves no more idle regions than are kept. -/
theorem Region.countP_idle_giveBack (few : rs.countP Region.idle ≤ retained) :
    (Region.giveBack retained p rs).countP Region.idle ≤ retained := by
  unfold Region.giveBack
  rw [List.countP_map]
  by_cases many : retained < rs.length
  · rw [if_pos many, List.countP_filter]
    refine (List.countP_mono_left ?_).trans few
    intro r _ idle
    -- a region that is idle and was not emptied had been idle before
    rw [Bool.and_eq_true, Function.comp_apply, Bool.not_eq_true', Region.emptied_eq] at idle
    simpa [idle.1] using idle.2
  · rw [if_neg many]
    exact List.countP_le_length.trans (Nat.le_of_not_lt many)

end GiveBack

end RegionHeap
