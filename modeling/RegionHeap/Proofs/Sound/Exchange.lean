import RegionHeap.Proofs.Sound.Edits
import RegionHeap.Proofs.Sound.Reports

/-!
# What calls exchange

A call on a sound heap takes a block back, hands one out, maps a span, gives one back, or does some of
these. `Heap.Passed` says what it did, that the heap is sound again, and that every other block that is
handed out is as it was, its payload included.

* `Passed.andThen`, `Passed.writing` — putting the parts of a call together.
* `exists_run` — the free blocks on both sides of a block that is handed out.
* `giveBack_moved` — what giving a block back makes of the ledger, and what it records.
* `merge_passed`, `shut_passed`, `giveBack_passed` — what it exchanges.
-/

set_option autoImplicit false

namespace RegionHeap

/-- What a call took and gave: a block that was given back, a block that was handed out, a span that
was mapped, and a span that was unmapped after that. -/
structure Exchange where
  taken : Option Block := none
  given : Option Block := none
  mapped : Option Span := none
  unmapped : Option Span := none

/-- The history of mappings after an exchange, latest first. -/
def Exchange.history (x : Exchange) (before : List Transfer) : List Transfer :=
  x.unmapped.toList.map .unmapped ++ (x.mapped.toList.map .mapped ++ before)

/-- On the sound heap `h₁`, one free block is the region on the span `s`, and giving that region back
leaves `h'`. -/
def Heap.Shuts (h₁ h' : Heap) (s : Span) : Prop :=
  ∃ rs unused b, h₁.Sound rs unused ∧ ⟨s, [b]⟩ ∈ rs ∧ b.used = false ∧
    closeRegion b.addr h₁ = .ok () h'

/-- A call took the heap `h` with the ledger `L` to the sound heap `h'` with the ledger `L'`. But for
the exchange `x`, the blocks that are handed out are as they were, their payloads included. As long as no
block has the mark as its number, no mark goes astray. -/
structure Heap.Passed (h : Heap) (L : Ledger) (x : Exchange) (h' : Heap) (L' : Ledger) : Prop where
  keeps : h'.Keeps L'
  sound : ∃ rs, L'.Sound rs
  settings : L'.settings = L.settings
  place : L'.place = L.place
  history : L'.transfers = x.history L.transfers
  used : ∃ rest, L.used.Perm (x.taken.toList ++ rest) ∧ L'.used.Perm (x.given.toList ++ rest)
  same : ∀ b ∈ L.used, b ∉ x.taken → ∀ i, b.payload ≤ i → i < b.finish →
    h'.memory.byte i = h.memory.byte i
  shut : ∀ s ∈ x.unmapped, ∃ h₁ : Heap, h₁.Shuts h' s
  idle : L.idle ≤ L.settings.retained → L'.idle ≤ L.settings.retained
  numbers : h.nextId ≤ h'.nextId
  tidy : h'.nextId ≤ Header.mark → h.Tidy → h'.Tidy
  modest : L.settings.minBlock ≤ maxPayload → ∀ s ∈ x.mapped, s.length ≤ maxSpan

theorem Ledger.mem_used {L : Ledger} {b : Block} : b ∈ L.used ↔ b ∈ L.blocks ∧ b.used = true := by
  unfold used
  exact List.mem_filter

namespace Heap.Passed

variable {h h₁ h' : Heap} {L L₁ L' : Ledger} {x : Exchange} {b c : Block}

/-- Nothing happened, as far as blocks are concerned. -/
theorem of_moved {rs : List Region} {W : Nat → Prop} (S : L.Sound rs) (M : h.Moved W L h')
    (quiet : ∀ b ∈ L.used, ∀ i, b.payload ≤ i → i < b.finish → ¬ W i) : Passed h L {} h' L where
  keeps := M.keeps
  sound := ⟨rs, S⟩
  settings := rfl
  place := rfl
  history := rfl
  used := ⟨L.used, .refl _, .refl _⟩
  same b hb _ i hi hi' := M.same i (quiet b hb i hi hi')
  shut := by simp
  idle few := few
  numbers := M.numbers
  tidy := M.tidy
  modest _ := by simp

/-- Blocks that were not taken back are still handed out. -/
theorem survives (P : Passed h L x h' L') (hb : b ∈ L.used) (kept : b ∉ x.taken) :
    b ∈ L'.used := by
  obtain ⟨rest, old, new⟩ := P.used
  have mem := old.mem_iff.1 hb
  rw [List.mem_append, Option.mem_toList] at mem
  exact new.mem_iff.2 (List.mem_append_right _ (mem.resolve_left kept))

theorem given_used (P : Passed h L x h' L') (hb : b ∈ x.given) : b ∈ L'.used := by
  obtain ⟨rest, _, new⟩ := P.used
  exact new.mem_iff.2 (List.mem_append_left _ (Option.mem_toList.2 hb))

/-- A block that was handed out besides the others is none of them. -/
theorem given_ne {s : Option Span} (P : Passed h L { given := some c, mapped := s } h' L')
    (hb : b ∈ L.used) : b ≠ c := by
  obtain ⟨rest, old, new⟩ := P.used
  obtain ⟨rs, S⟩ := P.sound
  have nodup : L'.used.Nodup := S.nodup.filter _
  rintro rfl
  exact (List.nodup_cons.1 (new.nodup_iff.1 nodup)).1 (old.mem_iff.1 hb)

/-- A call that hands a block out, and then one that takes another one back. -/
theorem andThen {g : Option Block} {t : Block} {m u : Option Span}
    (P : Passed h L { given := g, mapped := m } h₁ L₁)
    (P' : Passed h₁ L₁ { taken := some t, unmapped := u } h' L') (ht : t ∈ L.used) :
    Passed h L { taken := some t, given := g, mapped := m, unmapped := u } h' L' where
  keeps := P'.keeps
  sound := P'.sound
  settings := P'.settings.trans P.settings
  place := P'.place.trans P.place
  history := by
    rw [P'.history, P.history]
    rfl
  used := by
    obtain ⟨r₁, old, mid⟩ := P.used
    obtain ⟨r₂, mid', new⟩ := P'.used
    have split := List.perm_cons_erase ht
    have first : (t :: (g.toList ++ L.used.erase t)).Perm (t :: r₂) :=
      calc (t :: (g.toList ++ L.used.erase t)).Perm (g.toList ++ t :: L.used.erase t) :=
            List.perm_middle.symm
        List.Perm _ (g.toList ++ r₁) := (split.symm.trans old).append_left _
        List.Perm _ _ := mid.symm.trans mid'
    exact ⟨L.used.erase t, split, new.trans first.cons_inv.symm⟩
  same b hb kept i hi hi' := by
    have hb' : b ∈ L₁.used := P.survives hb (by simp)
    rw [P'.same b hb' kept i hi hi', P.same b hb (by simp) i hi hi']
  shut := P'.shut
  idle few := by
    have later := P'.idle
    rw [P.settings] at later
    exact later (P.idle few)
  numbers := P.numbers.trans P'.numbers
  tidy numbers clean := P'.tidy numbers (P.tidy (P'.numbers.trans numbers) clean)
  modest := P.modest

/-- Writing to the payload of the block that was handed out, without bringing a mark there. -/
theorem writing {m : Memory} {s : Option Span}
    (P : Passed h L { given := some b, mapped := s } h' L')
    (write : Memory.SameBut (fun i => b.payload ≤ i ∧ i < b.finish) h'.memory m)
    (quiet : h'.Tidy → h'.memory.QuietBut (fun _ => False) m) :
    Passed h L { given := some b, mapped := s } (h'.withMemory m) L' := by
  obtain ⟨rs, S⟩ := P.sound
  have hb : b ∈ L'.used := P.given_used rfl
  have hb' := (Ledger.mem_used.1 hb).1
  have between : ∀ i, b.payload ≤ i ∧ i < b.finish → ¬ L'.Headers i :=
    fun i hi => S.payload_clear hb' hi.1 hi.2
  refine ⟨P.keeps.of_bytes fun i hi => write i fun inside => between i inside hi, ⟨rs, S⟩, P.settings,
    P.place, P.history, P.used, ?_, by simp, P.idle, P.numbers, ?_, P.modest⟩
  · intro c hc kept i hi hi'
    rw [← P.same c hc kept i hi hi']
    apply write
    rintro ⟨lo, up⟩
    have hc' := (Ledger.mem_used.1 (P.survives hc kept)).1
    have := S.payload_apart hc' hb' (P.given_ne hc)
    omega
  · intro numbers clean
    have clean := P.tidy numbers clean
    exact (write_moved P.keeps between write fun _ => quiet clean).tidy numbers clean

end Heap.Passed

/-! ### Around a block -/

/-- The free blocks right before a place. -/
theorem exists_run_before (us : List Block) : ∃ ws ls, us = ws ++ ls ∧
    (∀ x ∈ ls, x.used = false) ∧ ∀ x ∈ ws.getLast?, x.used = true := by
  induction us using List.reverseRecOn with
  | nil => exact ⟨[], [], rfl, by simp, by simp⟩
  | append_singleton us x ih =>
    cases used : x.used with
    | true => exact ⟨us ++ [x], [], by simp, by simp, by simp [used]⟩
    | false =>
      obtain ⟨ws, ls, rfl, free, stop⟩ := ih
      refine ⟨ws, ls ++ [x], by simp, ?_, stop⟩
      intro y hy
      rcases List.mem_append.1 hy with hy | hy
      · exact free y hy
      · rw [List.mem_singleton.1 hy, used]

/-- The free blocks right after a place. -/
theorem exists_run_after (vs : List Block) : ∃ ms ws, vs = ms ++ ws ∧
    (∀ x ∈ ms, x.used = false) ∧ ∀ x ∈ ws.head?, x.used = true := by
  induction vs with
  | nil => exact ⟨[], [], rfl, by simp, by simp⟩
  | cons x vs ih =>
    cases used : x.used with
    | true => exact ⟨[], x :: vs, rfl, by simp, by simp [used]⟩
    | false =>
      obtain ⟨ms, ws, rfl, free, stop⟩ := ih
      refine ⟨x :: ms, ws, rfl, ?_, stop⟩
      intro y hy
      rcases List.mem_cons.1 hy with rfl | hy
      · exact used
      · exact free y hy

/-- The last one of some blocks is not to be merged when those in front are of other regions and it is in
use. -/
theorem not_mergeable_getLast? {xs us : List Block} {region : Nat}
    (others : ∀ x ∈ xs, x.region ≠ region) (stop : ∀ x ∈ us.getLast?, x.used = true) :
    ∀ x ∈ (xs ++ us).getLast?, ¬ x.Mergeable region := by
  rintro x hx ⟨same, free⟩
  rcases List.eq_nil_or_concat us with rfl | ⟨ws, y, rfl⟩
  · rw [List.append_nil] at hx
    exact others x (List.mem_of_getLast? hx) same
  · rw [List.concat_eq_append, ← List.append_assoc, List.getLast?_concat] at hx
    have := stop x (by rw [List.concat_eq_append, List.getLast?_concat]; exact hx)
    rw [free] at this
    cases this

/-- The first one of some blocks is not to be merged when it is in use and those behind are of other
regions. -/
theorem not_mergeable_head? {ys vs : List Block} {region : Nat}
    (others : ∀ y ∈ ys, y.region ≠ region) (stop : ∀ y ∈ vs.head?, y.used = true) :
    ∀ y ∈ (vs ++ ys).head?, ¬ y.Mergeable region := by
  rintro y hy ⟨same, free⟩
  cases vs with
  | nil => exact others y (List.mem_of_mem_head? hy) same
  | cons v vs =>
    have := stop y hy
    rw [free] at this
    cases this

namespace Ledger

variable {L : Ledger} {rs rs₁ rs₂ : List Region} {r r' : Region} {span : Span} {b : Block}
  {us vs seg : List Block}

/-- All regions but one stay as they are. -/
theorem Sound.merged_replace (S : L.Sound (rs₁ ++ r :: rs₂)) (merged : r'.Merged) :
    ∀ u ∈ rs₁ ++ r' :: rs₂, u.Merged := by
  have old := S.merged
  intro u hu
  simp only [List.mem_append, List.mem_cons] at hu old
  rcases hu with hu | rfl | hu
  · exact old u (.inl hu)
  · exact merged
  · exact old u (.inr (.inr hu))

/-- A block that is handed out is not on the free list. -/
theorem Laid.used_notMem_free (h : L.Laid rs) (hb : b ∈ L.used) : b ∉ L.free := by
  intro hx
  have used := (mem_used.1 hb).2
  rw [(h.mem_free_iff.1 hx).2] at used
  cases used

/-- No block before those of a region would be merged with them, unless it is one of them. -/
theorem Laid.not_mergeable_before (h : L.Laid (rs₁ ++ ⟨span, us ++ seg⟩ :: rs₂))
    (stop : ∀ x ∈ us.getLast?, x.used = true) :
    ∀ x ∈ (rs₁.flatMap Region.blocks ++ us).getLast?, ¬ x.Mergeable span.start :=
  not_mergeable_getLast? (fun x hx => h.region_ne (by simp [hx])) stop

/-- No block after those of a region would be merged with them, unless it is one of them. -/
theorem Laid.not_mergeable_after (h : L.Laid (rs₁ ++ ⟨span, seg ++ vs⟩ :: rs₂))
    (stop : ∀ x ∈ vs.head?, x.used = true) :
    ∀ x ∈ (vs ++ rs₂.flatMap Region.blocks).head?, ¬ x.Mergeable span.start :=
  not_mergeable_head? (fun x hx => h.region_ne (by simp at hx ⊢; tauto)) stop

end Ledger

namespace Heap

variable {E : Fault → Prop} {h : Heap} {L : Ledger} {rs : List Region} {b : Block} {size : Nat}

/-! ### Giving back -/

section GiveBack

variable {rs₁ rs₂ : List Region} {span : Span} {l : Block} {ws zs ls ms ns xs ys : List Block}
  (S : L.Sound (rs₁ ++ ⟨span, ws ++ ((ls ++ b :: ms) ++ zs)⟩ :: rs₂)) (used : b.used = true)
  (free : ∀ x ∈ ls ++ ms, x.used = false) (run : ls ++ b.withUsed false :: ms = l :: ns)
  (ws_used : ∀ x ∈ ws.getLast?, x.used = true) (zs_used : ∀ x ∈ zs.head?, x.used = true)
  (before : xs = rs₁.flatMap Region.blocks ++ ws) (after : ys = zs ++ rs₂.flatMap Region.blocks)

include S used free run before after

omit S used before after in
theorem run_head_free : l.used = false := by
  rcases mem_of_run run (List.mem_cons_self ..) with e | hx
  · rw [e]
    rfl
  · exact free l hx

theorem run_head_region : l.region = span.start := by
  have merged := S.toLaid.merge used free run before after
  have joined := merged.tiled ⟨span, ws ++ l.joined ns :: zs⟩ (by simp)
  exact joined.region_eq (b := l.joined ns) (by simp)

omit used free run before after in
/-- No other block is behind the pointer. -/
theorem payload_ne_of_run {x : Block}
    (hx : x ∈ (rs₁.flatMap Region.blocks ++ (ws ++ ls)) ++ ((ms ++ zs) ++ rs₂.flatMap Region.blocks)) :
    x.payload ≠ b.payload := by
  have blocks : L.blocks = (rs₁.flatMap Region.blocks ++ (ws ++ ls)) ++
      b :: ((ms ++ zs) ++ rs₂.flatMap Region.blocks) := by
    rw [S.blocks]
    simp
  have nodup := S.nodup
  rw [blocks, List.nodup_middle, List.nodup_cons] at nodup
  have mem : x ∈ L.blocks := by
    rw [blocks, List.perm_middle.mem_iff]
    exact List.mem_cons_of_mem _ hx
  intro e
  rw [S.payload_inj mem (by simp [blocks]) e] at hx
  exact nodup.1 hx

include ws_used zs_used

/-- The merged block fills its region when no block is left on either side of it. -/
theorem fills_iff : (l.joined ns).Fills ys ↔ ws = [] ∧ zs = [] := by
  have merged := S.toLaid.merge used free run before after
  have tiled := merged.tiled ⟨span, ws ++ l.joined ns :: zs⟩ (by simp)
  have l_region := run_head_region S used free run before after
  constructor
  · intro fills
    have l_addr : l.addr = span.start := fills.1.symm.trans l_region
    refine ⟨tiled.tiles.head_addr l_addr, ?_⟩
    cases zs with
    | nil => rfl
    | cons z zs =>
      have z_region := tiled.region_eq (b := z) (by simp)
      have := fills.2 z (by rw [after]; rfl)
      exact absurd (z_region.trans l_region.symm) this
  · rintro ⟨rfl, rfl⟩
    refine ⟨l_region.trans tiled.tiles.1.symm, ?_⟩
    intro y hy region
    rw [after, List.nil_append] at hy
    have mem := List.mem_append_right (rs₁.flatMap Region.blocks) (List.mem_of_mem_head? hy)
    exact S.region_ne mem (region.trans l_region)

/-- What becomes of the regions: the one of the block changes, or goes when the merged block fills
it. -/
theorem giveBack_regions : Region.giveBack L.settings.retained b.payload
    (rs₁ ++ ⟨span, ws ++ ((ls ++ b :: ms) ++ zs)⟩ :: rs₂) =
      if L.settings.retained < L.regions ∧ (l.joined ns).Fills ys then rs₁ ++ rs₂
      else rs₁ ++ ⟨span, ws ++ l.joined ns :: zs⟩ :: rs₂ := by
  have ne := fun x => @payload_ne_of_run L b rs₁ rs₂ span ws zs ls ms S x
  have merged := S.merged ⟨span, ws ++ ((ls ++ b :: ms) ++ zs)⟩ (by simp)
  have l_free : l.used = false := run_head_free free run
  have all_free : ∀ x ∈ l :: ns, x.used = false := by
    intro x hx
    rcases mem_of_run run hx with rfl | hx
    · rfl
    · exact free x hx
  have freed := Region.freed_of_run merged
    (fun x hx => ne x (by simp only [List.mem_append] at hx ⊢; tauto)) run all_free ws_used zs_used
  have empties : Region.emptied [b.payload] ⟨span, ws ++ ((ls ++ b :: ms) ++ zs)⟩ = true ↔
      (l.joined ns).Fills ys := by
    have busy : Region.idle ⟨span, ws ++ ((ls ++ b :: ms) ++ zs)⟩ = false := by
      simp [Region.idle, used]
    have joined : (l.joined ns).used = false := l_free
    rw [fills_iff S used free run ws_used zs_used before after, Region.emptied_eq, busy, freed]
    constructor
    · intro idle
      have idle : ∀ x ∈ ws ++ l.joined ns :: zs, x.used = false := by
        intro x hx
        have := List.all_eq_true.1 (show List.all _ _ = true from idle) x hx
        simpa using this
      constructor
      · rw [← List.getLast?_eq_none_iff, Option.eq_none_iff_forall_ne_some]
        intro x hx
        have := ws_used x hx
        rw [idle x (by simp [List.mem_of_getLast? hx])] at this
        cases this
      · rw [← List.head?_eq_none_iff, Option.eq_none_iff_forall_ne_some]
        intro x hx
        have := zs_used x hx
        rw [idle x (by simp [List.mem_of_mem_head? hx])] at this
        cases this
    · rintro ⟨rfl, rfl⟩
      simp [Region.idle, joined]
  rw [Region.giveBack_eq, freed, ← S.count]
  · simp only [empties]
  · intro u hu
    apply S.merged
    simp only [List.mem_append, List.mem_cons] at hu ⊢
    tauto
  · intro u hu x hx e
    have mem : x ∈ rs₁.flatMap Region.blocks ∨ x ∈ rs₂.flatMap Region.blocks :=
      (List.mem_append.1 hu).imp (fun hu => List.mem_flatMap.2 ⟨u, hu, hx⟩)
        fun hu => List.mem_flatMap.2 ⟨u, hu, hx⟩
    exact absurd e (ne x (by simp only [List.mem_append]; tauto))

/-- The block is free from then on and one with its free neighbours. -/
theorem merge_sound :
    (L.merge xs l ns ys).Sound (rs₁ ++ ⟨span, ws ++ l.joined ns :: zs⟩ :: rs₂) := by
  have merged := S.toLaid.merge used free run before after
  have old := S.merged ⟨span, ws ++ ((ls ++ b :: ms) ++ zs)⟩ (by simp)
  exact ⟨merged, S.merged_replace (old.merge (l.joined ns) ws_used zs_used)⟩

/-- The block and the free blocks around it are a run that may become one. -/
theorem retakes_of_sound : L.Retakes b l xs ls ms ys ns := by
  have hr : Region.mk span (ws ++ ((ls ++ b :: ms) ++ zs)) ∈
    rs₁ ++ ⟨span, ws ++ ((ls ++ b :: ms) ++ zs)⟩ :: rs₂ := by simp
  have region : ∀ x ∈ ws ++ ((ls ++ b :: ms) ++ zs), x.region = span.start :=
    fun x hx => (S.tiled _ hr).region_eq hx
  have b_region : b.region = span.start := region b (by simp)
  have inside : ∀ x ∈ ls ++ ms, x ∈ ws ++ ((ls ++ b :: ms) ++ zs) := by
    intro x hx
    simp only [List.mem_append, List.mem_cons] at hx ⊢
    tauto
  have busy : b ∉ L.free :=
    S.used_notMem_free (Ledger.mem_used.2 ⟨S.mem_blocks hr (by simp), used⟩)
  have merge : ∀ x ∈ ls ++ ms, x.Mergeable b.region :=
    fun x hx => ⟨(region x (inside x hx)).trans b_region.symm, free x hx⟩
  have listed : ∀ x ∈ ls ++ ms, x ∈ L.free :=
    fun x hx => S.mem_free_iff.2 ⟨S.mem_blocks hr (inside x hx), free x hx⟩
  have start : ∀ x ∈ xs.getLast?, ¬ x.Mergeable b.region := by
    rw [b_region, before]
    exact S.not_mergeable_before ws_used
  have stop : ∀ x ∈ ys.head?, ¬ x.Mergeable b.region := by
    have laid := S.toLaid
    rw [← List.append_assoc ws] at laid
    rw [b_region, after]
    exact laid.not_mergeable_after zs_used
  have count : 0 < L.regions := by
    rw [S.count, List.length_append, List.length_cons]
    omega
  have merged := merge_sound S used free run ws_used zs_used before after
  have aligned : l.region = l.addr → l.addr % pageSize = 0 := by
    intro e
    rw [← e, run_head_region S used free run before after]
    exact (S.placed hr).aligned
  have blocks := S.blocks_eq
  rw [← before, ← after] at blocks
  exact ⟨blocks, used, busy, run, merge, listed, start, stop,
    merged.extent_lt (by simp [Ledger.merge]), count, aligned⟩

/-- A block that is handed out is merged with the free blocks around it, and its region given back when
the merged block fills it and there are more regions than are kept. -/
theorem giveBack_moved (K : h.Keeps L) :
    Yields E (giveBack b.addr) h fun _ h' =>
      (¬ (L.settings.retained < L.regions ∧ (l.joined ns).Fills ys) ∧
        Moved h L.Headers (L.merge xs l ns ys) h' ∧ h'.log = b.retaking l ns ++ h.log) ∨
      (L.settings.retained < L.regions ∧ (l.joined ns).Fills ys ∧
        Moved h L.Headers ((L.merge xs l ns ys).shut xs (l.joined ns) ys) h' ∧
        h'.log = .closing (l.joined ns) :: b.retaking l ns ++ h.log ∧
        ∃ h₁, h₁.Keeps (L.merge xs l ns ys) ∧ closeRegion l.addr h₁ = .ok () h') :=
  giveBack_yields (retakes_of_sound S used free run ws_used zs_used before after) K

/-- A merged block that does not fill its region, or whose region is kept. -/
theorem merge_passed {h' : Heap}
    (stays : ¬ (L.settings.retained < L.regions ∧ (l.joined ns).Fills ys))
    (M : h.Moved L.Headers (L.merge xs l ns ys) h') :
    Passed h L { taken := some b } h' (L.merge xs l ns ys) ∧
      (L.merge xs l ns ys).Sound (Region.giveBack L.settings.retained b.payload
        (rs₁ ++ ⟨span, ws ++ ((ls ++ b :: ms) ++ zs)⟩ :: rs₂)) := by
  have sound := merge_sound S used free run ws_used zs_used before after
  have regions := giveBack_regions S used free run ws_used zs_used before after
  rw [if_neg stays] at regions
  rw [← regions] at sound
  have blocks := S.blocks_eq
  rw [← before, ← after] at blocks
  have perm : L.used.Perm (b :: (L.merge xs l ns ys).used) :=
    Ledger.used_merge blocks used free (run_head_free free run)
  refine ⟨⟨M.keeps, ⟨_, sound⟩, rfl, rfl, rfl, ⟨_, perm, .refl _⟩, ?_, by simp,
    S.toLaid.idle_giveBack sound.toLaid, M.numbers, M.tidy, by simp⟩, sound⟩
  intro c hc _ i hi hi'
  exact M.same i (S.payload_clear (Ledger.mem_used.1 hc).1 hi hi')

/-- A merged block that fills its region is all of it, and the region goes with it. -/
theorem shut_sound (fills : (l.joined ns).Fills ys) :
    ws = [] ∧ zs = [] ∧ span = ⟨l.addr, (l.joined ns).extent⟩ ∧
      ((L.merge xs l ns ys).shut xs (l.joined ns) ys).Sound (rs₁ ++ rs₂) := by
  have sound := merge_sound S used free run ws_used zs_used before after
  have l_region := run_head_region S used free run before after
  have l_addr : l.addr = span.start := fills.1.symm.trans l_region
  obtain ⟨rfl, rfl⟩ := (fills_iff S used free run ws_used zs_used before after).1 fills
  have whole : span = ⟨l.addr, (l.joined ns).extent⟩ := by
    have sum := (sound.tiled ⟨span, [] ++ l.joined ns :: []⟩ (by simp)).sum_extents
    have : (l.joined ns).extent = span.length := by simpa using sum
    rw [this, l_addr]
  rw [List.append_nil] at before
  rw [List.nil_append] at after
  have dropped := @Ledger.Laid.drop _ rs₁ rs₂ ⟨span, [l.joined ns]⟩ (xs ++ ys) sound.toLaid
    (by rw [before, after])
  rw [show span = ⟨l.addr, (l.joined ns).extent⟩ from whole] at dropped
  refine ⟨rfl, rfl, whole, dropped, ?_⟩
  intro r hr
  apply S.merged
  simp only [List.mem_append, List.mem_cons] at hr ⊢
  tauto

/-- A merged block that fills its region goes with it. -/
theorem shut_passed {h' : Heap} (many : L.settings.retained < L.regions)
    (fills : (l.joined ns).Fills ys)
    (M : h.Moved L.Headers ((L.merge xs l ns ys).shut xs (l.joined ns) ys) h') {h₁ : Heap}
    (K₁ : h₁.Keeps (L.merge xs l ns ys)) (closed : closeRegion l.addr h₁ = .ok () h') :
    Passed h L { taken := some b, unmapped := some ⟨l.addr, (l.joined ns).extent⟩ } h'
        ((L.merge xs l ns ys).shut xs (l.joined ns) ys) ∧
      ((L.merge xs l ns ys).shut xs (l.joined ns) ys).Sound
        (Region.giveBack L.settings.retained b.payload
          (rs₁ ++ ⟨span, ws ++ ((ls ++ b :: ms) ++ zs)⟩ :: rs₂)) := by
  have sound := merge_sound S used free run ws_used zs_used before after
  have regions := giveBack_regions S used free run ws_used zs_used before after
  rw [if_pos ⟨many, fills⟩] at regions
  have idle := @Ledger.Laid.idle_giveBack _ _ ((L.merge xs l ns ys).shut xs (l.joined ns) ys)
    L.settings.retained b.payload S.toLaid
  rw [regions] at idle ⊢
  obtain ⟨rfl, rfl, whole, dropped⟩ := shut_sound S used free run ws_used zs_used before after fills
  have blocks := S.blocks_eq
  rw [← before, ← after] at blocks
  have perm : L.used.Perm (b :: (L.merge xs l ns ys).used) :=
    Ledger.used_merge blocks used free (run_head_free free run)
  have l_free : l.used = false := run_head_free free run
  have perm' := @Ledger.used_shut (L.merge xs l ns ys) (l.joined ns) xs ys rfl l_free
  refine ⟨⟨M.keeps, ⟨_, dropped⟩, rfl, rfl, rfl, ⟨_, perm, perm'⟩, ?_, ?_, idle dropped.toLaid,
    M.numbers, M.tidy, by simp⟩, dropped⟩
  · intro c hc _ i hi hi'
    exact M.same i (S.payload_clear (Ledger.mem_used.1 hc).1 hi hi')
  · rintro s ⟨⟩
    rw [whole] at sound
    exact ⟨h₁, _, _, l.joined ns, K₁.sound sound, by simp, l_free, closed⟩

end GiveBack

/-- The run of a block that is handed out and the free blocks around it, in its region. -/
theorem exists_run (S : L.Sound rs) (hb : b ∈ L.used) : ∃ rs₁ span ws ls ms zs rs₂ l ns,
    rs = rs₁ ++ ⟨span, ws ++ ((ls ++ b :: ms) ++ zs)⟩ :: rs₂ ∧ (∀ x ∈ ls ++ ms, x.used = false) ∧
      ls ++ b.withUsed false :: ms = l :: ns ∧ (∀ x ∈ ws.getLast?, x.used = true) ∧
      ∀ x ∈ zs.head?, x.used = true := by
  obtain ⟨rs₁, span, us, vs, rs₂, rfl⟩ := S.exists_region (Ledger.mem_used.1 hb).1
  obtain ⟨ws, ls, rfl, ls_free, ws_used⟩ := exists_run_before us
  obtain ⟨ms, zs, rfl, ms_free, zs_used⟩ := exists_run_after vs
  obtain ⟨l, ns, run⟩ : ∃ l ns, ls ++ b.withUsed false :: ms = l :: ns :=
    List.exists_cons_of_ne_nil (by simp)
  refine ⟨rs₁, span, ws, ls, ms, zs, rs₂, l, ns, by simp, ?_, run, ws_used, zs_used⟩
  intro x hx
  rcases List.mem_append.1 hx with hx | hx
  · exact ls_free x hx
  · exact ms_free x hx

/-- A block that is handed out is given back. -/
theorem giveBack_passed (K : h.Keeps L) (S : L.Sound rs) (hb : b ∈ L.used) :
    Yields E (giveBack b.addr) h fun _ h' =>
      ∃ L' u, Passed h L { taken := some b, unmapped := u } h' L' ∧ L'.nextId = L.nextId ∧
        L'.Sound (Region.giveBack L.settings.retained b.payload rs) := by
  have used := (Ledger.mem_used.1 hb).2
  obtain ⟨rs₁, span, ws, ls, ms, zs, rs₂, l, ns, rfl, free, run, ws_used, zs_used⟩ := exists_run S hb
  refine (giveBack_moved S used free run ws_used zs_used rfl rfl K).mono fun _ h' post => ?_
  rcases post with ⟨stays, M, _⟩ | ⟨many, fills, M, _, h₁, K₁, closed⟩
  · obtain ⟨P, sound⟩ := merge_passed S used free run ws_used zs_used rfl rfl stays M
    exact ⟨_, none, P, rfl, sound⟩
  · obtain ⟨P, sound⟩ := shut_passed S used free run ws_used zs_used rfl rfl many fills M K₁ closed
    exact ⟨_, _, P, rfl, sound⟩

end Heap

end RegionHeap
