import RegionHeap.Proofs.Sound.Exchange

/-!
# Handing blocks out

What `Heap.reuse`, `Heap.openRegion` with `Heap.adopt`, and `Heap.growInPlace` exchange on a sound heap.

* `Ledger.Handed`, `Ledger.Grown` — what handing out a block, and growing one, make of the ledger.
* `Ledger.handing` — what is recorded when a block is handed out.
* `Ledger.Counts` — the numbers that a call takes.
* `reuse_passed` — a free block is cut and its front is handed out, or no block is large enough.
* `adopt_handed`, `open_passed` — a block of its own region is handed out, or the mapping is refused.
* `growInPlace_moved`, `growInPlace_passed` — a block that is handed out gets larger at its place, or stays
  as it is.

A number is needed only where the ledger takes one.
-/

set_option autoImplicit false

namespace RegionHeap

theorem Block.size_front {b : Block} {least size : Nat} (h : size ≤ b.size) :
    size ≤ (b.front least size).size := by
  unfold Block.front
  split
  · exact h
  · exact Nat.le_refl size

namespace Ledger

/-- The block `c` is handed out for `size` bytes: the front of the first free block that is large enough,
or, when there is none, the block of a region that is mapped for it. -/
inductive Handed (L : Ledger) (size : Nat) : Block → Option Span → Ledger → Prop
  | reused {xs ys : List Block} {b : Block} (found : (L.free.find? fun x => size ≤ x.size) = some b)
      (blocks : L.blocks = xs ++ b :: ys) :
      Handed L size ((b.withUsed true).front (Header.length + L.settings.minBlock) size) none
        (L.take xs b ys size)
  | mapped {start : Nat} (full : (L.free.find? fun x => size ≤ x.size) = none)
      (place : L.place L.transfers (Header.length + size) = .ok start) :
      Handed L size ((Block.whole start size).withId L.nextId) (some ⟨start, Header.length + size⟩)
        ((L.mapped ⟨start, Header.length + size⟩).adopt (Block.whole start size))

/-- What is recorded when a block is handed out for `size` bytes, or the mapping for it is refused. -/
def handing (L : Ledger) (size : Nat) : List Event :=
  match L.free.find? fun x => size ≤ x.size with
  | some b => (b.withUsed true).cutting (Header.length + L.settings.minBlock) size L.nextId ++
      [.chosen (b.withUsed true)]
  | none =>
    match L.place L.transfers (Header.length + size) with
    | .ok start => [.fresh ((Block.whole start size).withId L.nextId)]
    | .error cause => [.mapFailed (Header.length + size) cause]

/-- The block `b` grows at its place to `c`, which has `size` bytes at least: it takes in the free block
after it and is cut again. -/
inductive Grown (L : Ledger) (b : Block) (size : Nat) : Block → Ledger → Prop
  | intro {xs zs : List Block} {next : Block} (blocks : L.blocks = xs ++ b :: next :: zs)
      (merge : next.Mergeable b.region) (fits : size ≤ (b.joined [next]).size) :
      Grown L b size ((b.joined [next]).front (Header.length + L.settings.minBlock) size)
        (L.grow xs b next zs size)

/-- A call took one number if it made a block, and none otherwise. -/
structure Counts (L : Ledger) (made : Prop) (L' : Ledger) : Prop where
  one : made → L'.nextId = L.nextId + 1
  none : ¬ made → L'.nextId = L.nextId

section Counts

variable {L L' L'' : Ledger} {rs : List Region} {b c c' : Block} {s s' : Option Span} {size : Nat}

theorem Counts.nothing {made : Prop} (h : ¬ made) : L.Counts made L :=
  ⟨fun one => absurd one h, fun _ => rfl⟩

theorem Counts.trans {made : Prop} (h : L.Counts made L') (same : L''.nextId = L'.nextId) :
    L.Counts made L'' :=
  ⟨fun one => same.trans (h.one one), fun none => same.trans (h.none none)⟩

/-- A call makes one block at most. -/
theorem Counts.le {made : Prop} (h : L.Counts made L') : L'.nextId ≤ L.nextId + 1 := by
  by_cases one : made
  · exact Nat.le_of_eq (h.one one)
  · exact Nat.le_succ_of_le (Nat.le_of_eq (h.none one))

/-- Handing out a block for a size has one outcome. -/
theorem Handed.unique (S : L.Laid rs) (handed : L.Handed size c s L')
    (again : L.Handed size c' s' L'') : c' = c ∧ L'' = L' := by
  cases handed with
  | reused found blocks =>
    cases again with
    | reused found' blocks' =>
      obtain rfl := Option.some.inj (found.symm.trans found')
      obtain ⟨rfl, rfl⟩ := S.around_eq blocks blocks'
      exact ⟨rfl, rfl⟩
    | mapped full => exact nomatch found.symm.trans full
  | mapped full place =>
    cases again with
    | reused found => exact nomatch found.symm.trans full
    | mapped _ place' =>
      obtain rfl := Except.ok.inj (place.symm.trans place')
      exact ⟨rfl, rfl⟩

/-- It takes at most one number. -/
theorem Handed.nextId (handed : L.Handed size c s L') :
    L'.nextId = L.nextId ∨ L'.nextId = L.nextId + 1 := by
  cases handed with
  | reused => exact cut_nextId
  | mapped => exact .inr rfl

/-- Growing a block to a size has one outcome. -/
theorem Grown.unique (S : L.Laid rs) (grown : L.Grown b size c L') (again : L.Grown b size c' L'') :
    L'' = L' := by
  obtain ⟨blocks, _, _⟩ := grown
  obtain ⟨blocks', _, _⟩ := again
  obtain ⟨rfl, after⟩ := S.around_eq blocks blocks'
  obtain ⟨rfl, rfl⟩ := List.cons.inj after
  rfl

/-- It takes at most one number. -/
theorem Grown.nextId (grown : L.Grown b size c L') :
    L'.nextId = L.nextId ∨ L'.nextId = L.nextId + 1 := by
  obtain ⟨_, _, _⟩ := grown
  exact cut_nextId

end Counts

end Ledger

namespace Heap

variable {E : Fault → Prop} {h : Heap} {L : Ledger} {rs : List Region} {b : Block} {size : Nat}

/-! ### Free blocks -/

section Reuse

variable {rs₁ rs₂ : List Region} {span : Span} {us vs xs ys : List Block} {h' : Heap}

variable (S : L.Sound (rs₁ ++ ⟨span, us ++ b :: vs⟩ :: rs₂)) (free : b.used = false)
  (words : size % wordSize = 0) (large : L.settings.minBlock ≤ size) (fits : size ≤ b.size)
  (before : xs = rs₁.flatMap Region.blocks ++ us) (after : ys = vs ++ rs₂.flatMap Region.blocks)

include S free words large fits before after

/-- A free block that was handed out and cut leaves a sound ledger. -/
theorem take_sound : (L.take xs b ys size).Sound (rs₁ ++ ⟨span, us ++ ((b.withUsed true).parts
    (Header.length + L.settings.minBlock) size L.nextId ++ vs)⟩ :: rs₂) := by
  have laid := S.toLaid.take free words large fits before after
  have old : Region.Merged ⟨span, us ++ ([b] ++ vs)⟩ := S.merged _ (by simp)
  exact ⟨laid, S.merged_replace (old.parts rfl (old.used_after (by simp) free))⟩

/-- The front of a free block is handed out. -/
theorem take_passed (M : h.Moved (fun i => L.Headers i ∨ b.payload + size ≤ i ∧ i < b.finish)
      (L.take xs b ys size) h') :
    Passed h L { given := some ((b.withUsed true).front (Header.length + L.settings.minBlock) size) }
      h' (L.take xs b ys size) := by
  have sound := take_sound S free words large fits before after
  have blocks : L.blocks = xs ++ b :: ys := by
    rw [S.blocks, before, after]
    simp
  refine ⟨M.keeps, ⟨_, sound⟩, ?_, ?_, ?_, ?_, ?_, by simp, ?_, M.numbers, M.tidy, by simp⟩
  · exact Ledger.cut_settings
  · exact Ledger.cut_place
  · exact Ledger.cut_transfers
  · exact ⟨L.used, .refl _, Ledger.used_take blocks free⟩
  rotate_left
  · exact (S.toLaid.idle_replace sound.toLaid (by simp [Region.idle, Block.parts])).trans
  · intro c hc _ i hi hi'
    obtain ⟨hc, used⟩ := Ledger.mem_used.1 hc
    apply M.same
    rintro (header | inside)
    · exact S.payload_clear hc hi hi' header
    · have ne : c ≠ b := by
        rintro rfl
        rw [free] at used
        cases used
      have := S.payload_apart hc (by simp [blocks]) ne
      omega

end Reuse

/-- The front of a free block is handed out, unless no block is large enough. -/
theorem reuse_passed (K : h.Keeps L) (S : L.Sound rs) (words : size % wordSize = 0)
    (large : L.settings.minBlock ≤ size) (ids : ∀ c s L', L.Handed size c s L' →
      L'.nextId ≠ L.nextId → L.nextId + 1 < wordLimit ∨ E .additionOverflow) :
    Yields E (reuse size) h fun answer h' =>
      match answer with
      | none => h' = h ∧ (L.free.find? fun x => size ≤ x.size) = none
      | some a => ∃ L' c, L.Handed size c none L' ∧ Passed h L { given := some c } h' L' ∧
          h.Recorded L (L.handing size) h' L' ∧ c.addr = a ∧ size ≤ c.size := by
  cases found : L.free.find? fun x => size ≤ x.size with
  | none =>
    refine (reuse_none_yields K found).mono fun answer h' post => ?_
    obtain ⟨rfl, rfl⟩ := post
    exact ⟨rfl, rfl⟩
  | some b =>
    obtain ⟨mem, free⟩ := S.mem_free_iff.1 (List.mem_of_find?_eq_some found)
    have fits : size ≤ b.size := by simpa using List.find?_some found
    have own := S.owns mem
    have small := S.small
    obtain ⟨xs, ys, blocks⟩ := List.append_of_mem mem
    obtain ⟨rs₁, span, us, vs, rs₂, rfl, rfl, rfl⟩ := S.exists_region_around blocks
    have handed := Ledger.Handed.reused found blocks
    refine (reuse_some_yields K blocks found own words small (ids _ _ _ handed)).mono
      fun answer h' post => ?_
    obtain ⟨rfl, M, recorded⟩ := post
    refine ⟨_, _, handed, take_passed S free words large fits rfl rfl M, ?_, Block.addr_front,
      Block.size_front fits⟩
    unfold Ledger.handing
    rwa [found]

/-! ### Fresh regions -/

/-- The pages of a new mapping hold no block. -/
theorem fresh_of_place {len start : Nat} (S : L.Sound rs)
    (e : L.place L.transfers len = .ok start) {i : Nat} (hi : start ≤ i)
    (hi' : i < start + pageCeil len) (hb : b ∈ L.blocks) : ¬ (b.addr ≤ i ∧ i < b.finish) :=
  fun inside => S.lawful.fresh e i hi hi' (S.mapped_of_mem hb inside.1 inside.2)

/-- A region that was mapped for a block leaves a sound ledger. -/
theorem adopt_sound {start : Nat} (S : L.Sound rs)
    (e : L.place L.transfers (Header.length + size) = .ok start) (words : size % wordSize = 0)
    (large : L.settings.minBlock ≤ size) :
    ((L.mapped ⟨start, Header.length + size⟩).adopt (Block.whole start size)).Sound
      (rs ++ [⟨⟨start, Header.length + size⟩, [(Block.whole start size).withId L.nextId]⟩]) := by
  refine ⟨S.toLaid.adopt e words large, ?_⟩
  intro r hr
  rcases List.mem_append.1 hr with hr | hr
  · exact S.merged r hr
  · rw [List.mem_singleton.1 hr]
    exact List.isChain_singleton _

/-- A mapping for a block starts at a word, and there is no header on its pages. -/
theorem away_of_place {len start : Nat} (S : L.Sound rs) (e : L.place L.transfers len = .ok start) :
    start < wordLimit ∧ start % wordSize = 0 ∧
      ∀ i, start ≤ i → i < start + pageCeil len → ¬ L.Headers i := by
  refine ⟨?_, ?_, ?_⟩
  · have := S.lawful.fits e
    omega
  · have := S.lawful.aligned e
    unfold pageSize at this
    unfold wordSize
    omega
  · rintro i hi hi' ⟨x, hx, covers⟩
    apply fresh_of_place S e hi hi' hx
    unfold Header.Covers at covers
    rw [x.finish_eq]
    unfold Block.extent
    omega

section Adopt

variable {start : Nat} {h₁ h' : Heap}

variable (S : L.Sound rs) (e : L.place L.transfers (Header.length + size) = .ok start)
  (M : MovedBut h (· = start) (fun i => start ≤ i ∧ i < start + pageCeil (Header.length + size))
    (L.mapped ⟨start, Header.length + size⟩) h₁)

include S e M

/-- What is stored in blocks that are handed out is not on the pages of a mapping. -/
theorem adopt_same (M' : Moved h₁ (fun i => (L.mapped ⟨start, Header.length + size⟩).Headers i ∨
      Header.Covers start i) ((L.mapped ⟨start, Header.length + size⟩).adopt (Block.whole start size)) h')
    {c : Block} (hc : c ∈ L.used) {i : Nat} (hi : c.payload ≤ i) (hi' : i < c.finish) :
    h'.memory.byte i = h.memory.byte i := by
  obtain ⟨hc, _⟩ := Ledger.mem_used.1 hc
  have inside : c.addr ≤ i ∧ i < c.finish := by
    unfold Block.payload Header.payload at hi
    omega
  have page := le_pageCeil (Header.length + size)
  have off : ¬ (start ≤ i ∧ i < start + pageCeil (Header.length + size)) :=
    fun within => fresh_of_place S e within.1 within.2 hc inside
  rw [M'.same i, M.same i off]
  rintro (header | covers)
  · exact S.payload_clear hc hi hi' header
  · apply off
    unfold Header.Covers at covers
    omega

variable (words : size % wordSize = 0) (large : L.settings.minBlock ≤ size)
  (most : L.settings.minBlock ≤ maxPayload → size ≤ maxPayload)

include words large most

/-- The block of a region that was mapped is handed out. -/
theorem adopt_passed (M' : Moved h₁ (fun i => (L.mapped ⟨start, Header.length + size⟩).Headers i ∨
      Header.Covers start i) ((L.mapped ⟨start, Header.length + size⟩).adopt (Block.whole start size)) h') :
    Passed h L { given := some ((Block.whole start size).withId L.nextId),
                 mapped := some ⟨start, Header.length + size⟩ } h'
      ((L.mapped ⟨start, Header.length + size⟩).adopt (Block.whole start size)) := by
  have sound := adopt_sound S e words large
  have listed : (Block.whole start size).withId L.nextId ∈
      ((L.mapped ⟨start, Header.length + size⟩).adopt (Block.whole start size)).blocks := by
    simp [Ledger.adopt, Ledger.mapped]
  -- the one mark that is astray meanwhile is that of the block, which is listed in the end
  have settled : Moved h (fun _ => True) _ h' :=
    MovedBut.settle ((M.mono fun _ _ => trivial).trans ((M'.mono fun _ _ => trivial).but _))
      fun _ here => here ▸ M'.keeps.not_stray listed
  refine ⟨M'.keeps, ⟨_, sound⟩, rfl, rfl, rfl, ⟨L.used, .refl _, Ledger.used_adopt rfl⟩,
    fun c hc _ i hi hi' => adopt_same S e M M' hc hi hi', by simp, ?_, settled.numbers, settled.tidy, ?_⟩
  · intro few
    rw [S.idle_eq] at few
    rw [sound.toLaid.idle_eq, List.countP_append,
      List.countP_cons_of_neg (by simp [Region.idle, Block.whole])]
    exact few
  · rintro small _ ⟨⟩
    show Header.length + size ≤ maxSpan
    have := most small
    unfold maxPayload Header.length maxSpan at *
    omega

/-- A region that was mapped for a block becomes that block. -/
theorem adopt_handed (log : h₁.log = h.log) (read : Block.read h₁.memory start = Block.whole start size)
    (full : (L.free.find? fun x => size ≤ x.size) = none)
    (ids : L.nextId + 1 < wordLimit ∨ E .additionOverflow) :
    Yields E (adopt start) h₁ fun _ h' => ∃ L' c s, L.Handed size c (some s) L' ∧
      Passed h L { given := some c, mapped := some s } h' L' ∧
      h.Recorded L (L.handing size) h' L' ∧ c.addr = start ∧ size ≤ c.size := by
  have laid := (adopt_sound S e words large).toLaid
  have count : (L.mapped ⟨start, Header.length + size⟩).regions + 1 < wordLimit := laid.regions_lt
  have spaced : Header.Spaced ((L.blocks ++ [Block.whole start size]).map Block.addr) := by
    have addrs : ((L.mapped ⟨start, Header.length + size⟩).adopt
        (Block.whole start size)).blocks.map Block.addr =
        (L.blocks ++ [Block.whole start size]).map Block.addr := by
      simp [Ledger.adopt, Ledger.mapped]
    rw [← addrs]
    exact laid.spaced
  have aligned := (away_of_place S e).2.1
  have adopted := @adopt_yields E h₁ (L.mapped ⟨start, Header.length + size⟩)
    (Block.whole start size) M.keeps read ⟨aligned, words, aligned⟩ spaced count ids
  refine adopted.mono fun _ h' post => ?_
  obtain ⟨M', recorded⟩ := post
  have opened : h.Recorded L [] h₁ (L.mapped ⟨start, Header.length + size⟩) := .of_log log rfl
  refine ⟨_, _, _, .mapped full e, adopt_passed S e M words large most M', ?_, rfl, Nat.le_refl _⟩
  unfold Ledger.handing
  rw [full, e]
  exact opened.trans recorded

end Adopt

/-- The block of a region just mapped is handed out, unless the mapping is refused. -/
theorem open_passed (K : h.Keeps L) (S : L.Sound rs) (words : size % wordSize = 0)
    (large : L.settings.minBlock ≤ size) (fits : Header.length + size < wordLimit)
    (most : L.settings.minBlock ≤ maxPayload → size ≤ maxPayload)
    (full : (L.free.find? fun x => size ≤ x.size) = none) (ids : ∀ c s L', L.Handed size c s L' →
      L'.nextId ≠ L.nextId → L.nextId + 1 < wordLimit ∨ E .additionOverflow) :
    Yields E (openRegion size) h fun answer h₁ =>
      match answer with
      | .error failure => (∃ cause, L.place L.transfers (Header.length + size) = .error cause ∧
          failure = .mapFailed (Header.length + size) cause) ∧ Passed h L {} h₁ L ∧
          h.Recorded L (L.handing size) h₁ L
      | .ok a => Yields E (adopt a) h₁ fun _ h' => ∃ L' c s, L.Handed size c (some s) L' ∧
          Passed h L { given := some c, mapped := some s } h' L' ∧
          h.Recorded L (L.handing size) h' L' ∧ c.addr = a ∧ size ≤ c.size := by
  refine (openRegion_yields K fits words fun _ e => away_of_place S e).mono fun answer h₁ post => ?_
  cases answer with
  | error failure =>
    obtain ⟨⟨cause, e, rfl, log⟩, M⟩ := post
    refine ⟨⟨cause, e, rfl⟩, .of_moved S M fun _ _ _ _ _ quiet => quiet, .of_log ?_ rfl⟩
    unfold Ledger.handing
    rw [full, e]
    exact log
  | ok start =>
    obtain ⟨e, log, M, read⟩ := post
    exact adopt_handed S e M words large most log read full
      (ids _ _ _ (.mapped full e) (Nat.succ_ne_self _))

/-! ### Growing -/

/-- Two blocks do not take up the whole address range. -/
theorem joint_lt {next : Block} (S : L.Sound rs) (hb : b ∈ L.blocks) (hn : next ∈ L.blocks)
    (ne : b ≠ next) : b.size + Header.length + next.size < wordLimit := by
  have := S.apart_of_ne hb hn ne
  have := (S.owns hb).finish_le
  have := (S.owns hn).finish_le
  rw [Block.finish_eq, Block.finish_eq] at *
  unfold Block.extent Header.length at *
  omega

/-- The block after another one names the same head only within the region. -/
theorem follows_in_region {rs₁ rs₂ : List Region} {span : Span} {next : Block}
    {us vs zs : List Block} (S : L.Laid (rs₁ ++ ⟨span, us ++ b :: vs⟩ :: rs₂))
    (e : vs ++ rs₂.flatMap Region.blocks = next :: zs) (region : next.region = b.region) :
    ∃ ws, vs = next :: ws ∧ zs = ws ++ rs₂.flatMap Region.blocks := by
  have b_region : b.region = span.start :=
    (S.tiled ⟨span, us ++ b :: vs⟩ (by simp)).region_eq (by simp)
  cases vs with
  | nil =>
    have other : next ∈ rs₂.flatMap Region.blocks := by
      rw [List.nil_append] at e
      simp [e]
    exact absurd (region.trans b_region)
      (S.region_ne (r := ⟨span, us ++ b :: []⟩) (List.mem_append_right _ other))
  | cons v ws =>
    obtain ⟨rfl, rfl⟩ : v = next ∧ ws ++ rs₂.flatMap Region.blocks = zs := by simpa using e
    exact ⟨ws, rfl, rfl⟩

section Grow

variable {rs₁ rs₂ : List Region} {span : Span} {next : Block} {us vs xs ys : List Block} {h' : Heap}

/-- A block starts where the one before it in its region ends. -/
theorem addr_next (S : L.Laid (rs₁ ++ ⟨span, us ++ b :: next :: vs⟩ :: rs₂)) :
    next.addr = b.finish := by
  have tiled := S.tiled ⟨span, us ++ b :: next :: vs⟩ (by simp)
  obtain ⟨_, _, _, _, addr, _⟩ := tiles_append.1 tiled.tiles
  exact addr

/-- A block that took in the one after it and was cut again is handed out in the place of what it
was. -/
theorem join_passed (S : L.Sound (rs₁ ++ ⟨span, us ++ b :: next :: vs⟩ :: rs₂))
    (used : b.used = true) (free : next.used = false) (words : size % wordSize = 0)
    (large : L.settings.minBlock ≤ size) (fits : size ≤ (b.joined [next]).size)
    (before : xs = rs₁.flatMap Region.blocks ++ us) (after : ys = vs ++ rs₂.flatMap Region.blocks)
    (M : h.Moved (fun i => L.Headers i ∨ b.payload + size ≤ i ∧ i < (b.joined [next]).finish)
      (L.grow xs b next ys size) h') :
    Passed h L
      ⟨b, (b.joined [next]).front (Header.length + L.settings.minBlock) size, none, none⟩ h'
      (L.grow xs b next ys size) := by
  have joined := S.toLaid.join used free before after
  have laid := joined.cut used words large fits before after
  have blocks : L.blocks = xs ++ ([b, next] ++ ys) := by
    rw [S.blocks, before, after]
    simp
  have old : Region.Merged ⟨span, us ++ ([b, next] ++ vs)⟩ := S.merged _ (by simp)
  have merged : Region.Merged ⟨span, us ++ ((b.joined [next]).parts
      (Header.length + L.settings.minBlock) size L.nextId ++ vs)⟩ :=
    old.parts used (old.used_after (by simp) free)
  have others : L.used.Perm (b :: (xs ++ ys).filter Block.used) := by
    have perm := Ledger.perm_used blocks
    rwa [List.filter_cons_of_pos used, List.filter_cons_of_neg (by simp [free])] at perm
  have joined_used : (b.joined [next]).used = true := used
  have cut := @Ledger.used_cut ((L.delist next).withBlocks (xs ++ b.joined [next] :: ys))
    (b.joined [next]) xs ys size joined_used
  refine ⟨M.keeps, ⟨_, laid, S.merged_replace merged⟩, Ledger.cut_settings, Ledger.cut_place,
    Ledger.cut_transfers, ⟨_, others, cut⟩, ?_, by simp, ?_, M.numbers, M.tidy, by simp⟩
  rotate_left
  · exact (S.toLaid.idle_replace laid (by simp [Region.idle, Block.parts, joined_used])).trans
  · intro c hc kept i hi hi'
    have mem := others.mem_iff.1 hc
    have ne : c ≠ b := by
      rintro rfl
      exact kept rfl
    obtain ⟨hc, _⟩ := Ledger.mem_used.1 hc
    apply M.same
    rintro (header | inside)
    · exact S.payload_clear hc hi hi' header
    · have kept : c ∈ xs ++ ys := by
        rcases List.mem_cons.1 mem with e | mem
        · exact absurd e ne
        · exact (List.mem_filter.1 mem).1
      have other : c ≠ b.joined [next] := by
        intro e
        have := S.apart_of_ne hc (by simp [blocks]) ne
        have := b.addr_lt_finish
        have := c.addr_lt_finish
        have same : c.addr = b.addr := by rw [e, Block.addr_joined]
        omega
      have := joined.payload_apart (x := c) (y := b.joined [next])
        (by simp at kept ⊢; tauto) (by simp) other
      have : b.payload + size ≤ i ∧ i < (b.joined [next]).finish := inside
      have : (b.joined [next]).payload = b.payload := rfl
      omega

/-- Up to the size that was asked for, the payload of a block that grows stays as it is. -/
theorem join_same (S : L.Sound (rs₁ ++ ⟨span, us ++ b :: next :: vs⟩ :: rs₂)) {L' : Ledger}
    (M : h.Moved (fun i => L.Headers i ∨ b.payload + size ≤ i ∧ i < (b.joined [next]).finish) L' h')
    {i : Nat} (hi : i < b.size) (hi' : i < size) :
    h'.memory.byte (b.payload + i) = h.memory.byte (b.payload + i) := by
  have hb : b ∈ L.blocks := S.mem_blocks (r := ⟨span, us ++ b :: next :: vs⟩) (by simp) (by simp)
  apply M.same
  rintro (header | inside)
  · exact S.payload_clear hb (Nat.le_add_right _ _) (Nat.add_lt_add_left hi _) header
  · have := inside.1
    omega

end Grow

/-- A block that is handed out takes in the free block after it and is cut again, if that has enough
bytes. -/
theorem growInPlace_moved {xs ys : List Block} (K : h.Keeps L) (S : L.Sound rs) (hb : b ∈ L.used)
    (blocks : L.blocks = xs ++ b :: ys) (words : size % wordSize = 0)
    (ids : ∀ c L', L.Grown b size c L' → L'.nextId ≠ L.nextId →
      L.nextId + 1 < wordLimit ∨ E .additionOverflow) :
    Yields E (growInPlace b.addr size) h fun answer h' =>
      match answer with
      | true => ∃ next zs, ys = next :: zs ∧ next.Mergeable b.region ∧ size ≤ (b.joined [next]).size ∧
          Moved h (fun i => L.Headers i ∨ b.payload + size ≤ i ∧ i < (b.joined [next]).finish)
            (L.grow xs b next zs size) h' ∧
          h.Recorded L ((b.joined [next]).cutting (Header.length + L.settings.minBlock) size L.nextId ++
            b.absorbing next) h' (L.grow xs b next zs size) ∧
          (b.size < size → Header.intact h'.memory next.addr = false)
      | false => h' = h ∧ ∀ next zs, ys = next :: zs → next.Mergeable b.region →
          (b.joined [next]).size < size := by
  obtain ⟨mem, used⟩ := Ledger.mem_used.1 hb
  obtain ⟨rs₁, span, us, vs, rs₂, rfl, rfl, rfl⟩ := S.exists_region_around blocks
  have nodup := S.nodup
  rw [blocks, List.nodup_middle, List.nodup_cons] at nodup
  have fits : ∀ next zs, vs ++ rs₂.flatMap Region.blocks = next :: zs → next.region = b.region →
      b.size + Header.length + next.size < wordLimit := by
    intro next zs e _
    have hn : next ∈ L.blocks := by simp [blocks, e]
    apply joint_lt S mem hn
    rintro rfl
    exact nodup.1 (by simp [e])
  have free : ∀ next ∈ vs ++ rs₂.flatMap Region.blocks, next.used = false → next ∈ L.free := by
    intro next hn unused
    refine S.mem_free_iff.2 ⟨?_, unused⟩
    rw [blocks, List.mem_append, List.mem_cons]
    exact .inr (.inr hn)
  have own : ∀ next zs, vs ++ rs₂.flatMap Region.blocks = next :: zs →
      next.Mergeable b.region → Ledger.Owns
        (L.withBlocks (rs₁.flatMap Region.blocks ++ us ++ b.joined [next] :: zs))
        (b.joined [next]) := by
    intro next zs e merge
    obtain ⟨ws, rfl, rfl⟩ := follows_in_region S.toLaid e merge.1
    have own := (S.toLaid.join used merge.2 rfl rfl).owns (b := b.joined [next]) (by simp)
    exact ⟨own.finish_le, own.clear⟩
  have grown := @growInPlace_yields E h L b _ _ size K blocks (S.used_notMem_free hb) words S.small
    fits free own fun next zs e merge fits => ids _ _ (.intro (e ▸ blocks) merge fits)
  refine grown.mono fun answer h' post => ?_
  cases answer with
  | false => exact post
  | true =>
    obtain ⟨next, zs, e, merge, room, M, recorded, dead⟩ := post
    refine ⟨next, zs, e, merge, room, M, recorded, fun less => dead ?_⟩
    obtain ⟨ws, rfl, rfl⟩ := follows_in_region S.toLaid e merge.1
    have own_words := (S.fit mem).words
    rw [addr_next S.toLaid]
    unfold Block.finish
    unfold wordSize at *
    omega

/-- A block that is handed out gets at least `size` bytes at its place, or stays as it is. -/
theorem growInPlace_passed (K : h.Keeps L) (S : L.Sound rs) (hb : b ∈ L.used)
    (words : size % wordSize = 0) (large : L.settings.minBlock ≤ size)
    (ids : ∀ c L', L.Grown b size c L' → L'.nextId ≠ L.nextId →
      L.nextId + 1 < wordLimit ∨ E .additionOverflow) :
    Yields E (growInPlace b.addr size) h fun answer h' =>
      match answer with
      | true => ∃ L' c, L.Grown b size c L' ∧
          Passed h L { taken := some b, given := some c } h' L' ∧ c.addr = b.addr ∧
          size ≤ c.size ∧ ∀ i, i < b.size → i < size →
            h'.memory.byte (b.payload + i) = h.memory.byte (b.payload + i)
      | false => h' = h ∧ ∀ c L', ¬ L.Grown b size c L' := by
  obtain ⟨mem, used⟩ := Ledger.mem_used.1 hb
  obtain ⟨xs, ys, blocks⟩ := List.append_of_mem mem
  refine (growInPlace_moved K S hb blocks words ids).mono fun answer h' post => ?_
  cases answer with
  | false =>
    refine ⟨post.1, ?_⟩
    rintro _ _ ⟨blocks', merge, fits⟩
    have after := (S.around_eq blocks blocks').2
    exact absurd fits (Nat.not_le.2 (post.2 _ _ after merge))
  | true =>
    obtain ⟨next, zs, rfl, merge, large', M, _, _⟩ := post
    obtain ⟨rs₁, span, us, vs, rs₂, rfl, rfl, after⟩ := S.exists_region_around blocks
    obtain ⟨ws, rfl, rfl⟩ := follows_in_region S.toLaid after.symm merge.1
    refine ⟨_, _, .intro blocks merge large',
      join_passed S used merge.2 words large large' rfl rfl M, Block.addr_front,
      Block.size_front large', ?_⟩
    exact fun i hi hi' => join_same S M hi hi'

end Heap

end RegionHeap
