import RegionHeap.Proofs.Sound.Calls
import RegionHeap.Proofs.Sound.Listings
import RegionHeap.Proofs.Tenancy

/-!
# What ledgers decide

What a call answers, what it records and what the headers say afterwards depends on the ledger of a sound
heap alone: calls read headers, chains and counters, and nothing between them.

* `Heap.Keeps.unique` — a heap keeps one ledger.
* `Ledger.Decides` — on every heap that keeps the ledger a call does the same.
* `Handed.decides`, `Refuses.decides` — asking for bytes.
* `free_decides`, `relocate_decides`, `realloc_decides` — giving back and resizing.
* `perform_decides`, `Tenancy.Held.decided` — every legal call.
-/

set_option autoImplicit false

namespace RegionHeap

/-- A heap keeps one ledger. -/
theorem Heap.Keeps.unique {h : Heap} {L L' : Ledger} (K : h.Keeps L) (K' : h.Keeps L') : L = L' := by
  have same := (snapshot_eq K).symm.trans (snapshot_eq K')
  have blocks : L.blocks = L'.blocks := congrArg (fun s => s.catalogue.items) same
  have free : L.free = L'.free := congrArg (fun s => s.freeList.items) same
  have settings := K.settings.symm.trans K'.settings
  have place := K.place.symm.trans K'.place
  have transfers := K.transfers.symm.trans K'.transfers
  have regions := K.regions.symm.trans K'.regions
  have nextId := K.nextId.symm.trans K'.nextId
  cases L
  cases L'
  subst_vars
  rfl

/-- On every heap that keeps `L` the call answers `a`, records `es` and leaves a heap that keeps `L'`,
unless it takes a number and there is none left. The free list is ranked again afterwards. -/
structure Ledger.Decides {α : Type} (L : Ledger) (call : HeapM α) (a : α) (es : List Event)
    (L' : Ledger) : Prop where
  yields : ∀ (E : Fault → Prop) (h : Heap), h.Keeps L →
    (L'.nextId ≠ L.nextId → L.nextId + 1 < wordLimit ∨ E .additionOverflow) →
    Heap.Yields E call h fun answer h' => answer = a ∧ h'.Keeps L' ∧ h.Recorded L es h' L'
  ranks : L.Ranks es L'
  numbers : L'.nextId = L.nextId ∨ L'.nextId = L.nextId + 1

namespace Ledger.Decides

variable {α β : Type} {L L₁ L' : Ledger} {call : HeapM α} {a : α} {b : β} {es fs : List Event}

theorem pure (a : α) : L.Decides (Pure.pure a) a [] L where
  yields _ _ K _ := Heap.yields_pure.2 ⟨rfl, K, .of_log rfl rfl⟩
  ranks _ R := R
  numbers := .inl rfl

/-- A call and then another one, at most one of which takes a number. -/
theorem bind {rest : α → HeapM β} (first : L.Decides call a es L₁)
    (second : L₁.Decides (rest a) b fs L')
    (quiet : L₁.nextId = L.nextId ∨ L'.nextId = L₁.nextId) :
    L.Decides (call >>= rest) b (fs ++ es) L' where
  yields E h K ids := by
    have ids₁ : L₁.nextId ≠ L.nextId → L.nextId + 1 < wordLimit ∨ E .additionOverflow :=
      fun ne => ids (quiet.resolve_left ne ▸ ne)
    refine (first.yields E h K ids₁).bind fun answer h₁ post => ?_
    obtain ⟨rfl, K₁, recorded⟩ := post
    have ids₂ : L'.nextId ≠ L₁.nextId → L₁.nextId + 1 < wordLimit ∨ E .additionOverflow := by
      intro ne
      have same := quiet.resolve_right ne
      rw [same] at ne ⊢
      exact ids ne
    refine (second.yields E h₁ K₁ ids₂).mono fun answer h' post => ?_
    obtain ⟨rfl, K', recorded'⟩ := post
    exact ⟨rfl, K', recorded.trans recorded'⟩
  ranks := first.ranks.trans second.ranks
  numbers := by
    rcases quiet with same | same
    · exact same ▸ second.numbers
    · exact same ▸ first.numbers

/-- A call whose answer is told in another way. -/
theorem map (first : L.Decides call a es L') (f : α → β) :
    L.Decides (do return f (← call)) (f a) es L' :=
  @bind _ _ _ _ _ call a (f a) es [] (fun a => Pure.pure (f a)) first (.pure (f a)) (.inr rfl)

/-- A write between the headers, and then a call. -/
theorem write_bind {change : Memory → Memory} {rest : Unit → HeapM α}
    (between : ∀ h : Heap, h.Keeps L → (h.withMemory (change h.memory)).Keeps L)
    (second : L.Decides (rest ()) a es L') : L.Decides (Heap.write change >>= rest) a es L' where
  yields E h K ids := by
    rw [Heap.yields_write_bind]
    refine (second.yields E _ (between h K) ids).mono fun answer h' post => ?_
    obtain ⟨rfl, K', recorded⟩ := post
    exact ⟨rfl, K', recorded.log, recorded.room⟩
  ranks := second.ranks
  numbers := second.numbers

end Ledger.Decides

namespace Ledger

variable {L L' : Ledger} {rs : List Region} {b c : Block} {s : Option Span} {n size : Nat}

/-! ### Asking for bytes -/

/-- For each number of bytes a block is handed out, or there is a reason why not. -/
theorem handed_or_refuses (S : L.Laid rs) (n : Nat) :
    (∃ size c s L', L.settings.blockSize n = .ok size ∧ L.Handed size c s L') ∨
      ∃ failure, L.Refuses n failure := by
  cases valid : L.settings.blockSize n with
  | error failure => exact .inr ⟨failure, .size valid⟩
  | ok size =>
    cases found : L.free.find? fun x => size ≤ x.size with
    | some b =>
      obtain ⟨xs, ys, blocks⟩ :=
        List.append_of_mem (S.mem_free_iff.1 (List.mem_of_find?_eq_some found)).1
      exact .inl ⟨size, _, _, _, rfl, .reused found blocks⟩
    | none =>
      cases place : L.place L.transfers (Header.length + size) with
      | error cause => exact .inr ⟨_, .mapping valid found place⟩
      | ok start => exact .inl ⟨size, _, _, _, rfl, .mapped found place⟩

/-- A request that is refused has one reason. -/
theorem Refuses.unique {failure failure' : Failure} (refused : L.Refuses n failure)
    (again : L.Refuses n failure') : failure' = failure := by
  cases refused with
  | size invalid =>
    cases again with
    | size invalid' => exact Except.error.inj (invalid'.symm.trans invalid)
    | mapping valid => exact nomatch valid.symm.trans invalid
  | mapping valid full place =>
    cases again with
    | size invalid => exact nomatch valid.symm.trans invalid
    | mapping valid' _ place' =>
      obtain rfl := Except.ok.inj (valid.symm.trans valid')
      rw [Except.error.inj (place.symm.trans place')]

theorem Handed.decides (S : L.Sound rs) (valid : L.settings.blockSize n = .ok size)
    (handed : L.Handed size c s L') :
    L.Decides (Heap.allocate n) (.ok c.payload) (L.asking n) L' where
  yields E h K ids := by
    refine (Heap.allocate_handed K S ?_).mono fun answer h' post => ?_
    · rintro ⟨size', c', s', L'', valid', handed', ne⟩
      obtain rfl := Except.ok.inj (valid.symm.trans valid')
      obtain ⟨rfl, rfl⟩ := handed.unique S.toLaid handed'
      exact ids ne
    · cases answer with
      | error failure => exact absurd handed (post.1.not_handed valid)
      | ok p =>
        obtain ⟨size', L'', c', s', valid', handed', P, recorded, rfl, _⟩ := post
        obtain rfl := Except.ok.inj (valid.symm.trans valid')
        obtain ⟨rfl, rfl⟩ := handed.unique S.toLaid handed'
        exact ⟨rfl, P.keeps, recorded⟩
  ranks := by
    unfold asking
    rw [valid]
    exact handing_ranks S.toLaid handed
  numbers := handed.nextId

theorem Refuses.decides {failure : Failure} (S : L.Sound rs) (refused : L.Refuses n failure) :
    L.Decides (Heap.allocate n) (.error failure) (L.asking n) L where
  yields E h K _ := by
    refine (Heap.allocate_handed K S fun makes => absurd makes refused.not_makes).mono
      fun answer h' post => ?_
    cases answer with
    | error failure' =>
      obtain ⟨refused', P, recorded⟩ := post
      exact ⟨congrArg Except.error (refused.unique refused'), P.keeps, recorded⟩
    | ok p =>
      obtain ⟨size, L', c, s, valid, handed, _⟩ := post
      exact absurd handed (refused.not_handed valid)
  ranks := by
    refine .of_sublist (.refl _) ?_
    unfold asking
    cases refused with
    | size invalid => rw [invalid]; rfl
    | mapping valid full place =>
      rw [valid]
      unfold handing
      dsimp only
      rw [full, place]
      rfl
  numbers := .inl rfl

theorem allocate_decides (S : L.Sound rs) (n : Nat) :
    ∃ a L', L.Decides (Heap.allocate n) a (L.asking n) L' := by
  rcases handed_or_refuses S.toLaid n with ⟨size, c, s, L', valid, handed⟩ | ⟨failure, refused⟩
  · exact ⟨_, _, handed.decides S valid⟩
  · exact ⟨_, _, refused.decides S⟩

/-! ### Giving back -/

/-- A free block whose front was handed out leaves a sound ledger, as does a region that was mapped. -/
theorem Handed.sound (S : L.Sound rs) (valid : L.settings.blockSize n = .ok size)
    (handed : L.Handed size c s L') : ∃ rs', L'.Sound rs' := by
  obtain ⟨words, large, _, _⟩ := Settings.blockSize_eq_ok S.settings valid
  cases handed with
  | @reused xs ys b found blocks =>
    have fits : size ≤ b.size := by simpa using List.find?_some found
    have free := (S.mem_free_iff.1 (List.mem_of_find?_eq_some found)).2
    obtain ⟨rs₁, span, us, vs, rs₂, rfl, before, after⟩ := S.exists_region_around blocks
    exact ⟨_, Heap.take_sound S free words large fits before after⟩
  | mapped full place => exact ⟨_, Heap.adopt_sound S place words large⟩

theorem Handed.size_le (handed : L.Handed size c s L') : size ≤ c.size := by
  cases handed with
  | reused found => exact Block.size_front (by simpa using List.find?_some found)
  | mapped => exact Nat.le_refl size

theorem Handed.perm_used (S : L.Laid rs) (handed : L.Handed size c s L') :
    L'.used.Perm (c :: L.used) := by
  cases handed with
  | reused found blocks =>
    exact used_take blocks (S.mem_free_iff.1 (List.mem_of_find?_eq_some found)).2
  | mapped full place => exact used_adopt rfl

/-- Giving a block back takes no number. -/
theorem giveBack_decides (S : L.Sound rs) (hb : b ∈ L.used) : ∃ es L',
    L.Decides (Heap.giveBack b.addr) () es L' ∧ L'.nextId = L.nextId := by
  have used := (mem_used.1 hb).2
  obtain ⟨rs₁, span, ws, ls, ms, zs, rs₂, l, ns, rfl, free, run, ws_used, zs_used⟩ :=
    Heap.exists_run S hb
  generalize before : rs₁.flatMap Region.blocks ++ ws = xs
  generalize after : zs ++ rs₂.flatMap Region.blocks = ys
  have moved := fun E h K =>
    Heap.giveBack_moved (E := E) (h := h) S used free run ws_used zs_used before.symm after.symm K
  have ranks : L.Ranks (b.retaking l ns) (L.merge xs l ns ys) := by
    refine retaking_ranks S.toLaid ?_ used run
    rw [← before, ← after]
    exact S.blocks_eq
  by_cases gone : L.settings.retained < L.regions ∧ (l.joined ns).Fills ys
  · have shut : L.Ranks (.closing (l.joined ns) :: b.retaking l ns)
        ((L.merge xs l ns ys).shut xs (l.joined ns) ys) := ranks.trans shut_ranks
    refine ⟨_, _, ⟨fun E h K _ => (moved E h K).mono fun _ h' post => ?_, shut, .inl rfl⟩, rfl⟩
    rcases post with ⟨stays, _⟩ | ⟨_, _, M, log, _⟩
    · exact absurd gone stays
    · exact ⟨rfl, M.keeps, .of_log log rfl⟩
  · refine ⟨_, _, ⟨fun E h K _ => (moved E h K).mono fun _ h' post => ?_, ranks, .inl rfl⟩, rfl⟩
    rcases post with ⟨_, M, log⟩ | ⟨many, fills, _⟩
    · exact ⟨rfl, M.keeps, .of_log log rfl⟩
    · exact absurd ⟨many, fills⟩ gone

theorem free_decides (S : L.Sound rs) (hb : b ∈ L.used) : ∃ es L',
    L.Decides (Heap.free (some b.payload)) () es L' ∧ L'.nextId = L.nextId := by
  obtain ⟨es, L', given, same⟩ := giveBack_decides S hb
  refine ⟨es, L', ⟨fun E h K ids => ?_, given.ranks, given.numbers⟩, same⟩
  unfold Heap.free
  rw [Heap.yields_look_bind, id, Heap.yields_lift_bind (Heap.ofPayload_eq K S (mem_used.1 hb).1)]
  exact given.yields E h K ids

/-! ### Resizing -/

/-- Bytes written to the payload of a block are no matter of the ledger. -/
theorem Laid.keeps_setBytes {h : Heap} {bytes : List UInt8} (S : L.Laid rs) (K : h.Keeps L)
    (hb : b ∈ L.blocks) (room : bytes.length ≤ b.size) :
    (h.withMemory (h.memory.setBytes b.payload bytes)).Keeps L :=
  K.of_bytes fun i header =>
    Heap.sameBut_setBytes room i fun inside => S.payload_clear hb inside.1 inside.2 header

/-- A block moves if another one is handed out, and stays if not. -/
theorem relocate_decides (S : L.Sound rs) (hb : b ∈ L.used) (n : Nat) : ∃ a es L',
    L.Decides (Heap.relocate b.payload b.size n) a es L' := by
  rcases handed_or_refuses S.toLaid n with ⟨size, c, s, L₁, valid, handed⟩ | ⟨failure, refused⟩
  · obtain ⟨rs₁, S₁⟩ := handed.sound S valid
    have perm := handed.perm_used S.toLaid
    have enough := (Settings.blockSize_eq_ok S.settings valid).2.2.1
    have large : size ≤ c.size := handed.size_le
    have hc := (mem_used.1 (perm.mem_iff.2 List.mem_cons_self)).1
    obtain ⟨es, L', freed, same⟩ := free_decides S₁ (perm.mem_iff.2 (List.mem_cons_of_mem c hb))
    have got : L.Decides (Heap.malloc n) (some c.payload) (L.asking n) L₁ :=
      (handed.decides S valid).map Except.toOption
    refine ⟨some c.payload, es ++ L.asking n, L', got.bind ?_ (.inr same)⟩
    refine .write_bind (fun h K => S₁.toLaid.keeps_setBytes K hc ?_)
      (freed.map fun _ => some c.payload)
    simp [Memory.bytes]
    omega
  · have refused : L.Decides (Heap.malloc n) none (L.asking n) L :=
      (refused.decides S).map Except.toOption
    exact ⟨none, _, L, refused.bind (.pure none) (.inr rfl)⟩

/-- A block grows where it is, or stays with all the rest. -/
theorem growInPlace_decides (S : L.Sound rs) (hb : b ∈ L.used) (words : size % wordSize = 0) :
    ∃ grew es L', L.Decides (Heap.growInPlace b.addr size) grew es L' ∧ (grew = false → L' = L) := by
  obtain ⟨mem, used⟩ := mem_used.1 hb
  obtain ⟨xs, ys, blocks⟩ := List.append_of_mem mem
  by_cases grows : ∃ next zs, ys = next :: zs ∧ next.Mergeable b.region ∧
      size ≤ (b.joined [next]).size
  · obtain ⟨next, zs, rfl, merge, fits⟩ := grows
    have grown := Grown.intro blocks merge fits
    refine ⟨true, _, _, ⟨fun E h K ids => ?_, grow_ranks S.toLaid used, grown.nextId⟩, by simp⟩
    refine (Heap.growInPlace_moved K S hb blocks words ?_).mono fun answer h' post => ?_
    · intro c L' again ne
      obtain rfl := grown.unique S.toLaid again
      exact ids ne
    · cases answer with
      | true =>
        obtain ⟨next', zs', e, _, _, M, recorded, _⟩ := post
        obtain ⟨rfl, rfl⟩ := List.cons.inj e
        exact ⟨rfl, M.keeps, recorded⟩
      | false => exact absurd fits (Nat.not_le.2 (post.2 next zs rfl merge))
  · refine ⟨false, [], L, ⟨fun E h K _ => ?_, fun _ R => R, .inl rfl⟩, fun _ => rfl⟩
    refine (Heap.growInPlace_moved K S hb blocks words ?_).mono fun answer h' post => ?_
    · rintro c L' ⟨blocks', merge, fits⟩
      exact absurd ⟨_, _, (S.around_eq blocks blocks').2, merge, fits⟩ grows
    · cases answer with
      | true =>
        obtain ⟨next, zs, e, merge, fits, _⟩ := post
        exact absurd ⟨next, zs, e, merge, fits⟩ grows
      | false =>
        obtain ⟨rfl, _⟩ := post
        exact ⟨rfl, K, .of_log rfl rfl⟩

theorem realloc_decides (S : L.Sound rs) (hb : b ∈ L.used) (n : Nat) : ∃ a es L',
    L.Decides (Heap.realloc (some b.payload) n) a es L' := by
  by_cases zero : n = 0
  · obtain ⟨es, L', freed, _⟩ := free_decides S hb
    refine ⟨none, es, L', ?_⟩
    unfold Heap.realloc
    dsimp only
    rw [if_pos zero]
    exact freed.map fun _ => none
  -- what is read before anything is done
  have opened : ∀ {a es L'} wanted, L.settings.blockSize n = .ok wanted →
      L.Decides (if n ≤ b.size then pure (some b.payload) else do
        if ← Heap.growInPlace b.addr wanted then
          return some b.payload
        Heap.relocate b.payload b.size n) a es L' →
      L.Decides (Heap.realloc (some b.payload) n) a es L' := by
    intro a es L' wanted valid rest
    refine ⟨fun E h K ids => ?_, rest.ranks, rest.numbers⟩
    rw [Heap.yields_realloc K S hb zero valid]
    exact rest.yields E h K ids
  cases valid : L.settings.blockSize n with
  | error failure =>
    refine ⟨none, [], L, ⟨fun E h K _ => ?_, fun _ R => R, .inl rfl⟩⟩
    unfold Heap.realloc
    dsimp only
    rw [if_neg zero, Heap.yields_get_bind, K.settings, valid]
    exact ⟨rfl, K, .of_log rfl rfl⟩
  | ok wanted =>
    by_cases room : n ≤ b.size
    · refine ⟨some b.payload, [], L, opened wanted valid ?_⟩
      rw [if_pos room]
      exact .pure _
    have words := (Settings.blockSize_eq_ok S.settings valid).1
    obtain ⟨grew, es, L₁, tried, stays⟩ := growInPlace_decides S hb words
    cases grew with
    | true =>
      refine ⟨some b.payload, [] ++ es, L₁, opened wanted valid ?_⟩
      rw [if_neg room]
      exact tried.bind (.pure _) (.inr rfl)
    | false =>
      obtain rfl := stays rfl
      obtain ⟨a, fs, L', moved⟩ := relocate_decides S hb n
      refine ⟨a, fs ++ es, L', opened wanted valid ?_⟩
      rw [if_neg room]
      exact tried.bind moved (.inl rfl)

/-! ### Calls -/

theorem malloc_decides (S : L.Sound rs) (n : Nat) : ∃ a es L', L.Decides (Heap.malloc n) a es L' := by
  obtain ⟨a, L', asked⟩ := allocate_decides S n
  exact ⟨_, _, _, asked.map Except.toOption⟩

theorem allocateZeroed_decides (S : L.Sound rs) (count n : Nat) : ∃ a es L',
    L.Decides (Heap.allocateZeroed count n) a es L' := by
  unfold Heap.allocateZeroed
  dsimp only
  split
  · exact ⟨_, _, _, .pure _⟩
  split
  · exact ⟨_, _, _, .pure _⟩
  rcases handed_or_refuses S.toLaid (count * n) with
    ⟨size, c, s, L', valid, handed⟩ | ⟨failure, refused⟩
  · obtain ⟨rs', S'⟩ := handed.sound S valid
    have enough := (Settings.blockSize_eq_ok S.settings valid).2.2.1
    have large : size ≤ c.size := handed.size_le
    have hc := (mem_used.1 ((handed.perm_used S.toLaid).mem_iff.2 List.mem_cons_self)).1
    refine ⟨.ok c.payload, [] ++ L.asking _, L', (handed.decides S valid).bind ?_ (.inr rfl)⟩
    refine .write_bind (fun h K => S'.toLaid.keeps_setBytes K hc ?_) (.pure _)
    rw [List.length_replicate]
    omega
  · exact ⟨.error failure, _, L, (refused.decides S).bind (.pure _) (.inr rfl)⟩

/-- A legal call on a sound heap does what the ledger decides. -/
theorem perform_decides {call : Call} (S : L.Sound rs)
    (legal : ∀ p ∈ call.argument, ∃ b ∈ L.used, b.payload = p) :
    ∃ a es L', L.Decides call.perform a es L' := by
  cases call with
  | allocate n =>
    obtain ⟨a, L', asked⟩ := allocate_decides S n
    exact ⟨_, _, _, asked.map Except.toOption⟩
  | allocateZeroed count n =>
    obtain ⟨a, es, L', asked⟩ := allocateZeroed_decides S count n
    exact ⟨_, _, _, asked.map Except.toOption⟩
  | malloc n => exact malloc_decides S n
  | calloc count n =>
    obtain ⟨a, es, L', asked⟩ := allocateZeroed_decides S count n
    exact ⟨_, _, _, asked.map Except.toOption⟩
  | free pointer =>
    cases pointer with
    | none => exact ⟨none, [], L, .pure none⟩
    | some p =>
      obtain ⟨b, hb, rfl⟩ := legal p rfl
      obtain ⟨es, L', freed, _⟩ := free_decides S hb
      exact ⟨none, _, _, freed.map fun _ => none⟩
  | realloc pointer n =>
    cases pointer with
    | none => exact malloc_decides S n
    | some p =>
      obtain ⟨b, hb, rfl⟩ := legal p rfl
      exact realloc_decides S hb n

end Ledger

/-- What the client's call answered, left and recorded is what the ledger decided. -/
theorem Tenancy.Held.decided {t u : Tenancy} {L L' : Ledger} {c : Call} {a answer : Option Nat}
    {es : List Event} (H : t.Held L) (D : L.Decides c.perform answer es L')
    (step : Step t (.call c a) u) : a = answer ∧ u.Held L' ∧ u.heap.log = es ++ t.heap.log := by
  obtain ⟨L₁, H₁⟩ := H.step step
  cases step with
  | call _ run =>
    obtain ⟨rfl, keeps, recorded⟩ :=
      (D.yields (fun _ => True) _ H.keeps fun _ => .inr trivial).of_ok run
    obtain rfl := H₁.keeps.unique keeps
    exact ⟨rfl, H₁, recorded.log⟩

end RegionHeap
