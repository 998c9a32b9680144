import RegionHeap.Proofs.Contents

/-!
# Calls that fail

A call that answers with a failure or with the null pointer, and was not asked to give anything back,
has changed nothing but the log, however far it came: the size may be impossible, the free list may have
no room, nor the space beside the block, and the mapping may be refused. So it is for every heap, sound
or not.

* `reuse_none`, `growInPlace_false` — looking for room is only looking.
* `openRegion_refused` — a mapping that is refused leaves a line in the log.
* `perform_none` — a call that fails leaves the heap as it was.
* `absorb_across_regions`, `absorb_of_used` — two blocks that must not become one stay as they are.
* `Tenancy.failed_call_unchanged` — all of it, for a client and what it holds.
-/

set_option autoImplicit false

namespace RegionHeap

namespace Heap

variable {α β : Type} {h h' : Heap}

/-- Nothing has happened but, at most, that a refused mapping was recorded. -/
def Untouched (h h' : Heap) : Prop :=
  h' = h ∨ ∃ len cause, h' = h.logging (.mapFailed len cause)

theorem Untouched.forgetLog_eq (same : h.Untouched h') : h'.forgetLog = h.forgetLog := by
  rcases same with rfl | ⟨len, cause, rfl⟩ <;> rfl

theorem Untouched.memory_eq (same : h.Untouched h') : h'.memory = h.memory :=
  congrArg (fun h => h.memory) same.forgetLog_eq

/-! ### Calls on any heap -/

/-- Whatever a call does, it returns or is stopped. -/
theorem yields_any (call : HeapM α) : Yields (fun _ => True) call h fun _ _ => True := by
  unfold Yields
  split <;> trivial

/-- What follows a value that may be a fault, when any fault is admitted. -/
theorem yields_lift_bind_any {x : Except Fault β} {rest : β → HeapM α} {Q : α → Heap → Prop}
    (next : ∀ b, Yields (fun _ => True) (rest b) h Q) :
    Yields (fun _ => True) (liftM x >>= rest) h Q := by
  cases x with
  | error fault => exact yields_fault_bind rfl trivial
  | ok b => exact (yields_lift_bind rfl).2 (next b)

/-- A call that ends with an answer has that answer, whatever it does before. -/
theorem yields_bind_pure (call : HeapM β) (a : α) :
    Yields (fun _ => True) (call >>= fun _ => pure a) h fun answer _ => answer = a :=
  (yields_any call).bind fun _ _ _ => yields_pure.2 rfl

/-! ### Looking for room -/

/-- When the free list has no block that is large enough, nothing happens. -/
theorem reuse_none (size : Nat) : Yields (fun _ => True) (reuse size) h fun answer h' =>
    answer = none → h' = h := by
  unfold reuse
  rw [yields_get_bind]
  refine yields_lift_bind_any fun found => ?_
  cases found with
  | none => exact fun _ => rfl
  | some b =>
    refine (yields_any (unlinkFree b)).bind fun _ _ _ => ?_
    rw [yields_write_bind, yields_note_bind]
    refine (yields_bind_pure (discard (split b size)) (some b)).mono fun _ _ answer => ?_
    rw [answer]
    nofun

/-- When a block cannot grow where it is, nothing happens. -/
theorem growInPlace_false (b size : Nat) :
    Yields (fun _ => True) (growInPlace b size) h fun answer h' => answer = false → h' = h := by
  unfold growInPlace
  rw [yields_look_bind]
  dsimp only [id]
  split
  · exact fun _ => rfl
  · next next _ =>
    refine yields_lift_bind_any fun own => yields_lift_bind_any fun joint => ?_
    split
    · exact fun _ => rfl
    · refine (yields_any (absorb b next)).bind fun _ _ _ => ?_
      refine (yields_bind_pure (discard (split b size)) true).mono fun _ _ answer => ?_
      rw [answer]
      nofun

/-- When a region is not mapped, that is recorded and nothing else happens. -/
theorem openRegion_refused (size : Nat) :
    Yields (fun _ => True) (openRegion size) h fun answer h' =>
      ∀ failure, answer = .error failure → h.Untouched h' := by
  unfold openRegion
  refine yields_lift_bind_any fun len => ?_
  have mapping : Yields (fun _ => True) (acquire len) h fun answer h' =>
      ∀ failure, answer = .error failure → h.Untouched h' := by
    unfold acquire
    rw [yields_get_bind]
    cases h.space.map len with
    | ok mapped => exact yields_set_bind.2 (yields_pure.2 nofun)
    | error cause => exact yields_record_bind.2 (yields_pure.2 fun _ _ => .inr ⟨len, cause, rfl⟩)
  refine mapping.bind fun answer h₁ refused => ?_
  cases answer with
  | error failure => exact yields_pure.2 fun _ _ => refused failure rfl
  | ok start =>
    rw [yields_write_bind, yields_write_bind, yields_pure]
    nofun

/-! ### Calls that fail -/

/-- An allocation that fails has changed nothing. -/
theorem allocate_error (n : Nat) : Yields (fun _ => True) (allocate n) h fun answer h' =>
    ∀ failure, answer = .error failure → h.Untouched h' := by
  unfold allocate
  rw [yields_get_bind]
  cases h.settings.blockSize n with
  | error failure => exact yields_pure.2 fun _ _ => .inl rfl
  | ok size =>
    refine (reuse_none size).bind fun answer h₁ idle => ?_
    cases answer with
    | some b => exact yields_pure.2 nofun
    | none =>
      obtain rfl := idle rfl
      refine (openRegion_refused size).bind fun answer h₂ refused => ?_
      cases answer with
      | error failure => exact yields_pure.2 fun _ _ => refused failure rfl
      | ok b =>
        refine (yields_bind_pure (adopt b) (Except.ok (Header.payload b))).mono fun _ _ answer => ?_
        rw [answer]
        nofun

/-- An allocation of zeroed bytes that fails has changed nothing. -/
theorem allocateZeroed_error (count size : Nat) :
    Yields (fun _ => True) (allocateZeroed count size) h fun answer h' =>
      ∀ failure, answer = .error failure → h.Untouched h' := by
  unfold allocateZeroed
  dsimp only
  split
  · exact yields_pure.2 fun _ _ => .inl rfl
  split
  · exact yields_pure.2 fun _ _ => .inl rfl
  refine (allocate_error (count * size)).bind fun answer h₁ failed => ?_
  cases answer with
  | error failure => exact yields_pure.2 fun _ _ => failed failure rfl
  | ok p =>
    rw [yields_write_bind, yields_pure]
    nofun

/-- A failure becomes the null pointer. -/
theorem yields_toOption {call : HeapM (Except Failure Nat)}
    (failed : Yields (fun _ => True) call h fun answer h' =>
      ∀ failure, answer = .error failure → h.Untouched h') :
    Yields (fun _ => True) (do return (← call).toOption) h fun answer h' =>
      answer = none → h.Untouched h' := by
  refine failed.bind fun answer h₁ same => yields_pure.2 ?_
  cases answer with
  | error failure => exact fun _ => same failure rfl
  | ok p => nofun

/-- A request that fails has changed nothing. -/
theorem malloc_none (n : Nat) : Yields (fun _ => True) (malloc n) h fun answer h' =>
    answer = none → h.Untouched h' :=
  yields_toOption (allocate_error n)

/-- A block that finds no other place to move to stays where it is. -/
theorem relocate_none (p old size : Nat) : Yields (fun _ => True) (relocate p old size) h
    fun answer h' => answer = none → h.Untouched h' := by
  unfold relocate
  refine (malloc_none size).bind fun answer h₁ failed => ?_
  cases answer with
  | none => exact yields_pure.2 failed
  | some q =>
    rw [yields_write_bind]
    refine (yields_bind_pure (free (some p)) (some q)).mono fun _ _ answer => ?_
    rw [answer]
    nofun

/-- A block that is not resized, although it was not to be given back, is as it was. -/
theorem realloc_none {pointer : Option Nat} {size : Nat} (asked : pointer = none ∨ size ≠ 0) :
    Yields (fun _ => True) (realloc pointer size) h fun answer h' =>
      answer = none → h.Untouched h' := by
  unfold realloc
  cases pointer with
  | none => exact malloc_none size
  | some p =>
    dsimp only
    rw [if_neg (asked.resolve_left nofun), yields_get_bind]
    cases h.settings.blockSize size with
    | error failure => exact yields_pure.2 fun _ => .inl rfl
    | ok wanted =>
      dsimp only
      rw [yields_look_bind]
      refine yields_lift_bind_any fun b => ?_
      rw [yields_look_bind]
      split
      · exact yields_fault_bind (x := .error (.resizeOfFreed p)) rfl trivial
      rw [yields_look_bind]
      split
      · exact yields_pure.2 nofun
      refine (growInPlace_false b wanted).bind fun grown h₁ idle => ?_
      cases grown with
      | true => exact yields_pure.2 nofun
      | false =>
        obtain rfl := idle rfl
        exact relocate_none p _ size

/-- A call that answers with the null pointer, and gives nothing back, has changed nothing. -/
theorem perform_none {call : Call} (asked : call.released none = none) :
    Yields (fun _ => True) call.perform h fun answer h' => answer = none → h.Untouched h' := by
  cases call with
  | allocate n => exact yields_toOption (allocate_error n)
  | allocateZeroed count n => exact yields_toOption (allocateZeroed_error count n)
  | malloc n => exact malloc_none n
  | calloc count n => exact yields_toOption (allocateZeroed_error count n)
  | free pointer =>
    obtain rfl : pointer = none := asked
    exact yields_pure.2 fun _ => .inl rfl
  | realloc pointer n =>
    refine realloc_none ?_
    by_cases zero : n = 0
    · left
      simpa [Call.released, zero] using asked
    · exact .inr zero

/-! ### Blocks that must not become one -/

variable {left right : Nat}

/-- Two blocks of different regions stay as they are. -/
theorem absorb_across_regions
    (across : Header.region h.memory left ≠ Header.region h.memory right) :
    Stops (absorb left right) h (.mergeAcrossRegions left right) := by
  unfold absorb
  rw [stops_look_bind]
  dsimp only [id]
  rw [if_pos across]
  rfl

/-- A block in use, and the one before it, stay as they are. -/
theorem absorb_of_used (within : Header.region h.memory left = Header.region h.memory right)
    (used : Header.used h.memory right = true) :
    Stops (absorb left right) h (.mergeOfUsed right) := by
  unfold absorb
  rw [stops_look_bind]
  dsimp only [id]
  rw [if_neg (not_not_intro within), if_pos used]
  rfl

end Heap

namespace Tenancy

/-- **A call that fails changes nothing.** When a call answers with the null pointer, and was not asked
to give anything back, the heap is what it was before, its log aside: chains, headers, counters and every
byte. The client holds what it held, each pointer with its block and its bytes, the one that was to be
resized included. Blocks of different regions are not merged, nor is one that is in use, and that too
leaves the heap as it was. -/
theorem failed_call_unchanged :
    (∀ (t : Tenancy) (call : Call) (heap : Heap), call.perform t.heap = .ok none heap →
      call.released none = none →
        heap.forgetLog = t.heap.forgetLog ∧ call.settle none t.live = t.live ∧
          ∀ g ∈ t.live, g.Kept t.heap.memory t.heap heap) ∧
      ∀ (h : Heap) (left right : Nat),
        (Header.region h.memory left ≠ Header.region h.memory right →
          Heap.absorb left right h = .error (.mergeAcrossRegions left right) h) ∧
        (Header.region h.memory left = Header.region h.memory right →
          Header.used h.memory right = true →
            Heap.absorb left right h = .error (.mergeOfUsed right) h) := by
  constructor
  · intro t call heap failed asked
    have same := (Heap.perform_none asked).of_ok failed rfl
    refine ⟨same.forgetLog_eq, ?_, fun g _ => ⟨?_, ?_⟩⟩
    · unfold Call.settle
      rw [asked]
      exact List.filter_eq_self.2 fun _ _ => decide_eq_true nofun
    · rw [same.memory_eq]
    · unfold Grant.block
      rw [same.memory_eq]
  · intro h left right
    exact ⟨Heap.absorb_across_regions, Heap.absorb_of_used⟩

/-- The client holds a block in each of two regions. More bytes than can be mapped are asked for one of
them, and the two blocks are to become one. -/
theorem failed_call_unchanged_refused : ∃ t heap,
    Run (opened {} .standard)
        [.call (.malloc 500) (some 140737219915848),
          .call (.malloc 24) (some 140737219911752)] t ∧
      Call.perform (.realloc (some 140737219911752) (1 <<< 50)) t.heap = .ok none heap ∧
      ⟨140737219911752, 24⟩ ∈ t.live ∧ heap.forgetLog = t.heap.forgetLog ∧
      Grant.Kept ⟨140737219911752, 24⟩ t.heap.memory t.heap heap ∧
      Heap.absorb 140737219911680 140737219915776 t.heap =
        .error (.mergeAcrossRegions 140737219911680 140737219915776) t.heap ∧
      Heap.absorb 140737219915776 140737219915776 t.heap =
        .error (.mergeOfUsed 140737219915776) t.heap := by
  obtain ⟨t, run, refused, across, used⟩ : ∃ t,
      Run (opened {} .standard)
          [.call (.malloc 500) (some 140737219915848),
            .call (.malloc 24) (some 140737219911752)] t ∧
        Heap.answer? (Call.perform (.realloc (some 140737219911752) (1 <<< 50))) t.heap =
          some none ∧
        Header.region t.heap.memory 140737219911680 ≠
          Header.region t.heap.memory 140737219915776 ∧
        Header.used t.heap.memory 140737219915776 = true :=
    exists_of_replay_where (by decide +kernel) fun _ _ => of_decide_eq_true
  obtain ⟨heap, refused⟩ := Heap.answer?_eq_some.1 refused
  have held : ⟨140737219911752, 24⟩ ∈ t.live := by
    rw [run.live_eq]
    decide
  obtain ⟨same, _, kept⟩ := failed_call_unchanged.1 t _ heap refused (by decide)
  exact ⟨t, heap, run, refused, held, same, kept _ held, (failed_call_unchanged.2 _ _ _).1 across,
    (failed_call_unchanged.2 _ _ _).2 rfl used⟩

end Tenancy

end RegionHeap
