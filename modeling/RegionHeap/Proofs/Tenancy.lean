import RegionHeap.Proofs.Sound.Calls

/-!
# Tenancies

A client and its heap: the calls that the client makes, what it holds, and what it stores there. Between
calls the operating system may change its mind about where mappings go and which ones it refuses.

* `Tenancy.Step`, `Tenancy.Run` — one thing that happens, and everything that happens.
* `Heap.perform_served` — what a legal call does on a sound heap, and that it returns.
* `Tenancy.Held` — the blocks handed out are what the client holds, each with room for what was asked.
* `Held.yields` — no legal call is stopped before the numbers of blocks are used up.
* `Held.step`, `Held.run` — whatever happens, that goes on.
-/

set_option autoImplicit false

namespace RegionHeap

/-! ### Calls -/

/-- A call that a client makes. -/
inductive Call where
  | allocate (size : Nat)
  | allocateZeroed (count size : Nat)
  | malloc (size : Nat)
  | calloc (count size : Nat)
  | free (pointer : Option Nat)
  | realloc (pointer : Option Nat) (size : Nat)
  deriving DecidableEq, Repr

namespace Call

/-- The pointer that the call names. -/
def argument : Call → Option Nat
  | free pointer | realloc pointer _ => pointer
  | _ => none

/-- The bytes that the call asks for. -/
def bytes : Call → Nat
  | allocate size | malloc size | realloc _ size => size
  | allocateZeroed count size | calloc count size => count * size
  | free _ => 0

/-- Makes the call. The answer is a pointer or null. -/
def perform : Call → HeapM (Option Nat)
  | allocate size => do return (← Heap.allocate size).toOption
  | allocateZeroed count size => do return (← Heap.allocateZeroed count size).toOption
  | malloc size => Heap.malloc size
  | calloc count size => Heap.calloc count size
  | free pointer => do
    Heap.free pointer
    return none
  | realloc pointer size => Heap.realloc pointer size

/-- The pointer that is dead after the call, given its answer. A block that was resized is handed out
anew, be it at the same place. -/
def released (answer : Option Nat) : Call → Option Nat
  | free pointer => pointer
  | realloc pointer size => if size = 0 ∨ answer.isSome then pointer else none
  | _ => none

end Call

/-- What a client was handed: a pointer and the bytes that it asked for. -/
structure Grant where
  pointer : Nat
  bytes : Nat
  deriving DecidableEq, Repr

/-- What the header before the pointer says. -/
def Grant.block (g : Grant) (h : Heap) : Block :=
  Block.read h.memory (g.pointer - Header.length)

/-- What a client holds after a call, given the answer and what it held before. -/
def Call.settle (call : Call) (answer : Option Nat) (live : List Grant) : List Grant :=
  (answer.map fun q => Grant.mk q call.bytes).toList ++
    live.filter fun g => some g.pointer ≠ call.released answer

/-- What a call did: the blocks of the exchange are the answer and the pointer that is dead. -/
structure Call.Served (call : Call) (answer : Option Nat) (x : Exchange) (h h' : Heap) : Prop where
  given : x.given.map Block.payload = answer
  taken : x.taken.map Block.payload = call.released answer
  room : ∀ c ∈ x.given, call.bytes ≤ c.size
  contents : ∀ b ∈ x.taken, ∀ c ∈ x.given, ∀ i, i < b.size → i < call.bytes →
    h'.memory.byte (c.payload + i) = h.memory.byte (b.payload + i)

namespace Call.Served

variable {call : Call} {x : Exchange} {h h' : Heap} {c : Block} {s : Option Span}

theorem nothing (released : call.released none = none) : call.Served none {} h h' :=
  ⟨rfl, released.symm, by simp, by simp⟩

theorem handed (released : call.released (some c.payload) = none) (room : call.bytes ≤ c.size) :
    call.Served (some c.payload) { given := some c, mapped := s } h h' := by
  refine ⟨rfl, released.symm, ?_, by simp⟩
  rintro c' ⟨⟩
  exact room

end Call.Served

/-- The call takes a number for a block that it makes. -/
def Call.Makes (L : Ledger) : Call → Prop
  | .allocate n | .malloc n | .realloc none n => L.Makes n
  | .allocateZeroed count n | .calloc count n => count * n ≠ 0 ∧ L.Makes (count * n)
  | .realloc (some p) n => n ≠ 0 ∧ ∃ b ∈ L.used, b.payload = p ∧ L.Remakes b n
  | .free _ => False

/-- The fault says that there is no number left for a block, and there is none. -/
def Heap.Spent (h : Heap) (fault : Fault) : Prop :=
  fault = .additionOverflow ∧ wordLimit ≤ h.nextId + 1

namespace Heap

variable {E : Fault → Prop} {h : Heap} {L : Ledger} {rs : List Region}

/-- A legal call on a sound heap returns, unless there is no number left for a block, and does what it
should. -/
theorem perform_served {call : Call} (K : h.Keeps L) (S : L.Sound rs)
    (legal : ∀ p ∈ call.argument, ∃ b ∈ L.used, b.payload = p)
    (ids : call.Makes L → L.nextId + 1 < wordLimit ∨ E .additionOverflow) :
    Yields E call.perform h fun answer h' => ∃ L' x, L.Counts (call.Makes L) L' ∧
      Passed h L x h' L' ∧ call.Served answer x h h' := by
  have idle : Passed h L {} h L := .of_moved S (.refl K fun _ => False) fun _ _ _ _ _ quiet => quiet
  cases call with
  | allocate n =>
    refine (allocate_passed K S ids).bind fun answer h' post => ?_
    cases answer with
    | error failure => exact ⟨L, {}, .nothing post.1, post.2, .nothing rfl⟩
    | ok p =>
      obtain ⟨L', c, s, counts, P, rfl, room⟩ := post
      exact ⟨L', _, counts, P, .handed rfl room⟩
  | allocateZeroed count n =>
    refine (allocateZeroed_passed K S fun some makes => ids ⟨some, makes⟩).bind fun answer h' post => ?_
    cases answer with
    | error failure => exact ⟨L, {}, .nothing post.1, post.2, .nothing rfl⟩
    | ok p =>
      obtain ⟨L', c, s, counts, P, rfl, room, _⟩ := post
      exact ⟨L', _, counts, P, .handed rfl room⟩
  | malloc n =>
    refine (malloc_passed K S ids).mono fun answer h' post => ?_
    cases answer with
    | none => exact ⟨L, {}, .nothing post.1, post.2, .nothing rfl⟩
    | some p =>
      obtain ⟨L', c, s, counts, P, rfl, room⟩ := post
      exact ⟨L', _, counts, P, .handed rfl room⟩
  | calloc count n =>
    refine (calloc_passed K S fun some makes => ids ⟨some, makes⟩).mono fun answer h' post => ?_
    cases answer with
    | none => exact ⟨L, {}, .nothing post.1, post.2, .nothing rfl⟩
    | some p =>
      obtain ⟨L', c, s, counts, P, rfl, room, _⟩ := post
      exact ⟨L', _, counts, P, .handed rfl room⟩
  | free pointer =>
    cases pointer with
    | none => exact ⟨L, {}, .nothing id, idle, .nothing rfl⟩
    | some p =>
      obtain ⟨b, hb, rfl⟩ := legal p rfl
      refine (free_passed K S hb).bind fun _ h' post => ?_
      obtain ⟨L', u, P, number, _⟩ := post
      exact yields_pure.2 ⟨L', _, ⟨False.elim, fun _ => number⟩, P, ⟨rfl, rfl, by simp, by simp⟩⟩
  | realloc pointer n =>
    cases pointer with
    | none =>
      refine (malloc_passed K S ids).mono fun answer h' post => ?_
      cases answer with
      | none => exact ⟨L, {}, .nothing post.1, post.2, .nothing (by simp [Call.released])⟩
      | some p =>
        obtain ⟨L', c, s, counts, P, rfl, room⟩ := post
        exact ⟨L', _, counts, P, .handed (by simp [Call.released]) room⟩
    | some p =>
      obtain ⟨b, hb, rfl⟩ := legal p rfl
      have makes : Call.Makes L (.realloc (some b.payload) n) ↔ n ≠ 0 ∧ L.Remakes b n := by
        refine and_congr_right fun _ => ⟨?_, fun remakes => ⟨b, hb, rfl, remakes⟩⟩
        rintro ⟨c, hc, e, remakes⟩
        rwa [← S.payload_inj (Ledger.mem_used.1 hc).1 (Ledger.mem_used.1 hb).1 e]
      refine (realloc_passed K S hb fun some remakes => ids (makes.2 ⟨some, remakes⟩)).mono
        fun answer h' post => ?_
      rw [← makes] at post
      cases answer with
      | none =>
        obtain ⟨L', u, counts, P⟩ := post
        refine ⟨L', _, counts, P, ⟨rfl, ?_, by simp, by simp⟩⟩
        by_cases zero : n = 0 <;> simp [Call.released, zero]
      | some q =>
        obtain ⟨_, L', c, s, u, counts, P, rfl, room, same⟩ := post
        refine ⟨L', _, counts, P, ⟨rfl, by simp [Call.released], ?_, ?_⟩⟩
        · rintro c' ⟨⟩
          exact room
        · rintro b' ⟨⟩ c' ⟨⟩
          exact same

end Heap

/-! ### Steps and runs -/

/-- A heap with what its client holds, latest first. -/
structure Tenancy where
  heap : Heap
  live : List Grant

/-- Something that happens to a heap. -/
inductive Action where
  /-- The client makes a call and gets an answer. -/
  | call (call : Call) (answer : Option Nat)
  /-- The client stores bytes, counted from a pointer that it holds. -/
  | store (pointer offset : Nat) (bytes : List UInt8)
  /-- From now on mappings go where `place` puts them. -/
  | remap (place : Placement)

/-- What a client holds after an action, given what it held before. -/
def Action.settle (live : List Grant) : Action → List Grant
  | call c answer => c.settle answer live
  | _ => live

/-- The memory after the client's own stores, as if nothing else were written. -/
def Action.stored (m : Memory) : Action → Memory
  | store pointer offset bytes => m.setBytes (pointer + offset) bytes
  | _ => m

/-- The ledger of a heap that was just made. -/
def Ledger.empty (settings : Settings) (place : Placement) : Ledger :=
  ⟨settings, place, [], [], [], 0, 0⟩

namespace Tenancy

/-- A heap that was just made, none of which is handed out. -/
def opened (settings : Settings) (place : Placement) : Tenancy :=
  ⟨Heap.ofSettings settings place, []⟩

/-- The call names no pointer but null and those that the client holds. -/
def Legal (t : Tenancy) (call : Call) : Prop :=
  ∀ p ∈ call.argument, ∃ g ∈ t.live, g.pointer = p

/-- One thing that happens: a legal call that returns, a store within what the client holds, or another
lawful choice of places for mappings. -/
inductive Step : Tenancy → Action → Tenancy → Prop
  | call {t : Tenancy} {call : Call} {answer : Option Nat} {heap : Heap} (legal : t.Legal call)
      (run : call.perform t.heap = .ok answer heap) :
      Step t (.call call answer) ⟨heap, call.settle answer t.live⟩
  | store {t : Tenancy} {g : Grant} {offset : Nat} {bytes : List UInt8} (held : g ∈ t.live)
      (within : offset + bytes.length ≤ g.bytes) :
      Step t (.store g.pointer offset bytes)
        ⟨t.heap.withMemory (t.heap.memory.setBytes (g.pointer + offset) bytes), t.live⟩
  | remap {t : Tenancy} {place : Placement} (lawful : place.Lawful) :
      Step t (.remap place) ⟨{ t.heap with space := { t.heap.space with place } }, t.live⟩

/-- Everything that happens, in order. -/
inductive Run : Tenancy → List Action → Tenancy → Prop
  | nil {t : Tenancy} : Run t [] t
  | cons {t u v : Tenancy} {a : Action} {as : List Action} (step : Step t a u) (rest : Run u as v) :
      Run t (a :: as) v

/-- What is held depends on the actions alone. -/
theorem Run.live_eq {t u : Tenancy} {as : List Action} (run : Run t as u) :
    u.live = as.foldl Action.settle t.live := by
  induction run with
  | nil => rfl
  | cons step _ ih =>
    rw [ih, List.foldl_cons]
    cases step <;> rfl

/-- A run comes to every point on its way. -/
theorem Run.of_append {t v : Tenancy} {as bs : List Action} (run : Run t (as ++ bs) v) :
    ∃ u, Run t as u ∧ Run u bs v := by
  induction as generalizing t with
  | nil => exact ⟨t, .nil, run⟩
  | cons a as ih =>
    cases run with
    | cons step rest =>
      obtain ⟨u, before, after⟩ := ih rest
      exact ⟨u, .cons step before, after⟩

/-- What happens after a run makes a longer one. -/
theorem Run.append {t u v : Tenancy} {as bs : List Action} (run : Run t as u) (later : Run u bs v) :
    Run t (as ++ bs) v := by
  induction run with
  | nil => exact later
  | cons step _ ih => exact .cons step (ih later)

instance (t : Tenancy) (call : Call) : Decidable (t.Legal call) :=
  match h : call.argument with
  | none => isTrue fun p hp => by simp [h] at hp
  | some p => decidable_of_iff (∃ g ∈ t.live, g.pointer = p) (by simp [Legal, h])

/-- What becomes of a tenancy when the given actions happen, unless one of them cannot happen or a call
has another answer. -/
def replay (t : Tenancy) : List Action → Option Tenancy
  | [] => some t
  | .call call answer :: as =>
    if t.Legal call then
      match call.perform t.heap with
      | .ok given heap =>
        if given = answer then replay ⟨heap, call.settle answer t.live⟩ as else none
      | .error _ _ => none
    else none
  | .store pointer offset bytes :: as =>
    if ∃ g ∈ t.live, g.pointer = pointer ∧ offset + bytes.length ≤ g.bytes then
      replay ⟨t.heap.withMemory (t.heap.memory.setBytes (pointer + offset) bytes), t.live⟩ as
    else none
  | .remap _ :: _ => none

theorem run_of_replay {t u : Tenancy} {as : List Action} (h : t.replay as = some u) :
    Run t as u := by
  induction as generalizing t with
  | nil =>
    obtain rfl : t = u := by simpa [replay] using h
    exact .nil
  | cons a as ih =>
    cases a with
    | call call answer =>
      unfold replay at h
      split at h
      · next legal =>
        split at h
        · next given heap run =>
          split at h
          · next same =>
            subst same
            exact .cons (.call legal run) (ih h)
          · cases h
        · cases h
      · cases h
    | store pointer offset bytes =>
      unfold replay at h
      split at h
      · next held =>
        obtain ⟨g, hg, rfl, within⟩ := held
        exact .cons (.store hg within) (ih h)
      · cases h
    | remap place => cases h

/-- What holds after all runs that do the given actions holds after one, if they can be replayed. -/
theorem exists_of_replay {t : Tenancy} {as : List Action} {P : Tenancy → Prop}
    (played : (t.replay as).isSome = true) (every : ∀ u, Run t as u → P u) :
    ∃ u, Run t as u ∧ P u := by
  obtain ⟨u, e⟩ := Option.isSome_iff_exists.1 played
  have run := run_of_replay e
  exact ⟨u, run, every u run⟩

/-- What is more, the replay may be asked what it ended with. -/
theorem exists_of_replay_where {t : Tenancy} {as : List Action} {q : Tenancy → Bool}
    {P : Tenancy → Prop} (played : (t.replay as).any q = true)
    (every : ∀ u, Run t as u → q u = true → P u) : ∃ u, Run t as u ∧ P u := by
  obtain ⟨u, e, hu⟩ := (Option.any_eq_true _ _).1 played
  have run := run_of_replay e
  exact ⟨u, run, every u run hu⟩

/-- What holds after all runs that do the given actions and then others holds after one. -/
theorem exists_of_replay_append {t : Tenancy} {as bs : List Action} {P : Tenancy → Tenancy → Prop}
    (played : (t.replay (as ++ bs)).isSome = true)
    (every : ∀ u v, Run t as u → Run u bs v → P u v) :
    ∃ u v, Run t as u ∧ Run u bs v ∧ P u v := by
  obtain ⟨v, e⟩ := Option.isSome_iff_exists.1 played
  obtain ⟨u, run, later⟩ := (run_of_replay e).of_append
  exact ⟨u, v, run, later, every u v run later⟩

/-- The client holds exactly the blocks that are handed out, each with room for what was asked. -/
structure Held (t : Tenancy) (L : Ledger) : Prop where
  keeps : t.heap.Keeps L
  sound : ∃ rs, L.Sound rs
  grants : (t.live.map Grant.pointer).Perm (L.used.map Block.payload)
  room : ∀ g ∈ t.live, ∀ b ∈ L.used, b.payload = g.pointer → g.bytes ≤ b.size

namespace Held

variable {t u : Tenancy} {L L' : Ledger} {b c : Block} {g : Grant}

theorem payload_inj (H : t.Held L) (hb : b ∈ L.used) (hc : c ∈ L.used)
    (e : b.payload = c.payload) : b = c := by
  apply H.keeps.eq_of_addr (Ledger.mem_used.1 hb).1 (Ledger.mem_used.1 hc).1
  exact Nat.add_right_cancel e

theorem nodup_used (H : t.Held L) : L.used.Nodup :=
  H.keeps.nodup.filter _

/-- As many blocks are handed out as the client holds pointers. -/
theorem length_used (H : t.Held L) : L.used.length = t.live.length := by
  have count := H.grants.length_eq
  rw [List.length_map, List.length_map] at count
  exact count.symm

/-- Behind a pointer that the client holds is a block that is handed out. -/
theorem exists_block (H : t.Held L) (hg : g ∈ t.live) :
    ∃ b ∈ L.used, b.payload = g.pointer ∧ g.bytes ≤ b.size := by
  have := H.grants.mem_iff.1 (List.mem_map_of_mem hg)
  obtain ⟨b, hb, e⟩ := List.mem_map.1 this
  exact ⟨b, hb, e, H.room g hg b hb e⟩

/-- The header before a pointer says what the block behind the pointer is. -/
theorem block_eq (H : t.Held L) (hb : b ∈ L.used) (e : b.payload = g.pointer) :
    g.block t.heap = b := by
  have back : g.pointer - Header.length = b.addr := by
    rw [← e]
    exact Nat.add_sub_cancel _ _
  unfold Grant.block
  rw [back]
  exact H.keeps.headers b (Ledger.mem_used.1 hb).1

/-- The header before a pointer that the client holds is the one of its block. -/
theorem block_held (H : t.Held L) (hg : g ∈ t.live) :
    g.block t.heap ∈ L.used ∧ (g.block t.heap).payload = g.pointer ∧
      g.bytes ≤ (g.block t.heap).size := by
  obtain ⟨b, hb, e, room⟩ := H.exists_block hg
  rw [H.block_eq hb e]
  exact ⟨hb, e, room⟩

theorem legal_blocks (H : t.Held L) {call : Call} (legal : t.Legal call) :
    ∀ p ∈ call.argument, ∃ b ∈ L.used, b.payload = p := by
  intro p hp
  obtain ⟨g, hg, rfl⟩ := legal p hp
  obtain ⟨b, hb, e, _⟩ := H.exists_block hg
  exact ⟨b, hb, e⟩

/-- The pointers that a client holds after a call. -/
theorem pointers_settle (call : Call) (answer : Option Nat) (live : List Grant) :
    (call.settle answer live).map Grant.pointer = answer.toList ++
      (live.map Grant.pointer).filter fun p => some p ≠ call.released answer := by
  unfold Call.settle
  rw [List.map_append, List.filter_map]
  cases answer <;> rfl

/-- Giving back takes one pointer out of those of the blocks that are handed out. -/
theorem filter_payloads (H : t.Held L) {taken : Option Block} {rest : List Block}
    (perm : L.used.Perm (taken.toList ++ rest)) :
    ((L.used.map Block.payload).filter fun p => some p ≠ taken.map Block.payload).Perm
      (rest.map Block.payload) := by
  have nodup := perm.nodup_iff.1 H.nodup_used
  refine ((perm.map Block.payload).filter _).trans ?_
  rw [List.map_append, List.filter_append]
  have none : (taken.toList.map Block.payload).filter (fun p => some p ≠ taken.map Block.payload) =
      [] := by
    cases taken <;> simp
  have all : (rest.map Block.payload).filter (fun p => some p ≠ taken.map Block.payload) =
      rest.map Block.payload := by
    rw [List.filter_eq_self]
    intro p hp
    obtain ⟨c, hc, rfl⟩ := List.mem_map.1 hp
    rw [decide_eq_true_eq]
    intro e
    obtain ⟨b, hb, e⟩ := Option.map_eq_some_iff.1 e.symm
    have hb := Option.mem_toList.2 hb
    have same := H.payload_inj (perm.mem_iff.2 (List.mem_append_left _ hb))
      (perm.mem_iff.2 (List.mem_append_right _ hc)) e
    exact (List.nodup_append.1 nodup).2.2 b hb c hc same
  rw [none, all, List.nil_append]

/-- What is held after a call. -/
theorem served {call : Call} {answer : Option Nat} {x : Exchange} {h' : Heap} (H : t.Held L)
    (P : Heap.Passed t.heap L x h' L') (served : call.Served answer x t.heap h') :
    Held ⟨h', call.settle answer t.live⟩ L' := by
  obtain ⟨rest, old, new⟩ := P.used
  have same : ∀ b ∈ L'.used, ∀ c ∈ L'.used, b.payload = c.payload → b = c := by
    intro b hb c hc e
    apply P.keeps.eq_of_addr (Ledger.mem_used.1 hb).1 (Ledger.mem_used.1 hc).1
    exact Nat.add_right_cancel e
  refine ⟨P.keeps, P.sound, ?_, ?_⟩
  · rw [pointers_settle, ← served.taken, ← served.given]
    have kept := (H.grants.filter fun p => some p ≠ x.taken.map Block.payload).trans
      (H.filter_payloads old)
    refine (kept.append_left _).trans ?_
    refine List.Perm.trans ?_ (new.map Block.payload).symm
    rw [List.map_append]
    cases x.given <;> exact .refl _
  · intro g hg b hb e
    rcases List.mem_append.1 hg with hg | hg
    · obtain ⟨q, hq, rfl⟩ := Option.map_eq_some_iff.1 (Option.mem_toList.1 hg)
      rw [← served.given] at hq
      obtain ⟨c, hc, rfl⟩ := Option.map_eq_some_iff.1 hq
      rw [same b hb c (P.given_used hc) e]
      exact served.room c hc
    · obtain ⟨hg, kept⟩ := List.mem_filter.1 hg
      obtain ⟨c, hc, e', room⟩ := H.exists_block hg
      rw [← served.taken, decide_eq_true_eq] at kept
      have survives := P.survives hc fun hx => kept (by rw [hx, Option.map_some, e'])
      rwa [same b hb c survives (e.trans e'.symm)]

/-! ### Steps -/

/-- There is a number left for a block, or the lack of one may stop a call. -/
theorem left_or_spent (H : t.Held L) :
    L.nextId + 1 < wordLimit ∨ t.heap.Spent .additionOverflow := by
  rw [← H.keeps.nextId]
  exact (Nat.lt_or_ge _ _).imp_right fun spent => ⟨rfl, spent⟩

/-- A legal call returns and does what it should, unless there is no number left for a block. -/
theorem yields {call : Call} (H : t.Held L) (legal : t.Legal call) :
    Heap.Yields t.heap.Spent call.perform t.heap fun answer heap =>
      ∃ L' x, Heap.Passed t.heap L x heap L' ∧ call.Served answer x t.heap heap := by
  obtain ⟨rs, S⟩ := H.sound
  refine (Heap.perform_served H.keeps S (H.legal_blocks legal) fun _ => H.left_or_spent).mono
    fun answer heap post => ?_
  obtain ⟨L', x, _, rest⟩ := post
  exact ⟨L', x, rest⟩

/-- A store within what the client holds is a write to the payload of its block. -/
theorem store_keeps {offset : Nat} {bytes : List UInt8} (H : t.Held L) (hg : g ∈ t.live)
    (within : offset + bytes.length ≤ g.bytes) :
    (t.heap.withMemory (t.heap.memory.setBytes (g.pointer + offset) bytes)).Keeps L := by
  obtain ⟨b, hb, e, room⟩ := H.exists_block hg
  obtain ⟨rs, S⟩ := H.sound
  apply H.keeps.of_bytes
  intro i header
  have outside : ¬ (b.payload ≤ i ∧ i < b.finish) :=
    fun inside => S.payload_clear (Ledger.mem_used.1 hb).1 inside.1 inside.2 header
  apply Memory.byte_setBytes_of_outside
  unfold Block.finish at outside
  omega

/-- Where mappings go is no matter of blocks. -/
theorem remap {place : Placement} (H : t.Held L) (lawful : place.Lawful) :
    Held ⟨{ t.heap with space := { t.heap.space with place } }, t.live⟩ { L with place } := by
  obtain ⟨rs, S⟩ := H.sound
  have K := H.keeps
  refine ⟨⟨K.settings, rfl, K.transfers, K.regions, K.nextId, K.spaced, K.headers, K.catalogue,
    K.listed, K.nodupFree, K.freeList, K.aligned⟩, ⟨rs, ?_⟩, H.grants, H.room⟩
  exact ⟨⟨S.settings, lawful, S.settled, S.spans, S.blocks, S.tiled, S.count, S.ids, S.id_lt, S.free,
    S.sorted⟩, S.merged⟩

/-- Whatever happens, the client goes on holding the blocks that are handed out. -/
theorem step {a : Action} (H : t.Held L) (s : Step t a u) : ∃ L', u.Held L' := by
  cases s with
  | call legal run =>
    obtain ⟨L', x, P, served⟩ := (H.yields legal).of_ok run
    exact ⟨L', H.served P served⟩
  | store held within => exact ⟨L, H.store_keeps held within, H.sound, H.grants, H.room⟩
  | remap lawful => exact ⟨_, H.remap lawful⟩

theorem run {as : List Action} (H : t.Held L) (r : Run t as u) : ∃ L', u.Held L' := by
  induction r generalizing L with
  | nil => exact ⟨L, H⟩
  | cons s _ ih =>
    obtain ⟨L', H'⟩ := H.step s
    exact ih H'

end Held

/-- Nothing is held of a heap that was just made. -/
theorem held_opened {settings : Settings} {place : Placement} (usable : settings.Usable)
    (lawful : place.Lawful) : (opened settings place).Held (.empty settings place) := by
  have spaced : Header.Spaced [] := ⟨by simp, List.Pairwise.nil⟩
  refine ⟨⟨rfl, rfl, rfl, rfl, rfl, spaced, by simp [Ledger.empty], Chain.holds_empty,
    by simp [Ledger.empty], by simp [Ledger.empty], Chain.holds_empty, by simp [Ledger.empty]⟩,
    ⟨[], ?_⟩, .refl _, by simp [opened]⟩
  exact ⟨⟨usable, lawful, .nil, rfl, rfl, by simp, rfl, by simp [Ledger.empty],
    by simp [Ledger.empty], .refl _, by simp [Ledger.empty]⟩, by simp⟩

/-- Whatever happens to a heap that was just made, its client holds the blocks that are handed out. -/
theorem Run.exists_held {settings : Settings} {place : Placement} {as : List Action} {t : Tenancy}
    (run : Run (opened settings place) as t) (built : settings.Built) (lawful : place.Lawful) :
    ∃ L, t.Held L :=
  (held_opened built.usable lawful).run run

end Tenancy

end RegionHeap
