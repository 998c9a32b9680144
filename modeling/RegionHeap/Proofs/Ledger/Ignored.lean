import RegionHeap.Proofs.Ledger.Carve

/-!
# Bytes that a call ignores

To give a block back is to read and write headers. Whatever the bytes between the headers are, the same is
done, and they stay as they are.

* `Memory.Stamps` — a change of memory that writes given bytes, and none of `W`.
* `Heap.Ignores` — a call that reads no byte of `W` and writes none.
* `ignores_linkFree`, `ignores_unlinkFree`, `ignores_unlink` — the small steps.
* `ignores_absorb`, `ignores_absorbFree`, `ignores_coalesce` — merging.
* `ignores_closeRegion`, `ignores_giveBack` — giving back.
-/

set_option autoImplicit false

namespace RegionHeap

/-! ### Changes of memory -/

/-- The change writes the same bytes whatever the memory is, and no byte of `W`. -/
structure Memory.Stamps (W : Nat → Prop) (change : Memory → Memory) : Prop where
  alike : ∀ {m m' : Memory} {i : Nat}, m.byte i = m'.byte i → (change m).byte i = (change m').byte i
  spares : ∀ (m : Memory) {i : Nat}, W i → (change m).byte i = m.byte i

namespace Memory.Stamps

variable {W : Nat → Prop} {f g : Memory → Memory} {a n v : Nat}

theorem id : Stamps W fun m => m :=
  ⟨fun e => e, fun _ _ _ => rfl⟩

theorem comp (hf : Stamps W f) (hg : Stamps W g) : Stamps W fun m => g (f m) :=
  ⟨fun e => hg.alike (hf.alike e), fun m _ hi => (hg.spares (f m) hi).trans (hf.spares m hi)⟩

theorem setByte {v : UInt8} (off : ¬ W a) : Stamps W (·.setByte a v) where
  alike e := by rw [byte_setByte, byte_setByte, e]
  spares m i hi := byte_setByte_of_ne fun e => off (e ▸ hi)

theorem setWord (off : ∀ i, a ≤ i → i < a + wordSize → ¬ W i) : Stamps W (·.setWord a v) where
  alike e := by rw [Memory.setWord, Memory.setWord, byte_store, byte_store, e]
  spares m i hi := by
    apply byte_setWord_of_disjoint
    by_contra inside
    exact off i (by omega) (by omega) hi

end Memory.Stamps

namespace Chain

variable {W : Nat → Prop} {hook first last : Nat} {left right target : Option Nat} {xs : List Nat}
  (off : ∀ x ∈ xs, ∀ i, x + hook ≤ i → i < x + hook + 2 * wordSize → ¬ W i)

include off

theorem stamps_setPrev (hf : first ∈ xs) : Memory.Stamps W (setPrev hook · first target) :=
  .setWord fun i hi hi' => off first hf i hi (by omega)

theorem stamps_setNext (hf : first ∈ xs) : Memory.Stamps W (setNext hook · first target) :=
  .setWord fun i hi hi' => off first hf i (by omega) (by omega)

theorem stamps_setPrev? (hl : ∀ x ∈ left, x ∈ xs) : Memory.Stamps W (setPrev? hook · left target) := by
  cases left with
  | none => exact .id
  | some l => exact stamps_setPrev off (hl l rfl)

theorem stamps_setNext? (hl : ∀ x ∈ left, x ∈ xs) : Memory.Stamps W (setNext? hook · left target) := by
  cases left with
  | none => exact .id
  | some l => exact stamps_setNext off (hl l rfl)

variable (hl : ∀ x ∈ left, x ∈ xs) (hr : ∀ x ∈ right, x ∈ xs) (hf : first ∈ xs) (ht : last ∈ xs)

include hl hr hf ht

theorem stamps_wire : Memory.Stamps W (wire hook · left first last right) :=
  (((stamps_setPrev off hf).comp (stamps_setNext off ht)).comp (stamps_setNext? off hl)).comp
    (stamps_setPrev? off hr)

theorem stamps_unwire : Memory.Stamps W (unwire hook · left first last right) :=
  (((stamps_setNext? off hl).comp (stamps_setPrev? off hr)).comp (stamps_setPrev off hf)).comp
    (stamps_setNext off ht)

end Chain

/-! ### Calls -/

namespace Heap

variable {α β : Type} {W : Nat → Prop} {h : Heap}

/-- The call does not look at the bytes of `W` nor write them: whatever they are, it answers the same and
leaves the same heap but for these bytes, which stay. -/
def Ignores (W : Nat → Prop) (call : HeapM α) (h : Heap) : Prop :=
  ∀ m, h.memory.SameBut W m → ∀ a h', call h = .ok a h' →
    ∃ m', call (h.withMemory m) = .ok a (h'.withMemory m') ∧ h'.memory.SameBut W m' ∧
      ∀ i, W i → m'.byte i = m.byte i

namespace Ignores

variable {call : HeapM α} {rest : α → HeapM β}

theorem pure {a : α} : Ignores W (Pure.pure a : HeapM α) h := by
  rintro m same _ _ ⟨⟩
  exact ⟨m, rfl, same, fun _ _ => rfl⟩

/-- A call and what follows it. -/
theorem bind (first : Ignores W call h) (next : ∀ a h', call h = .ok a h' → Ignores W (rest a) h') :
    Ignores W (call >>= rest) h := by
  intro m same b h₂ run
  replace run : EStateM.bind call rest h = .ok b h₂ := run
  unfold EStateM.bind at run
  split at run
  · next a h₁ e =>
    obtain ⟨m₁, run₁, same₁, kept₁⟩ := first m same a h₁ e
    obtain ⟨m₂, run₂, same₂, kept₂⟩ := next a h₁ e m₁ same₁ b h₂ run
    refine ⟨m₂, ?_, same₂, fun i hi => (kept₂ i hi).trans (kept₁ i hi)⟩
    show EStateM.bind call rest (h.withMemory m) = _
    unfold EStateM.bind
    rw [run₁]
    exact run₂
  · cases run

/-- What follows is made on a heap that is as the call leaves it. -/
theorem bind_yields {P : α → Heap → Prop} (first : Ignores W call h)
    (post : Yields (fun _ => True) call h P) (next : ∀ a h', P a h' → Ignores W (rest a) h') :
    Ignores W (call >>= rest) h :=
  first.bind fun a h' run => next a h' (post.of_ok run)

/-- What is done depends on what was read, and that is not in `W`. -/
theorem look_bind {read : Memory → α}
    (same : ∀ m, h.memory.SameBut W m → rest (read m) = rest (read h.memory))
    (next : Ignores W (rest (read h.memory)) h) : Ignores W (look read >>= rest) h := by
  intro m hm b h₂ run
  obtain ⟨m', run', post⟩ := next m hm b h₂ run
  refine ⟨m', ?_, post⟩
  rw [← same m hm] at run'
  exact run'

theorem get_bind {rest : Heap → HeapM β}
    (same : ∀ m, h.memory.SameBut W m → rest (h.withMemory m) = rest h)
    (next : Ignores W (rest h) h) : Ignores W (get >>= rest) h := by
  intro m hm b h₂ run
  obtain ⟨m', run', post⟩ := next m hm b h₂ run
  refine ⟨m', ?_, post⟩
  rw [← same m hm] at run'
  exact run'

theorem lift_bind {x : Except Fault α} {a : α} (e : x = .ok a) (next : Ignores W (rest a) h) :
    Ignores W (liftM x >>= rest) h := by
  subst e
  exact next

/-- A step that changes memory and what is beside it, each whatever the other is. -/
theorem of_stamps {change : Memory → Memory} {h₁ : Heap} {a : α} (stamps : Memory.Stamps W change)
    (run : ∀ m, h.memory.SameBut W m →
      Yields (fun _ => False) call (h.withMemory m) fun b h' => b = a ∧ h' = h₁.withMemory (change m)) :
    Ignores W call h := by
  intro m same b h' e
  obtain ⟨rfl, rfl⟩ := (run h.memory (.refl W _)).of_ok e
  obtain ⟨_, _, e', rfl, rfl⟩ := (run m same).exists_ok
  exact ⟨change m, e', fun i hi => stamps.alike (same i hi), fun i hi => stamps.spares m hi⟩

theorem note {event : Block → Event} {b : Nat}
    (same : ∀ m, h.memory.SameBut W m → Block.read m b = Block.read h.memory b) :
    Ignores W (note event b) h := by
  refine @of_stamps _ W h _ _ (h.logging (event (Block.read h.memory b))) () .id fun m hm => ?_
  rw [← same m hm]
  exact yields_note.2 ⟨rfl, rfl⟩

theorem note_bind {event : Block → Event} {b : Nat} {rest : Unit → HeapM β}
    (same : ∀ m, h.memory.SameBut W m → Block.read m b = Block.read h.memory b)
    (next : Ignores W (rest ()) (h.logging (event (Block.read h.memory b)))) :
    Ignores W (Heap.note event b >>= rest) h := by
  refine bind (note same) ?_
  rintro _ _ ⟨⟩
  exact next

theorem write_bind {change : Memory → Memory} {rest : Unit → HeapM β} (stamps : Memory.Stamps W change)
    (next : Ignores W (rest ()) (h.withMemory (change h.memory))) :
    Ignores W (write change >>= rest) h := by
  refine bind (@of_stamps _ W h _ _ h () stamps fun _ _ => ⟨rfl, rfl⟩) ?_
  rintro _ _ ⟨⟩
  exact next

end Ignores

section Steps

variable {L : Ledger} {b l r : Block} {xs ys rs : List Block}

/-- A heap whose headers are the same keeps the ledger. -/
theorem Keeps.of_same {m : Memory} (K : h.Keeps L) (clear : ∀ i, L.Headers i → ¬ W i)
    (same : h.memory.SameBut W m) : (h.withMemory m).Keeps L :=
  K.of_bytes fun i hi => same i (clear i hi)

/-- The links of blocks are not in `W`. -/
theorem links_clear {hook : Nat} {bs : List Block} (clear : ∀ i, L.Headers i → ¬ W i)
    (hook_le : hook ≤ 56) (listed : ∀ b ∈ bs, b ∈ L.blocks) :
    ∀ x ∈ bs.map Block.addr, ∀ i, x + hook ≤ i → i < x + hook + 2 * wordSize → ¬ W i := by
  intro x hx i hi hi'
  obtain ⟨b, hb, rfl⟩ := List.mem_map.1 hx
  refine clear i ⟨b, listed b hb, by omega, ?_⟩
  unfold wordSize at hi'
  unfold Header.length
  omega

theorem ignores_linkFree (K : h.Keeps L) (hb : b ∈ L.blocks) (hf : b ∉ L.free)
    (clear : ∀ i, L.Headers i → ¬ W i) : Ignores W (linkFree b.addr) h := by
  have listed : ∀ x ∈ b :: L.free, x ∈ L.blocks := by
    intro x hx
    rcases List.mem_cons.1 hx with rfl | hx
    · exact hb
    · exact K.listed x hx
  have off := @links_clear W L Header.freeHook (b :: L.free) clear (by decide) listed
  have before : ∀ x ∈ ((L.free.takeWhile fun x => ¬ Block.NoLarger b x).map Block.addr).getLast?,
      x ∈ (b :: L.free).map Block.addr := fun x hx =>
    List.mem_cons_of_mem _ (List.map_subset _ (List.takeWhile_sublist _).subset (List.mem_of_getLast? hx))
  have after : ∀ x ∈ ((L.free.dropWhile fun x => ¬ Block.NoLarger b x).map Block.addr).head?,
      x ∈ (b :: L.free).map Block.addr := fun x hx =>
    List.mem_cons_of_mem _ (List.map_subset _ (List.dropWhile_sublist _).subset (List.mem_of_mem_head? hx))
  have stamps := Chain.stamps_wire off before after List.mem_cons_self List.mem_cons_self
  refine @Ignores.of_stamps _ W h _ _
    { h with freeList := Chain.ofNodes ((L.enlist b).free.map Block.addr) } () stamps fun m same => ?_
  obtain ⟨⟨_, run⟩, _⟩ := freeInsert_turns (K.of_same clear same) hb hf
  exact (yields_editFreeList run).2 ⟨rfl, rfl⟩

/-- Taking a member out from between its neighbours stamps their links. -/
theorem stamps_remove {hook : Nat} {us vs bs : List Block} (split : bs = us ++ b :: vs)
    (clear : ∀ i, L.Headers i → ¬ W i) (hook_le : hook ≤ 56) (listed : ∀ x ∈ bs, x ∈ L.blocks) :
    Memory.Stamps W (Chain.unwire hook · (us.map Block.addr).getLast? b.addr b.addr
      (vs.map Block.addr).head?) := by
  subst split
  have mem : b.addr ∈ (us ++ b :: vs).map Block.addr := List.mem_map_of_mem (by simp)
  refine Chain.stamps_unwire (links_clear clear hook_le listed) ?_ ?_ mem mem
  · intro x hx
    exact List.map_subset _ (List.subset_append_left _ _) (List.mem_of_getLast? hx)
  · intro x hx
    have sub : vs ⊆ us ++ b :: vs :=
      List.Subset.trans (List.subset_cons_self b vs) (List.subset_append_right _ _)
    exact List.map_subset _ sub (List.mem_of_mem_head? hx)

theorem ignores_unlinkFree (K : h.Keeps L) (hf : b ∈ L.free) (clear : ∀ i, L.Headers i → ¬ W i) :
    Ignores W (unlinkFree b.addr) h := by
  obtain ⟨us, vs, split⟩ := List.append_of_mem hf
  have stamps := @stamps_remove W L b Header.freeHook us vs _ split clear (by decide) K.listed
  refine @Ignores.of_stamps _ W h _ _
    { h with freeList := Chain.ofNodes ((us ++ vs).map Block.addr) } () stamps fun m same => ?_
  obtain ⟨⟨_, run⟩, _⟩ := freeRemove_turns (K.of_same clear same) split
  exact (yields_editFreeList run).2 ⟨rfl, rfl⟩

theorem ignores_unlink (K : h.Keeps L) (hL : L.blocks = xs ++ b :: ys)
    (clear : ∀ i, L.Headers i → ¬ W i) : Ignores W (unlink b.addr) h := by
  have stamps := @stamps_remove W L b Header.catalogueHook xs ys _ hL clear (by decide) fun _ hx => hx
  refine @Ignores.of_stamps _ W h _ _
    { h with catalogue := Chain.ofNodes ((xs ++ ys).map Block.addr) } () stamps fun m same => ?_
  obtain ⟨⟨_, run⟩, _⟩ := catalogueRemove_turns (K.of_same clear same) hL
  exact (yields_editCatalogue run).2 ⟨rfl, rfl⟩

/-- Fields of headers are not in `W`. -/
theorem stamps_setUsed {u : Bool} (hb : b ∈ L.blocks) (clear : ∀ i, L.Headers i → ¬ W i) :
    Memory.Stamps W (Header.setUsed · b.addr u) :=
  .setByte (clear _ ⟨b, hb, by omega, by unfold Header.length; omega⟩)

theorem stamps_field {k v : Nat} (hb : b ∈ L.blocks) (clear : ∀ i, L.Headers i → ¬ W i)
    (inside : k + wordSize ≤ Header.length) : Memory.Stamps W (·.setWord (b.addr + k) v) :=
  .setWord fun i hi hi' => clear i ⟨b, hb, by omega, by omega⟩

/-- What a header says is not in `W`. -/
theorem read_of_same {m : Memory} (hb : b ∈ L.blocks) (clear : ∀ i, L.Headers i → ¬ W i)
    (same : h.memory.SameBut W m) : Block.read m b.addr = Block.read h.memory b.addr :=
  Block.read_congr fun i hi hi' => same i (clear i ⟨b, hb, hi, by unfold Header.length; omega⟩)

/-- The size of a block is not in `W`. -/
theorem ignores_size_bind {rest : Nat → HeapM β} {n : Nat} (hb : b ∈ L.blocks)
    (clear : ∀ i, L.Headers i → ¬ W i) (size : Header.size h.memory b.addr = n)
    (next : Ignores W (rest n) h) : Ignores W (look (Header.size · b.addr) >>= rest) h := by
  subst size
  refine .look_bind (fun m same => ?_) next
  rw [show Header.size m b.addr = _ from congrArg Block.size (read_of_same hb clear same)]
  rfl

/-! ### Merging -/

theorem ignores_absorb (K : h.Keeps L) (hL : L.blocks = xs ++ l :: r :: ys)
    (merge : r.Mergeable l.region) (hr : r ∈ L.free)
    (fits : l.size + (Header.length + r.size) < wordLimit) (clear : ∀ i, L.Headers i → ¬ W i) :
    Ignores W (absorb l.addr r.addr) h := by
  have hl : l ∈ L.blocks := by simp [hL]
  have hr' : r ∈ L.blocks := by simp [hL]
  have together : ∀ m, h.memory.SameBut W m →
      ¬ Header.region m l.addr ≠ Header.region m r.addr := by
    intro m same
    have K' := K.of_same clear same
    rw [show Header.region m l.addr = _ from K'.region_eq hl,
      show Header.region m r.addr = _ from K'.region_eq hr', merge.1]
    simp
  have unused : ∀ m, h.memory.SameBut W m → ¬ Header.used m r.addr = true := by
    intro m same
    rw [show Header.used m r.addr = _ from (K.of_same clear same).used_eq hr', merge.2]
    simp
  have here := Memory.SameBut.refl W h.memory
  unfold absorb
  refine .look_bind (fun m same => ?_) ?_
  · dsimp only [id]
    rw [if_neg (together m same), if_neg (unused m same), if_neg (together _ here), if_neg (unused _ here)]
  dsimp only [id]
  rw [if_neg (together _ here), if_neg (unused _ here)]
  refine .note_bind (fun _ same => read_of_same hl clear same) ?_
  refine .note_bind (fun _ same => read_of_same hr' clear same) ?_
  rw [memory_logging]
  have K₁ := (K.logging (.mergingLeft (Block.read h.memory l.addr))).logging
    (.mergingRight (Block.read h.memory r.addr))
  refine (ignores_unlinkFree K₁ hr clear).bind_yields (unlinkFree_yields K₁ hr) fun _ h₁ M₁ => ?_
  have blocks : (L.delist r).blocks = (xs ++ [l]) ++ r :: ys := by
    simp [Ledger.delist, hL]
  refine (ignores_unlink M₁.keeps blocks clear).bind_yields
    (unlink_yields M₁.keeps blocks K₁.nodupFree.not_mem_erase) fun _ h₂ post => ?_
  obtain ⟨M₂, read⟩ := post
  have size_r : Header.size h₂.memory r.addr = r.size := congrArg Block.size read
  have size_l : Header.size h₂.memory l.addr = l.size := M₂.keeps.size_eq (b := l) (by simp)
  refine ignores_size_bind hr' clear size_r (.lift_bind (Word.add_eq_ok (by omega)) ?_)
  refine ignores_size_bind hl clear size_l (.lift_bind (Word.add_eq_ok fits) ?_)
  refine .write_bind (stamps_field hl clear (by decide)) ?_
  refine .write_bind (@stamps_field W L r 0 0 hr' clear (by decide)) ?_
  exact .note fun _ same => read_of_same hl clear same

theorem ignores_absorbFree {n : Nat} (K : h.Keeps L) (hL : L.blocks = xs ++ l :: (rs ++ ys))
    (merge : ∀ r ∈ rs, r.Mergeable l.region) (free : ∀ r ∈ rs, r ∈ L.free)
    (stop : ∀ y ∈ ys.head?, ¬ y.Mergeable l.region) (steps : rs.length ≤ n)
    (fits : (l.joined rs).size < wordLimit) (clear : ∀ i, L.Headers i → ¬ W i) :
    Ignores W (absorbFree l.addr n) h := by
  induction rs generalizing l L h n with
  | nil =>
    refine @Ignores.of_stamps _ W h _ _ h () .id fun m same => ?_
    exact (absorbFree_of_stop (K.of_same clear same) hL stop).mono fun _ _ e => ⟨rfl, e⟩
  | cons r rs ih =>
    obtain ⟨n, rfl⟩ : ∃ k, n = k + 1 := ⟨n - 1, by simp at steps; omega⟩
    have mr := merge r (by simp)
    have bound := Block.size_joined_lt fits
    have next : ∀ m, h.memory.SameBut W m →
        Catalogue.nextInRegion m l.addr = some r.addr ∧ ¬ Header.used m r.addr = true := by
      intro m same
      have K' := K.of_same clear same
      refine ⟨nextInRegion_eq_some K' hL mr.1, ?_⟩
      rw [show Header.used m r.addr = _ from K'.used_eq (by simp [hL]), mr.2]
      simp
    have here := next h.memory (.refl W _)
    unfold absorbFree
    refine .look_bind (fun m same => ?_) ?_
    · rw [id, (next m same).1, id, here.1]
      dsimp only
      rw [if_neg (next m same).2, if_neg here.2]
    rw [id, here.1]
    dsimp only
    rw [if_neg here.2]
    have listed := Ledger.listed_absorb K hL free
    have on := free r (by simp)
    refine (ignores_absorb K hL mr on bound clear).bind_yields (absorb_yields K hL mr on bound)
      fun _ h₁ post => ?_
    exact @ih h₁ _ (l.joined [r]) n post.1.keeps rfl (fun x hx => merge x (by simp [hx])) listed stop
      (by simp at steps; omega) (by rwa [← Block.joined_cons])
      fun i hi => clear i (hi.of_joined hL rfl (by simp))

/-- A merge of free blocks. -/
theorem ignores_coalesce (K : h.Keeps L) (hL : L.blocks = xs ++ l :: (rs ++ ys)) (hb : b ∈ l :: rs)
    (merge : ∀ x ∈ l :: rs, x.Mergeable l.region) (free : ∀ x ∈ l :: rs, x ∈ L.free)
    (start : ∀ x ∈ xs.getLast?, ¬ x.Mergeable l.region)
    (stop : ∀ y ∈ ys.head?, ¬ y.Mergeable l.region) (fits : (l.joined rs).size < wordLimit)
    (clear : ∀ i, L.Headers i → ¬ W i) : Ignores W (coalesce b.addr) h := by
  have leftmost : ∀ m, h.memory.SameBut W m →
      Catalogue.leftmostFree m h.catalogue.length b.addr = l.addr :=
    fun m same => leftmostFree_of_mem (K.of_same clear same) hL hb merge start
  have steps : rs.length ≤ h.catalogue.length := by
    rw [K.catalogue_length, hL]
    simp
    omega
  have merged := fun r hr => merge r (List.mem_cons_of_mem l hr)
  have listed := fun r hr => free r (List.mem_cons_of_mem l hr)
  unfold coalesce
  refine .get_bind (fun m same => ?_) ?_
  · dsimp only
    rw [show Catalogue.leftmostFree (h.withMemory m).memory (h.withMemory m).catalogue.length b.addr = _
      from leftmost m same, leftmost h.memory (.refl W _)]
    rfl
  dsimp only
  rw [leftmost h.memory (.refl W _)]
  refine (ignores_absorbFree K hL merged listed stop steps fits clear).bind_yields
    (absorbFree_yields K hL merged listed stop steps fits) fun _ h₁ post => ?_
  have K₁ := post.1.keeps
  have clear₁ : ∀ i, (L.absorb xs l rs ys).Headers i → ¬ W i :=
    fun i hi => clear i (hi.of_joined hL rfl (by simp))
  have mem := Ledger.joined_mem_absorb K hL (free l (by simp))
  refine (@ignores_unlinkFree W h₁ _ (l.joined rs) K₁ mem clear₁).bind_yields
    (@unlinkFree_yields _ h₁ _ (l.joined rs) K₁ mem) fun _ h₂ M₂ => ?_
  refine .bind (@ignores_linkFree W h₂ _ (l.joined rs) M₂.keeps (by simp [Ledger.delist])
    K₁.nodupFree.not_mem_erase clear₁) fun _ h₃ _ => ?_
  exact .pure

/-! ### Giving back -/

theorem ignores_release {start len : Nat} (aligned : start % pageSize = 0) (pos : 0 < len) :
    Ignores W (discard (release start len)) h := by
  refine @Ignores.of_stamps _ W h _ _
    { h with space := { h.space with transfers := .unmapped ⟨start, len⟩ :: h.space.transfers } } () .id
    fun m _ => ?_
  refine Yields.mono (yields_discard.2 ?_) fun _ _ e => ⟨rfl, e⟩
  unfold release AddressSpace.unmap
  rw [yields_get_bind, if_pos ⟨aligned, pos⟩]
  exact yields_set_bind.2 (yields_pure.2 rfl)

theorem ignores_dropRegion (some : 0 < h.regions) : Ignores W dropRegion h := by
  refine @Ignores.of_stamps _ W h _ _ { h with regions := h.regions - 1 } () .id fun m _ => ?_
  have counted : Word.sub (h.withMemory m).regions 1 = .ok (h.regions - 1) := Word.sub_eq_ok some
  unfold dropRegion
  rw [yields_get_bind, yields_lift_bind counted, yields_set]
  exact ⟨rfl, rfl⟩

theorem ignores_closeRegion (K : h.Keeps L) (hL : L.blocks = xs ++ b :: ys) (hb : b ∈ L.free)
    (some : 0 < L.regions) (aligned : b.addr % pageSize = 0) (fits : b.extent < wordLimit)
    (clear : ∀ i, L.Headers i → ¬ W i) : Ignores W (closeRegion b.addr) h := by
  have mem : b ∈ L.blocks := by simp [hL]
  unfold closeRegion
  refine .note_bind (fun _ same => read_of_same mem clear same) ?_
  have K₀ := K.logging (.closing (Block.read h.memory b.addr))
  refine ignores_size_bind mem clear (K₀.size_eq mem) (.lift_bind (Word.add_eq_ok fits) ?_)
  refine (ignores_unlinkFree K₀ hb clear).bind_yields (unlinkFree_yields K₀ hb) fun _ h₁ M₁ => ?_
  have blocks : (L.delist b).blocks = xs ++ b :: ys := hL
  refine (ignores_unlink M₁.keeps blocks clear).bind_yields
    (unlink_yields M₁.keeps blocks K₀.nodupFree.not_mem_erase) fun _ h₂ post => ?_
  refine .write_bind (@stamps_field W L b 0 0 mem clear (by decide)) ?_
  have regions : h₂.regions = L.regions := post.1.keeps.regions
  refine .bind (ignores_dropRegion (regions ▸ some)) fun _ h₃ _ => ?_
  exact ignores_release aligned (by unfold Header.length; omega)

theorem ignores_giveBack {ls vs : List Block} (R : L.Retakes b l xs ls rs ys vs) (K : h.Keeps L)
    (clear : ∀ i, L.Headers i → ¬ W i) : Ignores W (giveBack b.addr) h := by
  have busy : ∀ m, h.memory.SameBut W m → ¬ (!Header.used m b.addr) = true := by
    intro m same
    rw [show Header.used m b.addr = _ from (K.of_same clear same).used_eq R.mem_blocks, R.used]
    simp
  have start := R.start
  have stop := R.stop
  rw [← R.region_eq] at start stop
  unfold giveBack
  refine .look_bind (fun m same => ?_) ?_
  · rw [if_neg (busy m same), if_neg (busy _ (.refl W _))]
  rw [if_neg (busy _ (.refl W _))]
  refine .write_bind (stamps_setUsed R.mem_blocks clear) ?_
  have K₁ := (R.moved K).keeps
  generalize h.withMemory (Header.setUsed h.memory b.addr false) = h₁ at K₁ ⊢
  have clear₁ : ∀ i, (L.vacate xs l vs ys).Headers i → ¬ W i := fun i hi => clear i (R.headers hi)
  refine (@ignores_linkFree W h₁ _ (b.withUsed false) K₁ R.mem_vacate (R.off K) clear₁).bind_yields
    (@linkFree_yields _ h₁ _ (b.withUsed false) K₁ R.mem_vacate (R.off K)) fun _ h₂ M₂ => ?_
  refine .note_bind (fun _ same => @read_of_same W h₂ _ (b.withUsed false) _ R.mem_vacate clear₁ same) ?_
  have K₂ := M₂.keeps.logging (.freed (Block.read h₂.memory b.addr))
  generalize h₂.logging (.freed (Block.read h₂.memory b.addr)) = h₃ at K₂ ⊢
  have merging : Ignores W (coalesce b.addr) h₃ := @ignores_coalesce W h₃ _ (b.withUsed false) l xs ys vs
    K₂ rfl R.mem_run R.mergeable R.listed start stop R.size_lt clear₁
  refine merging.bind_yields (retake_yields R K₂) fun _ h₄ post => ?_
  obtain ⟨rfl, M₄, _⟩ := post
  have clear₄ : ∀ i, (L.merge xs l vs ys).Headers i → ¬ W i := fun i hi => clear i (R.headers_merge hi)
  have mem : l.joined vs ∈ (L.merge xs l vs ys).blocks := by simp [Ledger.merge]
  refine .note_bind (fun _ same => @read_of_same W h₄ _ (l.joined vs) _ mem clear₄ same) ?_
  have K₅ := M₄.keeps.logging (.merged (Block.read h₄.memory l.addr))
  generalize h₄.logging (.merged (Block.read h₄.memory l.addr)) = h₅ at K₅ ⊢
  have fills : ∀ m, h₅.memory.SameBut W m →
      ((h₅.withMemory m).fillsRegion l.addr = true ↔ (l.joined vs).Fills ys) :=
    fun m same => @fillsRegion_iff _ _ (l.joined vs) xs ys (K₅.of_same clear₄ same) rfl
  have own : h₅.fillsRegion l.addr = true ↔ _ := fills h₅.memory (.refl W _)
  refine .get_bind (fun m same => ?_) ?_
  · exact if_congr (and_congr_right fun _ => (fills m same).trans own.symm) rfl rfl
  by_cases gone : h₅.settings.retained < h₅.regions ∧ h₅.fillsRegion l.addr = true
  · rw [if_pos gone]
    exact @ignores_closeRegion W h₅ _ (l.joined vs) xs ys K₅ rfl ((List.mem_orderedInsert _).2 (.inl rfl))
      R.some (R.aligned (own.1 gone.2).1) R.fits clear₄
  · rw [if_neg gone]
    exact .pure

end Steps

end Heap

end RegionHeap
