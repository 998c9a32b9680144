import Mathlib.Data.List.Nodup
import RegionHeap.Proofs.Ledger.Steps

/-!
# The order of the free list

Whatever is put into a free list and taken out of it, its members stand in ascending order of size, and those
of one size in the reverse order of their insertions. Between the changes memory may become anything, as long
as the members keep their sizes and their links; a block that is no member may get another size.

* `FreeList.Legal`, `FreeList.Run` — changes that may be made, and histories of them.
* `FreeList.Spells` — a list, its links and its members in order.
* `FreeList.exists_cut` — a sorted list splits at every size.
* `Spells.step` — every legal change is made, and leaves the members in order.
* `FreeList.run_orders` — what can be read off the list after any history.
-/

set_option autoImplicit false

namespace RegionHeap.FreeList

/-! ### Histories -/

/-- A change of a free list, or of the memory around it. -/
inductive Edit where
  | insert (b : Nat)
  | remove (b : Nat)
  | write (change : Memory → Memory)

/-- A free list with the memory that its blocks live in, and its members by the order of their insertions,
the latest first. -/
structure History where
  memory : Memory
  list : FreeList := .empty
  members : List Nat := []

/-- What is written leaves the sizes and the links of the members alone. -/
structure Spared (members : List Nat) (m m' : Memory) : Prop where
  size : ∀ x ∈ members, Header.size m' x = Header.size m x
  prev : ∀ x ∈ members, Chain.prev Header.freeHook m' x = Chain.prev Header.freeHook m x
  next : ∀ x ∈ members, Chain.next Header.freeHook m' x = Chain.next Header.freeHook m x

/-- The change may be made: an item is inserted that is no member, or a member is removed, or the members are
spared. -/
def Legal (items : List Nat) (s : History) : Edit → Prop
  | .insert b => b ∈ items ∧ b ∉ s.members
  | .remove b => b ∈ s.members
  | .write change => Spared s.members s.memory (change s.memory)

/-- The history after a call that leaves these members, unless it is stopped. -/
def after (members : List Nat) :
    EStateM.Result Fault (Memory × FreeList) Unit → Except Fault History
  | .ok _ (memory, list) => .ok ⟨memory, list, members⟩
  | .error fault _ => .error fault

/-- Makes the change. -/
def perform (s : History) : Edit → Except Fault History
  | .insert b => after (b :: s.members) (FreeList.insert b (s.memory, s.list))
  | .remove b => after (s.members.erase b) (Chain.remove b (s.memory, s.list))
  | .write change => .ok { s with memory := change s.memory }

/-- Legal changes, made in order. -/
inductive Run (items : List Nat) : History → List Edit → History → Prop
  | nil {s : History} : Run items s [] s
  | cons {s s' s'' : History} {e : Edit} {es : List Edit} (legal : Legal items s e)
      (made : perform s e = .ok s') (rest : Run items s' es s'') : Run items s (e :: es) s''

instance (items : List Nat) (s : History) : DecidablePred (Legal items s)
  | .insert b => inferInstanceAs (Decidable (b ∈ items ∧ b ∉ s.members))
  | .remove b => inferInstanceAs (Decidable (b ∈ s.members))
  | .write change => decidable_of_iff ((∀ x ∈ s.members,
        Header.size (change s.memory) x = Header.size s.memory x) ∧
      (∀ x ∈ s.members, Chain.prev Header.freeHook (change s.memory) x =
        Chain.prev Header.freeHook s.memory x) ∧
      ∀ x ∈ s.members, Chain.next Header.freeHook (change s.memory) x =
        Chain.next Header.freeHook s.memory x)
    ⟨fun ⟨size, prev, next⟩ => ⟨size, prev, next⟩, fun spared => ⟨spared.size, spared.prev, spared.next⟩⟩

/-- Makes changes in order, as long as they are legal. -/
def replay (items : List Nat) (s : History) : List Edit → Option History
  | [] => some s
  | e :: es =>
    if Legal items s e then
      match perform s e with
      | .ok s => replay items s es
      | .error _ => none
    else none

theorem run_of_replay {items : List Nat} {s s' : History} {es : List Edit}
    (replayed : replay items s es = some s') : Run items s es s' := by
  induction es generalizing s with
  | nil =>
    obtain rfl : s = s' := Option.some.inj replayed
    exact .nil
  | cons e es ih =>
    unfold replay at replayed
    split at replayed
    · next legal =>
      split at replayed
      · next made => exact .cons legal made (ih replayed)
      · cases replayed
    · cases replayed

/-- By these sizes and insertions, latest first, `x` is to stand in front of `y`: it is smaller, or as large
and was inserted later. -/
def Ahead (size : Nat → Nat) (members : List Nat) (x y : Nat) : Prop :=
  size x < size y ∨ size x = size y ∧ [x, y].Sublist members

/-- Of the members with room for `n` bytes, `b` is one of the smallest, and of those the one inserted
last. -/
structure BestMember (s : History) (n b : Nat) : Prop where
  member : b ∈ s.members
  room : n ≤ Header.size s.memory b
  least : ∀ x ∈ s.members, n ≤ Header.size s.memory x →
    Header.size s.memory b ≤ Header.size s.memory x
  latest : ∀ x ∈ s.members, Header.size s.memory x = Header.size s.memory b → x ≠ b →
    [b, x].Sublist s.members

/-- What can be read off the free list of a history. -/
structure Shows (s : History) : Prop where
  /-- A walk gives the members in order. -/
  order : ∃ xs, s.list.members s.memory = .ok xs ∧ xs.Perm s.members ∧ xs.Nodup ∧
    xs.Pairwise (Ahead (Header.size s.memory) s.members)
  length : s.list.length = s.members.length
  /-- A search answers with the best member, or with none where all are too small. -/
  search : ∀ n, ∃ answer, FreeList.firstFit s.list s.memory n = .ok answer ∧
    (∀ b, answer = some b → BestMember s n b) ∧
    (answer = none ↔ ∀ x ∈ s.members, Header.size s.memory x < n)
  total : (s.members.map (Header.size s.memory)).sum < wordLimit →
    FreeList.totalBytes s.list s.memory = .ok (s.members.map (Header.size s.memory)).sum

/-! ### Lists in order -/

section Order

variable {size size' : Nat → Nat} {members xs us vs : List Nat} {x y b : Nat}

theorem Ahead.le (ahead : Ahead size members x y) : size x ≤ size y := by
  rcases ahead with less | ⟨same, -⟩
  · exact Nat.le_of_lt less
  · exact Nat.le_of_eq same

/-- The order stays where the sizes do. -/
theorem sorted_congr (sorted : xs.Pairwise (Ahead size members)) (same : ∀ x ∈ xs, size' x = size x) :
    xs.Pairwise (Ahead size' members) := by
  refine sorted.imp_of_mem fun {x y} hx hy ahead => ?_
  unfold Ahead
  rwa [same x hx, same y hy]

/-- A sorted list splits at every size, where a search for that size ends. -/
theorem exists_cut (sorted : xs.Pairwise (Ahead size members)) (n : Nat) :
    ∃ us vs, xs = us ++ vs ∧ (∀ x ∈ us, size x < n) ∧ (∀ x ∈ vs, n ≤ size x) ∧
      (xs.find? fun x => n ≤ size x) = vs.head? := by
  induction xs with
  | nil => exact ⟨[], [], rfl, by simp, by simp, rfl⟩
  | cons y xs ih =>
    obtain ⟨ahead, sorted⟩ := List.pairwise_cons.1 sorted
    by_cases here : n ≤ size y
    · refine ⟨[], y :: xs, rfl, by simp, ?_, List.find?_cons_of_pos (decide_eq_true here)⟩
      intro x hx
      rcases List.mem_cons.1 hx with rfl | hx
      · exact here
      · exact here.trans (ahead x hx).le
    · obtain ⟨us, vs, rfl, less, rest, found⟩ := ih sorted
      refine ⟨y :: us, vs, rfl, ?_, rest, ?_⟩
      · intro x hx
        rcases List.mem_cons.1 hx with rfl | hx
        · exact Nat.lt_of_not_le here
        · exact less x hx
      · rw [List.find?_cons_of_neg (by simpa using here), found]

/-- What is inserted goes in behind all that is smaller and in front of all that is as large: it is the
latest now. -/
theorem sorted_insert (sorted : (us ++ vs).Pairwise (Ahead size members)) (less : ∀ x ∈ us, size x < size b)
    (rest : ∀ x ∈ vs, size b ≤ size x) (old : ∀ x ∈ vs, x ∈ members) :
    (us ++ [b] ++ vs).Pairwise (Ahead size (b :: members)) := by
  have later : ∀ {x y}, Ahead size members x y → Ahead size (b :: members) x y :=
    fun ahead => ahead.imp_right fun ⟨same, later⟩ => ⟨same, later.cons b⟩
  obtain ⟨sorted_us, sorted_vs, apart⟩ := List.pairwise_append.1 (sorted.imp later)
  have first : ∀ y ∈ vs, Ahead size (b :: members) b y := by
    intro y hy
    rcases Nat.lt_or_eq_of_le (rest y hy) with smaller | same
    · exact .inl smaller
    · exact .inr ⟨same, (List.singleton_sublist.2 (old y hy)).cons_cons b⟩
  rw [List.append_assoc, List.singleton_append, List.pairwise_append, List.pairwise_cons]
  refine ⟨sorted_us, ⟨first, sorted_vs⟩, fun x hx y hy => ?_⟩
  rcases List.mem_cons.1 hy with rfl | hy
  · exact .inl (less x hx)
  · exact apart x hx y hy

/-- What is left when one goes out is in order. -/
theorem sorted_remove (sorted : (us ++ b :: vs).Pairwise (Ahead size members))
    (nodup : (us ++ b :: vs).Nodup) : (us ++ vs).Pairwise (Ahead size (members.erase b)) := by
  have others := (List.nodup_cons.1 (List.perm_middle.nodup_iff.1 nodup)).1
  refine (sorted.sublist ((List.sublist_cons_self b vs).append_left us)).imp_of_mem ?_
  intro x y hx hy ahead
  refine ahead.imp_right fun ⟨same, later⟩ => ⟨same, ?_⟩
  have new : b ∉ [x, y] := by
    rintro mem
    rcases List.mem_pair.1 mem with rfl | rfl
    · exact others hx
    · exact others hy
  rw [← List.erase_of_not_mem new]
  exact later.erase b

end Order

/-! ### Members in order -/

/-- The list of the history and the links in memory spell its members in order. -/
structure Spells (items : List Nat) (s : History) (xs : List Nat) : Prop where
  holds : Chain.Holds s.list s.memory xs
  perm : xs.Perm s.members
  nodup : xs.Nodup
  sub : ∀ x ∈ xs, x ∈ items
  sorted : xs.Pairwise (Ahead (Header.size s.memory) s.members)

/-- Rewiring links of items leaves what the headers of items say alone. -/
theorem size_eq_of_outside {items : List Nat} {m m' : Memory} {x : Nat} (spaced : Header.Spaced items)
    (hx : x ∈ items) (same : ∀ i, Chain.Outside Header.freeHook items i → m'.byte i = m.byte i) :
    Header.size m' x = Header.size m x := by
  apply Memory.word_congr
  intro i lo up
  unfold wordSize at up
  exact same i (spaced.outside_freeHook hx (by omega) (by omega))

namespace Spells

variable {items xs : List Nat} {s s' : History} {b n : Nat} {e : Edit}

theorem mem_iff (S : Spells items s xs) (x : Nat) : x ∈ xs ↔ x ∈ s.members :=
  S.perm.mem_iff

/-- A search ends at the split. -/
theorem firstFit_eq (S : Spells items s xs) (n : Nat) : FreeList.firstFit s.list s.memory n =
    .ok (xs.find? fun x => n ≤ Header.size s.memory x) := by
  unfold FreeList.firstFit
  rw [Chain.walk_eq S.holds, Walk.find?_ofList]

/-- Where the members split at a size. -/
theorem exists_parts (S : Spells items s xs) (n : Nat) : ∃ us vs, xs = us ++ vs ∧
    (∀ x ∈ us, Header.size s.memory x < n) ∧ (∀ x ∈ vs, n ≤ Header.size s.memory x) ∧
    FreeList.firstFit s.list s.memory n = .ok vs.head? := by
  obtain ⟨us, vs, parts, less, rest, found⟩ := exists_cut S.sorted n
  exact ⟨us, vs, parts, less, rest, by rw [S.firstFit_eq, found]⟩

/-- A new block goes in behind all smaller members and in front of all that are as large, so it is ahead of
those although they are older. -/
theorem insert (S : Spells items s xs) (spaced : Header.Spaced items) (item : b ∈ items)
    (new : b ∉ s.members) : ∃ s' xs', perform s (.insert b) = .ok s' ∧ Spells items s' xs' := by
  obtain ⟨us, vs, rfl, less, rest, found⟩ := S.exists_parts (Header.size s.memory b)
  have middle : (us ++ [b] ++ vs).Perm (b :: (us ++ vs)) := by
    rw [List.append_assoc]
    exact List.perm_middle
  have all : ∀ x ∈ us ++ [b] ++ vs, x ∈ items := by
    intro x hx
    rcases List.mem_cons.1 (middle.mem_iff.1 hx) with rfl | hx
    · exact item
    · exact S.sub x hx
  have distinct : (us ++ [b] ++ vs).Nodup := by
    rw [middle.nodup_iff, List.nodup_cons, S.mem_iff]
    exact ⟨new, S.nodup⟩
  have nodes := spaced.nodes.of_subset all distinct
  have fits : (us ++ [b] ++ vs).length < wordLimit :=
    (List.subperm_of_subset distinct all).length_le.trans_lt spaced.length_lt
  obtain ⟨⟨_, run⟩, holds, frame, _⟩ := Chain.insertBefore_turns S.holds nodes fits
  rw [← Heap.freeInsert_eq found] at run
  refine ⟨_, _, congrArg (after (b :: s.members)) run, holds, middle.trans (S.perm.cons b), distinct, all, ?_⟩
  refine sorted_congr (sorted_insert S.sorted less rest fun x hx => (S.mem_iff x).1 (by simp [hx])) ?_
  exact fun x hx => size_eq_of_outside spaced (all x hx) fun i out => frame i (out.mono all)

/-- A member goes out, and the others stay in order. -/
theorem remove (S : Spells items s xs) (spaced : Header.Spaced items) (member : b ∈ s.members) :
    ∃ s' xs', perform s (.remove b) = .ok s' ∧ Spells items s' xs' := by
  obtain ⟨us, vs, rfl⟩ := List.append_of_mem ((S.mem_iff b).2 member)
  have left : (us ++ vs).Sublist (us ++ b :: vs) := (List.sublist_cons_self b vs).append_left us
  have perm : (us ++ vs).Perm (s.members.erase b) := by
    have := (List.perm_middle.symm.trans S.perm).erase b
    rwa [List.erase_cons_head] at this
  obtain ⟨⟨_, run⟩, holds, frame, _⟩ :=
    Chain.remove_turns S.holds (spaced.nodes.of_subset S.sub S.nodup)
  refine ⟨_, _, congrArg (after (s.members.erase b)) run, holds, perm, S.nodup.sublist left,
    fun x hx => S.sub x (left.subset hx), sorted_congr (sorted_remove S.sorted S.nodup) ?_⟩
  intro x hx
  exact size_eq_of_outside spaced (S.sub x (left.subset hx)) fun i out => frame i (out.mono S.sub)

/-- What is written elsewhere changes nothing. -/
theorem write (S : Spells items s xs) {change : Memory → Memory}
    (spared : Spared s.members s.memory (change s.memory)) :
    Spells items { s with memory := change s.memory } xs where
  holds := S.holds.congr (fun x hx => spared.prev x ((S.mem_iff x).1 hx))
    fun x hx => spared.next x ((S.mem_iff x).1 hx)
  perm := S.perm
  nodup := S.nodup
  sub := S.sub
  sorted := sorted_congr S.sorted fun x hx => spared.size x ((S.mem_iff x).1 hx)

/-- Every legal change is made, and leaves the members in order. -/
theorem step (S : Spells items s xs) (spaced : Header.Spaced items) (legal : Legal items s e) :
    ∃ s' xs', perform s e = .ok s' ∧ Spells items s' xs' := by
  cases e with
  | insert b => exact S.insert spaced legal.1 legal.2
  | remove b => exact S.remove spaced legal
  | write change => exact ⟨_, xs, rfl, S.write legal⟩

/-- After any history the members are in order. -/
theorem run {es : List Edit} (S : Spells items s xs) (spaced : Header.Spaced items)
    (run : Run items s es s') : ∃ xs', Spells items s' xs' := by
  induction run generalizing xs with
  | nil => exact ⟨xs, S⟩
  | cons legal made _ ih =>
    obtain ⟨s₁, xs₁, made', S₁⟩ := S.step spaced legal
    obtain rfl : s₁ = _ := Except.ok.inj (made'.symm.trans made)
    exact ih S₁

/-- A search answers with the best member. -/
theorem search (S : Spells items s xs) (n : Nat) :
    ∃ answer, FreeList.firstFit s.list s.memory n = .ok answer ∧
      (∀ b, answer = some b → BestMember s n b) ∧
      (answer = none ↔ ∀ x ∈ s.members, Header.size s.memory x < n) := by
  obtain ⟨us, vs, rfl, less, rest, found⟩ := S.exists_parts n
  have short : ∀ x ∈ s.members, n ≤ Header.size s.memory x → x ∈ vs := by
    intro x member room
    rcases List.mem_append.1 ((S.mem_iff x).2 member) with hx | hx
    · exact absurd (less x hx) (Nat.not_lt.2 room)
    · exact hx
  refine ⟨_, found, ?_, ?_⟩
  · intro b first
    obtain ⟨vs, rfl⟩ : ∃ ws, vs = b :: ws := List.head?_eq_some_iff.1 first
    have ahead := (List.pairwise_cons.1 (List.pairwise_append.1 S.sorted).2.1).1
    have room := rest b List.mem_cons_self
    refine ⟨(S.mem_iff b).1 (by simp), room, ?_, ?_⟩
    · intro x member large
      rcases List.mem_cons.1 (short x member large) with rfl | hx
      · exact Nat.le_refl _
      · exact (ahead x hx).le
    · intro x member same ne
      have hx := (List.mem_cons.1 (short x member (same ▸ room))).resolve_left ne
      rcases ahead x hx with smaller | ⟨-, later⟩
      · exact absurd same (Nat.ne_of_gt smaller)
      · exact later
  · rw [List.head?_eq_none_iff]
    constructor
    · rintro rfl x member
      exact less x (by simpa using (S.mem_iff x).2 member)
    · intro small
      refine List.eq_nil_iff_forall_not_mem.2 fun x hx => ?_
      exact absurd (small x ((S.mem_iff x).1 (by simp [hx]))) (Nat.not_lt.2 (rest x hx))

theorem shows (S : Spells items s xs) : Shows s where
  order := ⟨xs, Chain.members_eq S.holds, S.perm, S.nodup, S.sorted⟩
  length := by
    rw [S.holds.ends]
    exact S.perm.length_eq
  search := S.search
  total fits := by
    have sum := (S.perm.map (Header.size s.memory)).sum_nat
    unfold FreeList.totalBytes
    rw [Chain.walk_eq S.holds, Walk.total_ofList (by rwa [sum]), sum]

end Spells

/-! ### Any history -/

/-- **A free list is a stable order by size.** Whatever is inserted and removed, from the empty list on, a
walk gives the members in ascending order of size, and those of one size in the reverse order of their
insertions. A search for so many bytes answers with the smallest member that has room for them, of those that
are as small with the one inserted last, and with none exactly where all are too small. The length counts the
members and their bytes add up. And whatever may be asked for next is done. -/
theorem run_orders {items : List Nat} {es : List Edit} {s : History} (spaced : Header.Spaced items)
    (memory : Memory) (run : Run items { memory } es s) :
    Shows s ∧ ∀ e, Legal items s e → ∃ s', perform s e = .ok s' := by
  have start : Spells items ({ memory } : History) [] :=
    ⟨Chain.holds_empty, .refl _, List.nodup_nil, by simp, .nil⟩
  obtain ⟨xs, S⟩ := start.run spaced run
  refine ⟨S.shows, fun e legal => ?_⟩
  obtain ⟨s', _, made, _⟩ := S.step spaced legal
  exact ⟨s', made⟩

/-- Three blocks of one size and a smaller one. One of the three is taken out, gets the smaller size and is
put in again, and another one is taken out and put in as it is. -/
theorem run_orders_resized : ∃ s, Header.Spaced [1000, 2000, 3000, 4000] ∧
    s.members = [1000, 3000, 4000, 2000] ∧ s.list.members s.memory = .ok [3000, 2000, 1000, 4000] ∧
    FreeList.firstFit s.list s.memory 9 = .ok (some 1000) ∧
    Shows s ∧ ∀ e, Legal [1000, 2000, 3000, 4000] s e → ∃ s', perform s e = .ok s' := by
  let sized : Memory := Header.setSize (Header.setSize (Header.setSize (Header.setSize .blank
    1000 24) 2000 8) 3000 24) 4000 24
  have spaced : Header.Spaced [1000, 2000, 3000, 4000] := ⟨by decide, by decide⟩
  have replayed : (replay [1000, 2000, 3000, 4000] { memory := sized } [.insert 1000, .insert 2000,
      .insert 3000, .insert 4000, .remove 3000, .write (Header.setSize · 3000 8), .insert 3000,
      .remove 1000, .insert 1000]).any (fun s => decide (s.members = [1000, 3000, 4000, 2000] ∧
        s.list.members s.memory = .ok [3000, 2000, 1000, 4000] ∧
        FreeList.firstFit s.list s.memory 9 = .ok (some 1000))) = true := by
    decide +kernel
  obtain ⟨s, made, checked⟩ := (Option.any_eq_true _ _).1 replayed
  obtain ⟨members, walk, found⟩ := of_decide_eq_true checked
  exact ⟨s, spaced, members, walk, found, run_orders spaced sized (run_of_replay made)⟩

end RegionHeap.FreeList
