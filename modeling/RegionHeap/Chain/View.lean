import RegionHeap.Chain

/-!
# Chains as sequences

A chain stands for a sequence of nodes. `Linked` says that the links of a run in memory spell it,
`Holds` that a chain and its links do. Nodes of one chain must leave room for each other's links
(`Nodes`); then every operation does to the sequence what its name says.

* `walk_eq`, `membersBack_eq` — walking gives the sequence, and backwards its reverse.
* `spliceBefore_eq` — a detached run is inserted in order.
* `unlinkRun_eq` — a run of members is taken out, and stays a run.
* `byte_wire_of_outside`, `byte_unwire_of_outside` — only links of nodes are written.
-/

set_option autoImplicit false

namespace RegionHeap.Chain

variable {hook : Nat}

/-! ### Nodes -/

/-- Two nodes leave room for each other's links. -/
def Apart (x y : Nat) : Prop :=
  x + 2 * wordSize ≤ y ∨ y + 2 * wordSize ≤ x

/-- Addresses that can be nodes of one chain. -/
structure Nodes (xs : List Nat) : Prop where
  /-- A word can hold each of them, and none is the address that stands for none. -/
  address : ∀ x ∈ xs, x ≠ 0 ∧ x < wordLimit
  nodup : xs.Nodup
  /-- They leave room for each other's links. -/
  apart : ∀ x ∈ xs, ∀ y ∈ xs, x ≠ y → Apart x y

namespace Nodes

variable {xs ys : List Nat}

theorem eq_or_apart (h : Nodes xs) {x y : Nat} (hx : x ∈ xs) (hy : y ∈ xs) : x = y ∨ Apart x y := by
  by_cases hxy : x = y
  · exact .inl hxy
  · exact .inr (h.apart x hx y hy hxy)

theorem target (h : Nodes xs) {t : Option Nat} (ht : ∀ x ∈ t, x ∈ xs) :
    ∀ x ∈ t, x ≠ 0 ∧ x < wordLimit :=
  fun x hx => h.address x (ht x hx)

theorem of_subset (h : Nodes xs) (sub : ∀ y ∈ ys, y ∈ xs) (nodup : ys.Nodup) : Nodes ys where
  address y hy := h.address y (sub y hy)
  nodup := nodup
  apart x hx y hy := h.apart x (sub x hx) y (sub y hy)

end Nodes

/-! ### Writing one link -/

section Links

variable (m : Memory) {x y : Nat} {t : Option Nat}

theorem prev_setPrev_self (h : ∀ n ∈ t, n ≠ 0 ∧ n < wordLimit) :
    prev hook (setPrev hook m x t) x = t :=
  Memory.link_setLink h

theorem next_setNext_self (h : ∀ n ∈ t, n ≠ 0 ∧ n < wordLimit) :
    next hook (setNext hook m x t) x = t :=
  Memory.link_setLink h

theorem prev_setPrev_of_apart (h : Apart x y) :
    prev hook (setPrev hook m x t) y = prev hook m y :=
  Memory.link_setWord_of_disjoint (by unfold Apart wordSize at *; omega)

theorem next_setNext_of_apart (h : Apart x y) :
    next hook (setNext hook m x t) y = next hook m y :=
  Memory.link_setWord_of_disjoint (by unfold Apart wordSize at *; omega)

theorem prev_setNext (h : x = y ∨ Apart x y) : prev hook (setNext hook m x t) y = prev hook m y :=
  Memory.link_setWord_of_disjoint (by unfold Apart wordSize at *; omega)

theorem next_setPrev (h : x = y ∨ Apart x y) : next hook (setPrev hook m x t) y = next hook m y :=
  Memory.link_setWord_of_disjoint (by unfold Apart wordSize at *; omega)

end Links

/-! ### Wiring a run -/

section Wiring

variable {m : Memory} {xs : List Nat} {left right : Option Nat} {first last y : Nat}

theorem prev_setNext? (nodes : Nodes xs) (hl : ∀ x ∈ left, x ∈ xs) (hy : y ∈ xs) (t : Option Nat) :
    prev hook (setNext? hook m left t) y = prev hook m y := by
  cases left with
  | none => rfl
  | some l => exact prev_setNext m (nodes.eq_or_apart (hl l rfl) hy)

theorem next_setPrev? (nodes : Nodes xs) (hr : ∀ x ∈ right, x ∈ xs) (hy : y ∈ xs) (t : Option Nat) :
    next hook (setPrev? hook m right t) y = next hook m y := by
  cases right with
  | none => rfl
  | some r => exact next_setPrev m (nodes.eq_or_apart (hr r rfl) hy)

theorem prev_setPrev? (nodes : Nodes xs) (hr : ∀ x ∈ right, x ∈ xs) (hy : y ∈ xs) {t : Option Nat}
    (ht : ∀ x ∈ t, x ∈ xs) :
    prev hook (setPrev? hook m right t) y = if right = some y then t else prev hook m y := by
  cases right with
  | none => rw [if_neg (by simp), setPrev?]
  | some r =>
    by_cases h : r = y
    · subst h
      rw [if_pos rfl]
      exact prev_setPrev_self m (nodes.target ht)
    · rw [if_neg (by simpa using h)]
      exact prev_setPrev_of_apart m (nodes.apart r (hr r rfl) y hy h)

theorem next_setNext? (nodes : Nodes xs) (hl : ∀ x ∈ left, x ∈ xs) (hy : y ∈ xs) {t : Option Nat}
    (ht : ∀ x ∈ t, x ∈ xs) :
    next hook (setNext? hook m left t) y = if left = some y then t else next hook m y := by
  cases left with
  | none => rw [if_neg (by simp), setNext?]
  | some l =>
    by_cases h : l = y
    · subst h
      rw [if_pos rfl]
      exact next_setNext_self m (nodes.target ht)
    · rw [if_neg (by simpa using h)]
      exact next_setNext_of_apart m (nodes.apart l (hl l rfl) y hy h)

variable (nodes : Nodes xs) (hl : ∀ x ∈ left, x ∈ xs) (hr : ∀ x ∈ right, x ∈ xs)
  (hf : first ∈ xs) (ht : last ∈ xs) (hy : y ∈ xs)

include nodes hl hr hf ht hy

theorem prev_wire : prev hook (wire hook m left first last right) y =
    if right = some y then some last else if first = y then left else prev hook m y := by
  rw [wire, prev_setPrev? nodes hr hy (by rintro _ ⟨⟩; exact ht), prev_setNext? nodes hl hy,
    prev_setNext _ (nodes.eq_or_apart ht hy)]
  by_cases h : first = y
  · subst h
    rw [if_pos rfl, prev_setPrev_self m (nodes.target hl)]
  · rw [if_neg h, prev_setPrev_of_apart m (nodes.apart _ hf _ hy h)]

theorem next_wire : next hook (wire hook m left first last right) y =
    if left = some y then some first else if last = y then right else next hook m y := by
  rw [wire, next_setPrev? nodes hr hy, next_setNext? nodes hl hy (by rintro _ ⟨⟩; exact hf)]
  by_cases h : last = y
  · subst h
    rw [if_pos rfl, next_setNext_self _ (nodes.target hr)]
  · rw [if_neg h, next_setNext_of_apart _ (nodes.apart _ ht _ hy h),
      next_setPrev m (nodes.eq_or_apart hf hy)]

theorem prev_unwire : prev hook (unwire hook m left first last right) y =
    if first = y then none else if right = some y then left else prev hook m y := by
  rw [unwire, prev_setNext _ (nodes.eq_or_apart ht hy)]
  by_cases h : first = y
  · subst h
    rw [if_pos rfl, prev_setPrev_self _ (by simp)]
  · rw [if_neg h, prev_setPrev_of_apart _ (nodes.apart _ hf _ hy h),
      prev_setPrev? nodes hr hy hl, prev_setNext? nodes hl hy]

theorem next_unwire : next hook (unwire hook m left first last right) y =
    if last = y then none else if left = some y then right else next hook m y := by
  rw [unwire]
  by_cases h : last = y
  · subst h
    rw [if_pos rfl, next_setNext_self _ (by simp)]
  · rw [if_neg h, next_setNext_of_apart _ (nodes.apart _ ht _ hy h),
      next_setPrev _ (nodes.eq_or_apart hf hy), next_setPrev? nodes hr hy,
      next_setNext? nodes hl hy hr]

end Wiring

/-! ### What wiring leaves alone -/

/-- An address that lies in no link of the given nodes. -/
def Outside (hook : Nat) (xs : List Nat) (a : Nat) : Prop :=
  ∀ x ∈ xs, a < x + hook ∨ x + hook + 2 * wordSize ≤ a

section Frame

variable {m : Memory} {xs : List Nat} {left right : Option Nat} {first last a : Nat}

theorem byte_setPrev_of_outside (out : Outside hook xs a) (hf : first ∈ xs) (t : Option Nat) :
    (setPrev hook m first t).byte a = m.byte a :=
  Memory.byte_setWord_of_disjoint (by have := out first hf; unfold wordSize at *; omega)

theorem byte_setNext_of_outside (out : Outside hook xs a) (hf : first ∈ xs) (t : Option Nat) :
    (setNext hook m first t).byte a = m.byte a :=
  Memory.byte_setWord_of_disjoint (by have := out first hf; unfold wordSize at *; omega)

theorem byte_setPrev?_of_outside (out : Outside hook xs a) (hl : ∀ x ∈ left, x ∈ xs)
    (t : Option Nat) : (setPrev? hook m left t).byte a = m.byte a := by
  cases left with
  | none => rfl
  | some l => exact byte_setPrev_of_outside out (hl l rfl) t

theorem byte_setNext?_of_outside (out : Outside hook xs a) (hl : ∀ x ∈ left, x ∈ xs)
    (t : Option Nat) : (setNext? hook m left t).byte a = m.byte a := by
  cases left with
  | none => rfl
  | some l => exact byte_setNext_of_outside out (hl l rfl) t

variable (out : Outside hook xs a) (hl : ∀ x ∈ left, x ∈ xs) (hr : ∀ x ∈ right, x ∈ xs)
  (hf : first ∈ xs) (ht : last ∈ xs)

include out hl hr hf ht

theorem byte_wire_of_outside : (wire hook m left first last right).byte a = m.byte a := by
  rw [wire, byte_setPrev?_of_outside out hr, byte_setNext?_of_outside out hl,
    byte_setNext_of_outside out ht, byte_setPrev_of_outside out hf]

theorem byte_unwire_of_outside : (unwire hook m left first last right).byte a = m.byte a := by
  rw [unwire, byte_setNext_of_outside out ht, byte_setPrev_of_outside out hf,
    byte_setPrev?_of_outside out hr, byte_setNext?_of_outside out hl]

end Frame

/-! ### Runs -/

/-- The links of the nodes of a run spell it, with `before` and `after` at its ends. -/
def Linked (hook : Nat) (m : Memory) : Option Nat → List Nat → Option Nat → Prop
  | _, [], _ => True
  | before, x :: xs, after =>
    prev hook m x = before ∧ next hook m x = xs.head?.or after ∧ Linked hook m (some x) xs after

section Linked

variable {m m' : Memory} {before after : Option Nat} {xs ys : List Nat}

theorem linked_append : Linked hook m before (xs ++ ys) after ↔
    Linked hook m before xs (ys.head?.or after) ∧
      Linked hook m (xs.getLast?.or before) ys after := by
  induction xs generalizing before with
  | nil => simp [Linked]
  | cons x xs ih =>
    have last : ((x :: xs).getLast?.or before) = xs.getLast?.or (some x) := by
      cases xs <;> simp [List.getLast?_cons]
    simp only [List.cons_append, Linked, ih, last, List.head?_append, Option.or_assoc, and_assoc]

/-- Links of other nodes do not matter to a run. -/
theorem Linked.congr (h : Linked hook m before xs after)
    (hp : ∀ x ∈ xs, prev hook m' x = prev hook m x)
    (hn : ∀ x ∈ xs, next hook m' x = next hook m x) : Linked hook m' before xs after := by
  induction xs generalizing before with
  | nil => trivial
  | cons x xs ih =>
    obtain ⟨h₁, h₂, h₃⟩ := h
    refine ⟨(hp x List.mem_cons_self).trans h₁, (hn x List.mem_cons_self).trans h₂, ih h₃ ?_ ?_⟩
    · exact fun y hy => hp y (List.mem_cons_of_mem x hy)
    · exact fun y hy => hn y (List.mem_cons_of_mem x hy)

/-- Changing the outer links of the end nodes changes what is at the ends. -/
theorem Linked.rewire {before' after' : Option Nat} (h : Linked hook m before xs after)
    (nodup : xs.Nodup)
    (hp : ∀ x ∈ xs, prev hook m' x = if xs.head? = some x then before' else prev hook m x)
    (hn : ∀ x ∈ xs, next hook m' x = if xs.getLast? = some x then after' else next hook m x) :
    Linked hook m' before' xs after' := by
  induction xs generalizing before before' with
  | nil => trivial
  | cons x xs ih =>
    obtain ⟨h₁, h₂, h₃⟩ := h
    obtain ⟨hx, nodup⟩ := List.nodup_cons.1 nodup
    refine ⟨?_, ?_, @ih (some x) (some x) h₃ nodup ?_ ?_⟩
    · rw [hp x List.mem_cons_self, if_pos List.head?_cons]
    · rw [hn x List.mem_cons_self]
      cases xs with
      | nil => simp
      | cons y ys =>
        have : (x :: y :: ys).getLast? ≠ some x := by
          rw [List.getLast?_cons_cons]
          exact fun e => hx (List.mem_of_getLast? e)
        rw [if_neg this, h₂]
        rfl
    · intro y hy
      have hxy : ¬ (x :: xs).head? = some y := by
        rintro ⟨⟩
        exact hx hy
      rw [hp y (List.mem_cons_of_mem x hy), if_neg hxy]
      cases xs with
      | nil => cases hy
      | cons z zs =>
        obtain ⟨hz, _, _⟩ := h₃
        by_cases hzy : z = y
        · subst hzy
          rw [if_pos List.head?_cons, hz]
        · rw [if_neg (by simpa using hzy)]
    · intro y hy
      rw [hn y (List.mem_cons_of_mem x hy)]
      cases xs with
      | nil => cases hy
      | cons z zs => rw [List.getLast?_cons_cons]

theorem Linked.prev_head {x : Nat} (h : Linked hook m before xs after) (hx : xs.head? = some x) :
    prev hook m x = before := by
  cases xs with
  | nil => cases hx
  | cons y ys =>
    obtain rfl : y = x := Option.some.inj hx
    exact h.1

theorem Linked.next_last {x : Nat} (h : Linked hook m before xs after)
    (hx : xs.getLast? = some x) : next hook m x = after := by
  rcases List.eq_nil_or_concat xs with rfl | ⟨ys, y, rfl⟩
  · cases hx
  · rw [List.concat_eq_append] at *
    obtain rfl : y = x := Option.some.inj (List.getLast?_concat.symm.trans hx)
    exact (linked_append.1 h).2.2.1

/-- The links that a run already has need not change. -/
theorem Linked.ends_iff (h : Linked hook m before xs after) :
    (∀ x ∈ xs, (if xs.head? = some x then before else prev hook m x) = prev hook m x) ∧
      ∀ x ∈ xs, (if xs.getLast? = some x then after else next hook m x) = next hook m x := by
  constructor
  · intro x _
    split
    · next hx => exact (h.prev_head hx).symm
    · rfl
  · intro x _
    split
    · next hx => exact (h.next_last hx).symm
    · rfl

theorem runLength_eq {first last n : Nat} (h : Linked hook m before xs after) (nodup : xs.Nodup)
    (hf : xs.head? = some first) (hl : xs.getLast? = some last) (hn : xs.length ≤ n) :
    runLength hook m last n first = .ok xs.length := by
  induction xs generalizing before first n with
  | nil => cases hf
  | cons x xs ih =>
    obtain rfl : x = first := Option.some.inj hf
    obtain ⟨_, h₂, h₃⟩ := h
    obtain ⟨hx, nodup⟩ := List.nodup_cons.1 nodup
    unfold runLength
    cases xs with
    | nil =>
      have hxl : x = last := Option.some.inj hl
      rw [if_pos hxl, List.length_singleton]
    | cons y ys =>
      rw [List.getLast?_cons_cons] at hl
      have hxl : x ≠ last := by
        rintro rfl
        exact hx (List.mem_of_getLast? hl)
      rw [if_neg hxl, h₂]
      cases n with
      | zero => exact absurd hn (by simp)
      | succ n =>
        simp only [List.head?_cons, Option.some_or]
        rw [ih h₃ nodup rfl hl (Nat.le_of_succ_le_succ hn)]
        rfl

theorem walkFrom_eq {n : Nat} (h : Linked hook m before xs none) (hn : xs.length ≤ n) :
    walkFrom hook m n xs.head? = .ofList xs := by
  induction xs generalizing before n with
  | nil => cases n <;> rfl
  | cons x xs ih =>
    obtain ⟨_, h₂, h₃⟩ := h
    cases n with
    | zero => exact absurd hn (by simp)
    | succ n =>
      rw [Option.or_none] at h₂
      rw [List.head?_cons, walkFrom, h₂, ih h₃ (Nat.le_of_succ_le_succ hn)]
      rfl

theorem walkBack_eq {n : Nat} (h : Linked hook m none xs after) (hn : xs.length ≤ n) :
    walkBack hook m n xs.getLast? = xs.reverse := by
  induction n generalizing xs after with
  | zero =>
    obtain rfl := List.eq_nil_of_length_eq_zero (Nat.le_zero.1 hn)
    rfl
  | succ n ih =>
    rcases List.eq_nil_or_concat xs with rfl | ⟨ys, x, rfl⟩
    · rfl
    · rw [List.concat_eq_append] at *
      obtain ⟨h₁, h₂, _, _⟩ := linked_append.1 h
      rw [Option.or_none] at h₂
      rw [List.getLast?_concat, walkBack, h₂, ih h₁ (by simpa using hn), List.reverse_append]
      rfl

end Linked

/-! ### Counting -/

section Counting

variable {m : Memory} {c : Chain hook} {first last n count : Nat} {change : Nat → Except Fault Nat}
  {fault : Fault}

theorem recount_eq_ok (h : change c.length = .ok n) :
    recount change (m, c) = .ok () (m, { c with length := n }) := by
  show EStateM.bind (liftM (change c.length)) _ (m, c) = _
  rw [h]
  rfl

/-- A run is counted, taken out, and then subtracted. -/
theorem unlinkRun_eq_ok (h : runLength hook m last c.length first = .ok count)
    (hn : Word.sub c.length count = .ok n) :
    unlinkRun first last (m, c) = .ok count
      (unwire hook m (prev hook m first) first last (next hook m last), {
        head := if (prev hook m first).isSome then c.head else next hook m last
        tail := if (next hook m last).isSome then c.tail else prev hook m first
        length := n }) := by
  show EStateM.bind (liftM (runLength hook m last c.length first)) _ (m, c) = _
  rw [h]
  show EStateM.bind (recount (Word.sub · count)) _ (_, _) = _
  rw [EStateM.bind, recount_eq_ok hn]
  rfl

/-- Nothing changes when `last` does not follow `first`. -/
theorem unlinkRun_eq_error (h : runLength hook m last c.length first = .error fault) :
    unlinkRun first last (m, c) = .error fault (m, c) := by
  show EStateM.bind (liftM (runLength hook m last c.length first)) _ (m, c) = _
  rw [h]
  rfl

end Counting

/-! ### The sequence of a chain -/

/-- The chain whose sequence is `xs`. -/
def ofNodes (xs : List Nat) : Chain hook :=
  ⟨xs.head?, xs.getLast?, xs.length⟩

/-- A chain and the links in memory stand for the sequence `xs`. -/
structure Holds (c : Chain hook) (m : Memory) (xs : List Nat) : Prop where
  ends : c = ofNodes xs
  links : Linked hook m none xs none

section Holds

variable {c : Chain hook} {m m' : Memory} {xs ys run : List Nat}

theorem holds_empty : Holds (empty : Chain hook) m [] := ⟨rfl, trivial⟩

theorem Holds.congr (h : Holds c m xs) (hp : ∀ x ∈ xs, prev hook m' x = prev hook m x)
    (hn : ∀ x ∈ xs, next hook m' x = next hook m x) : Holds c m' xs :=
  ⟨h.ends, h.links.congr hp hn⟩

/-- Walking gives the sequence, and does not lead past it. -/
theorem walk_eq (h : Holds c m xs) : c.walk m = .ofList xs := by
  obtain ⟨rfl, links⟩ := h
  exact walkFrom_eq links (Nat.le_refl _)

theorem members_eq (h : Holds c m xs) : c.members m = .ok xs := by
  rw [members, walk_eq h, Walk.all_ofList]

/-- Walking back gives the sequence in reverse. -/
theorem membersBack_eq (h : Holds c m xs) : c.membersBack m = xs.reverse := by
  obtain ⟨rfl, links⟩ := h
  exact walkBack_eq links (Nat.le_refl _)

/-! ### Moving runs -/

variable {before after : Option Nat} {first last : Nat}

/-- A run wired in between two parts of a sequence. -/
theorem linked_wire (h : Linked hook m none (xs ++ ys) none)
    (hr : Linked hook m before run after) (hf : run.head? = some first)
    (hl : run.getLast? = some last) (nodes : Nodes (xs ++ run ++ ys)) :
    Linked hook (wire hook m xs.getLast? first last ys.head?) none (xs ++ run ++ ys) none := by
  have firstIn := List.mem_of_mem_head? hf
  have lastIn := List.mem_of_getLast? hl
  obtain ⟨nodupLeft, nodupY, apartY⟩ := List.nodup_append.1 nodes.nodup
  obtain ⟨nodupX, nodupRun, apartX⟩ := List.nodup_append.1 nodupLeft
  obtain ⟨linkX, linkY⟩ := linked_append.1 h
  rw [Option.or_none] at linkX linkY
  have inX : ∀ x ∈ xs.getLast?, x ∈ xs ++ run ++ ys := fun x hx => by
    simp [List.mem_of_getLast? hx]
  have inY : ∀ x ∈ ys.head?, x ∈ xs ++ run ++ ys := fun x hx => by
    simp [List.mem_of_mem_head? hx]
  have prevEq := fun y hy => @prev_wire hook m _ xs.getLast? ys.head? first last y nodes inX inY
    (by simp [firstIn]) (by simp [lastIn]) hy
  have nextEq := fun y hy => @next_wire hook m _ xs.getLast? ys.head? first last y nodes inX inY
    (by simp [firstIn]) (by simp [lastIn]) hy
  rw [linked_append, linked_append]
  refine ⟨⟨?_, ?_⟩, ?_⟩
  · refine linkX.rewire nodupX (fun x hx => ?_) (fun x hx => ?_)
    · rw [prevEq x (by simp [hx]), linkX.ends_iff.1 x hx, if_neg, if_neg]
      · exact fun e => apartX x hx first firstIn e.symm
      · exact fun e => apartY x (by simp [hx]) x (List.mem_of_mem_head? e) rfl
    · rw [nextEq x (by simp [hx]), hf, Option.some_or]
      have : last ≠ x := fun e => apartX x hx last lastIn e.symm
      simp only [this, if_false]
  · refine hr.rewire nodupRun (fun x hx => ?_) (fun x hx => ?_)
    · rw [prevEq x (by simp [hx]), hf, if_neg, Option.or_none]
      · simp only [Option.some.injEq]
      · exact fun e => apartY x (by simp [hx]) x (List.mem_of_mem_head? e) rfl
    · rw [nextEq x (by simp [hx]), hl, if_neg, Option.or_none]
      · simp only [Option.some.injEq]
      · exact fun e => apartX x (List.mem_of_getLast? e) x hx rfl
  · refine linkY.rewire nodupY (fun x hx => ?_) (fun x hx => ?_)
    · rw [prevEq x (by simp [hx]), List.getLast?_append, hl]
      have : first ≠ x := fun e => apartY first (by simp [firstIn]) x hx e
      simp only [this, if_false, Option.some_or]
    · rw [nextEq x (by simp [hx]), linkY.ends_iff.2 x hx, if_neg, if_neg]
      · exact fun e => apartY last (by simp [lastIn]) x hx e
      · exact fun e => apartY x (by simp [List.mem_of_getLast? e]) x hx rfl

/-- A detached run is inserted in order before the rest `ys` of a sequence. -/
theorem spliceBefore_eq (h : Holds c m (xs ++ ys)) (hr : Linked hook m before run after)
    (hf : run.head? = some first) (hl : run.getLast? = some last)
    (nodes : Nodes (xs ++ run ++ ys)) (fits : (xs ++ run ++ ys).length < wordLimit) :
    spliceBefore ys.head? first last run.length (m, c) =
        .ok () (wire hook m xs.getLast? first last ys.head?, ofNodes (xs ++ run ++ ys)) ∧
      Holds (ofNodes (xs ++ run ++ ys) : Chain hook) (wire hook m xs.getLast? first last ys.head?)
        (xs ++ run ++ ys) := by
  obtain ⟨rfl, links⟩ := h
  refine ⟨?_, rfl, linked_wire links hr hf hl nodes⟩
  have left : (ofNodes (xs ++ ys) : Chain hook).lastBefore m ys.head? = xs.getLast? := by
    cases ys with
    | nil => simp [ofNodes, lastBefore]
    | cons y ys => exact ((linked_append.1 links).2.prev_head rfl).trans Option.or_none
  have length : Word.add (ofNodes (xs ++ ys) : Chain hook).length run.length =
      .ok (xs ++ run ++ ys).length := by
    rw [Word.add_eq_ok_iff]
    simp only [ofNodes, List.length_append] at *
    omega
  have ends : (⟨if xs.getLast?.isSome then (xs ++ ys).head? else some first,
      if ys.head?.isSome then (xs ++ ys).getLast? else some last,
      (xs ++ run ++ ys).length⟩ : Chain hook) = ofNodes (xs ++ run ++ ys) := by
    unfold ofNodes
    congr 1
    · cases xs <;> simp [hf]
    · cases ys <;> simp [hl, List.getLast?_append, List.getLast?_cons]
  show recount (Word.add · run.length) (wire hook m (lastBefore _ m ys.head?) first last _, _) = _
  rw [recount_eq_ok length, left]
  exact congrArg (fun d => EStateM.Result.ok () (_, d)) ends

/-- A run taken out of a sequence, which closes around it. -/
theorem linked_unwire (h : Linked hook m none (xs ++ run ++ ys) none)
    (hf : run.head? = some first) (hl : run.getLast? = some last)
    (nodes : Nodes (xs ++ run ++ ys)) :
    Linked hook (unwire hook m xs.getLast? first last ys.head?) none (xs ++ ys) none ∧
      Linked hook (unwire hook m xs.getLast? first last ys.head?) none run none := by
  have firstIn := List.mem_of_mem_head? hf
  have lastIn := List.mem_of_getLast? hl
  obtain ⟨nodupLeft, nodupY, apartY⟩ := List.nodup_append.1 nodes.nodup
  obtain ⟨nodupX, nodupRun, apartX⟩ := List.nodup_append.1 nodupLeft
  obtain ⟨linkLeft, linkY⟩ := linked_append.1 h
  obtain ⟨linkX, linkRun⟩ := linked_append.1 linkLeft
  have inX : ∀ x ∈ xs.getLast?, x ∈ xs ++ run ++ ys := fun x hx => by
    simp [List.mem_of_getLast? hx]
  have inY : ∀ x ∈ ys.head?, x ∈ xs ++ run ++ ys := fun x hx => by
    simp [List.mem_of_mem_head? hx]
  have prevEq := fun y hy => @prev_unwire hook m _ xs.getLast? ys.head? first last y nodes inX inY
    (by simp [firstIn]) (by simp [lastIn]) hy
  have nextEq := fun y hy => @next_unwire hook m _ xs.getLast? ys.head? first last y nodes inX inY
    (by simp [firstIn]) (by simp [lastIn]) hy
  rw [linked_append]
  refine ⟨⟨?_, ?_⟩, ?_⟩
  · refine linkX.rewire nodupX (fun x hx => ?_) (fun x hx => ?_)
    · rw [prevEq x (by simp [hx]), linkX.ends_iff.1 x hx, if_neg, if_neg]
      · exact fun e => apartY x (by simp [hx]) x (List.mem_of_mem_head? e) rfl
      · exact fun e => apartX x hx first firstIn e.symm
    · rw [nextEq x (by simp [hx]), if_neg (fun e => apartX x hx last lastIn e.symm), Option.or_none]
  · refine linkY.rewire nodupY (fun x hx => ?_) (fun x hx => ?_)
    · rw [prevEq x (by simp [hx]), if_neg (fun e => apartY first (by simp [firstIn]) x hx e),
        Option.or_none]
    · rw [nextEq x (by simp [hx]), linkY.ends_iff.2 x hx, if_neg, if_neg]
      · exact fun e => apartY x (by simp [List.mem_of_getLast? e]) x hx rfl
      · exact fun e => apartY last (by simp [lastIn]) x hx e
  · refine linkRun.rewire nodupRun (fun x hx => ?_) (fun x hx => ?_)
    · rw [prevEq x (by simp [hx]), hf]
      have : ys.head? ≠ some x := fun e => apartY x (by simp [hx]) x (List.mem_of_mem_head? e) rfl
      simp only [this, if_false, Option.some.injEq]
    · rw [nextEq x (by simp [hx]), hl]
      have : xs.getLast? ≠ some x := fun e => apartX x (List.mem_of_getLast? e) x hx rfl
      simp only [this, if_false, Option.some.injEq]

/-- A run of members is taken out and counted, and stays a run. -/
theorem unlinkRun_eq (h : Holds c m (xs ++ run ++ ys)) (hf : run.head? = some first)
    (hl : run.getLast? = some last) (nodes : Nodes (xs ++ run ++ ys)) :
    unlinkRun first last (m, c) =
        .ok run.length (unwire hook m xs.getLast? first last ys.head?, ofNodes (xs ++ ys)) ∧
      Holds (ofNodes (xs ++ ys) : Chain hook) (unwire hook m xs.getLast? first last ys.head?)
        (xs ++ ys) ∧
      Linked hook (unwire hook m xs.getLast? first last ys.head?) none run none := by
  obtain ⟨rfl, links⟩ := h
  obtain ⟨linkRest, linkRun⟩ := linked_unwire links hf hl nodes
  refine ⟨?_, ⟨rfl, linkRest⟩, linkRun⟩
  have inner := (linked_append.1 (linked_append.1 links).1).2
  have nodupRun := (List.nodup_append.1 (List.nodup_append.1 nodes.nodup).1).2.1
  have count : runLength hook m last (ofNodes (xs ++ run ++ ys) : Chain hook).length first =
      .ok run.length :=
    runLength_eq inner nodupRun hf hl (by simp only [ofNodes, List.length_append]; omega)
  have left : prev hook m first = xs.getLast? := by
    rw [inner.prev_head hf, Option.or_none]
  have right : next hook m last = ys.head? := by
    rw [inner.next_last hl, Option.or_none]
  have length : Word.sub (ofNodes (xs ++ run ++ ys) : Chain hook).length run.length =
      .ok (xs ++ ys).length := by
    rw [Word.sub_eq_ok_iff]
    simp only [ofNodes, List.length_append]
    omega
  have ends : (⟨if xs.getLast?.isSome then (xs ++ run ++ ys).head? else ys.head?,
      if ys.head?.isSome then (xs ++ run ++ ys).getLast? else xs.getLast?,
      (xs ++ ys).length⟩ : Chain hook) = ofNodes (xs ++ ys) := by
    unfold ofNodes
    congr 1
    · cases xs <;> simp
    · cases ys <;> simp [List.getLast?_cons]
  rw [unlinkRun_eq_ok count length, left, right]
  exact congrArg (fun d => EStateM.Result.ok _ (_, d)) ends

end Holds

end RegionHeap.Chain
