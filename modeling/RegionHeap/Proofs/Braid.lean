import RegionHeap.Proofs.Sequence

/-!
# Two chains through the same items

Items that keep the links of two chains, each pair of links at a place of its own. Each chain is a sequence
of items, and neither notices what is asked of the other one.

* `Layout.Placed` — where the items may be.
* `Sequences.Run` — what becomes of two sequences when changes are asked of either.
* `Braid.step`, `Braid.run` — the chains do what the sequences do, at each step and so in the whole run.
* `Braid.run_refines` — what can be read off both chains after any run.
-/

set_option autoImplicit false

namespace RegionHeap

open Chain (Edit Sequence)

/-! ### Items -/

/-- Where an item keeps the links of each chain. -/
structure Layout where
  /-- Where the links of the first chain are, counted from the start of the item. -/
  first : Nat
  /-- Where the links of the second chain are. -/
  second : Nat
  /-- Bytes of an item. -/
  size : Nat
  first_le : first + 2 * wordSize ≤ size := by decide
  second_le : second + 2 * wordSize ≤ size := by decide
  apart : first + 2 * wordSize ≤ second ∨ second + 2 * wordSize ≤ first := by decide

/-- The items do not overlap, and a word can hold where each of them starts. -/
structure Layout.Placed (l : Layout) (items : List Nat) : Prop where
  address : ∀ x ∈ items, x ≠ 0 ∧ x < wordLimit
  nodup : items.Nodup
  room : ∀ x ∈ items, ∀ y ∈ items, x ≠ y → x + l.size ≤ y ∨ y + l.size ≤ x

namespace Layout.Placed

variable {l : Layout} {items : List Nat} {x i : Nat}

theorem nodes (P : l.Placed items) : Chain.Nodes items where
  address := P.address
  nodup := P.nodup
  apart x hx y hy ne := by
    have := P.room x hx y hy ne
    have := l.first_le
    unfold Chain.Apart
    omega

/-- Links at one place of the items are none of those at another place. -/
theorem outside {hook other : Nat} (P : l.Placed items) (fits : hook + 2 * wordSize ≤ l.size)
    (other_fits : other + 2 * wordSize ≤ l.size)
    (apart : hook + 2 * wordSize ≤ other ∨ other + 2 * wordSize ≤ hook) (hx : x ∈ items)
    (lo : x + other ≤ i) (up : i < x + other + 2 * wordSize) : Chain.Outside hook items i := by
  intro y hy
  by_cases e : x = y
  · omega
  · have := P.room x hx y hy e
    omega

end Layout.Placed

/-- One of two chains. -/
inductive Strand where
  | first
  | second
  deriving DecidableEq, Repr

/-! ### Two sequences -/

/-- The sequences that two chains stand for. -/
structure Sequences where
  first : Sequence := {}
  second : Sequence := {}
  deriving DecidableEq, Repr

namespace Sequences

/-- The sequence of one of the chains. -/
def of (s : Sequences) : Strand → Sequence
  | .first => s.first
  | .second => s.second

/-- A change that is asked of one chain is a change of its sequence alone. -/
inductive Step (items : List Nat) (s : Sequences) :
    Strand → Edit → Except Fault (Option Nat) → Sequences → Prop
  | first {e : Edit} {answer : Except Fault (Option Nat)} {first : Sequence}
      (step : s.first.Step items e answer first) : Step items s .first e answer { s with first }
  | second {e : Edit} {answer : Except Fault (Option Nat)} {second : Sequence}
      (step : s.second.Step items e answer second) : Step items s .second e answer { s with second }

/-- Changes that are asked of either chain, in order, with their answers. -/
inductive Run (items : List Nat) :
    Sequences → List (Strand × Edit) → List (Except Fault (Option Nat)) → Sequences → Prop
  | nil {s : Sequences} : Run items s [] [] s
  | cons {s s' s'' : Sequences} {strand : Strand} {e : Edit} {answer : Except Fault (Option Nat)}
      {es : List (Strand × Edit)} {answers : List (Except Fault (Option Nat))}
      (step : Step items s strand e answer s') (rest : Run items s' es answers s'') :
      Run items s ((strand, e) :: es) (answer :: answers) s''

/-- Whatever may be asked of a chain is done. -/
theorem exists_step {items : List Nat} {s : Sequences} {strand : Strand} {e : Edit}
    (legal : (s.of strand).Legal items e) : ∃ answer s', Step items s strand e answer s' := by
  obtain ⟨answer, t, step⟩ := Sequence.exists_step legal
  cases strand with
  | first => exact ⟨answer, _, .first step⟩
  | second => exact ⟨answer, _, .second step⟩

end Sequences

/-! ### Two chains -/

/-- Two chains and the memory that their items live in. -/
structure Braid (l : Layout) where
  memory : Memory
  first : Chain l.first := .empty
  second : Chain l.second := .empty

namespace Braid

variable {l : Layout} {items : List Nat} {t : Braid l} {s s' : Sequences}

/-- Makes a change of one of the chains. -/
def edit (t : Braid l) (e : Edit) : Strand → Except Fault (Option Nat) × Braid l
  | .first =>
    let (answer, memory, first) := e.run t.memory t.first
    (answer, { t with memory, first })
  | .second =>
    let (answer, memory, second) := e.run t.memory t.second
    (answer, { t with memory, second })

/-- Makes changes in order, whatever the answers are. -/
def edits (t : Braid l) : List (Strand × Edit) → List (Except Fault (Option Nat)) × Braid l
  | [] => ([], t)
  | (strand, e) :: es =>
    let (answer, t) := t.edit e strand
    let (answers, t) := t.edits es
    (answer :: answers, t)

/-- The chains and the links in memory spell the sequences. -/
structure Spells (items : List Nat) (t : Braid l) (s : Sequences) : Prop where
  first : t.first.Spells items t.memory s.first
  second : t.second.Spells items t.memory s.second

/-- A chain does what its sequence does, and the other one does nothing. -/
theorem step {strand : Strand} {e : Edit} {answer : Except Fault (Option Nat)}
    (placed : l.Placed items) (S : Spells items t s) (step : s.Step items strand e answer s') :
    ∃ t', t.edit e strand = (answer, t') ∧ Spells items t' s' := by
  cases step with
  | first step =>
    obtain ⟨memory, first, run, spelled, same⟩ := S.first.step placed.nodes step
    refine ⟨{ t with memory, first }, ?_, spelled, S.second.of_bytes fun x hx i lo up =>
      same i (placed.outside l.first_le l.second_le l.apart hx lo up)⟩
    unfold edit
    rw [run]
  | second step =>
    obtain ⟨memory, second, run, spelled, same⟩ := S.second.step placed.nodes step
    refine ⟨{ t with memory, second }, ?_, S.first.of_bytes fun x hx i lo up =>
      same i (placed.outside l.second_le l.first_le l.apart.symm hx lo up), spelled⟩
    unfold edit
    rw [run]

/-- Whatever is asked of them, the chains do what the sequences do. -/
theorem run {es : List (Strand × Edit)} {answers : List (Except Fault (Option Nat))}
    (placed : l.Placed items) (S : Spells items t s) (run : Sequences.Run items s es answers s') :
    ∃ t', t.edits es = (answers, t') ∧ Spells items t' s' := by
  induction run generalizing t with
  | nil => exact ⟨t, rfl, S⟩
  | cons now _ ih =>
    obtain ⟨t₁, now_eq, S₁⟩ := step placed S now
    obtain ⟨t', later_eq, S'⟩ := ih S₁
    refine ⟨t', ?_, S'⟩
    unfold edits
    rw [now_eq]
    dsimp only
    rw [later_eq]

/-- **Two chains through the same items are two sequences.** Whatever is asked of them, in any order, each
answers as its sequence does, the fault for a run whose end comes before its start included, and what can
be read off it afterwards is what its sequence says. No change of one chain is seen in the other. And
whatever may be asked of a chain next is done. -/
theorem run_refines {es : List (Strand × Edit)} {answers : List (Except Fault (Option Nat))}
    (placed : l.Placed items) (memory : Memory) (run : Sequences.Run items {} es answers s) :
    (∃ t : Braid l, edits { memory } es = (answers, t) ∧ t.first.Shows t.memory s.first ∧
      t.second.Shows t.memory s.second) ∧
      ∀ strand e, (s.of strand).Legal items e → ∃ answer s', s.Step items strand e answer s' := by
  have S : Spells items ({ memory } : Braid l) {} := ⟨Chain.spells_empty, Chain.spells_empty⟩
  obtain ⟨t, run_eq, S'⟩ := Braid.run placed S run
  exact ⟨⟨t, run_eq, S'.first.shows, S'.second.shows⟩, fun _ _ => Sequences.exists_step⟩

/-- Five items in both chains. A run of two is taken out of the first chain, which gets another item and is
asked for a run from its last member to its first, before the run is put at the end. Meanwhile an item
leaves the second chain. -/
theorem run_refines_moved : ∃ es answers s,
    es = [(.first, .pushBack 32), (.first, .pushBack 64), (.first, .pushBack 96),
      (.first, .pushBack 128), (.second, .pushBack 64), (.second, .insertBefore (some 64) 32),
      (.first, .unlinkRun 64 96), (.first, .insertAfter 32 160), (.first, .unlinkRun 128 32),
      (.first, .spliceBefore none 64 96 2), (.second, .remove 64)] ∧
    answers = [.ok none, .ok none, .ok none, .ok none, .ok none, .ok none, .ok (some 2), .ok none,
      .error .endNotReachable, .ok none, .ok none] ∧
    s = ⟨⟨[32, 160, 128, 64, 96], []⟩, ⟨[32], [[64]]⟩⟩ ∧
    Sequences.Run [32, 64, 96, 128, 160] {} es answers s ∧
    ∃ t : Braid { first := 0, second := 16, size := 32 },
      edits { memory := .blank } es = (answers, t) ∧ t.first.Shows t.memory s.first ∧
        t.second.Shows t.memory s.second := by
  have placed : Layout.Placed { first := 0, second := 16, size := 32 } [32, 64, 96, 128, 160] :=
    ⟨by decide, by decide, by decide⟩
  have run : Sequences.Run [32, 64, 96, 128, 160] {}
      [(.first, .pushBack 32), (.first, .pushBack 64), (.first, .pushBack 96),
        (.first, .pushBack 128), (.second, .pushBack 64), (.second, .insertBefore (some 64) 32),
        (.first, .unlinkRun 64 96), (.first, .insertAfter 32 160), (.first, .unlinkRun 128 32),
        (.first, .spliceBefore none 64 96 2), (.second, .remove 64)]
      [.ok none, .ok none, .ok none, .ok none, .ok none, .ok none, .ok (some 2), .ok none,
        .error .endNotReachable, .ok none, .ok none]
      ⟨⟨[32, 160, 128, 64, 96], []⟩, ⟨[32], [[64]]⟩⟩ :=
    .cons (.first (.pushBack (by decide) (by decide))) <|
    .cons (.first (.pushBack (by decide) (by decide))) <|
    .cons (.first (.pushBack (by decide) (by decide))) <|
    .cons (.first (.pushBack (by decide) (by decide))) <|
    .cons (.second (.pushBack (by decide) (by decide))) <|
    .cons (.second (@Sequence.Step.insertBefore _ _ [] [64] 32 rfl (by decide) (by decide))) <|
    .cons (.first (@Sequence.Step.unlinkRun _ _ [32] [64, 96] [128] 64 96 rfl rfl rfl)) <|
    .cons (.first (@Sequence.Step.insertAfter _ _ [] [128] 32 160 rfl (by decide) (by decide))) <|
    .cons (.first (@Sequence.Step.unlinkBackwards _ _ [] [160] [] 128 32 rfl)) <|
    .cons (.first (@Sequence.Step.spliceBefore _ _ [32, 160, 128] [64, 96] [] 64 96 rfl (by decide)
      rfl rfl)) <|
    .cons (.second (@Sequence.Step.remove _ _ [32] [] 64 rfl)) .nil
  exact ⟨_, _, _, rfl, rfl, rfl, run, (run_refines placed .blank run).1⟩

end Braid

end RegionHeap
