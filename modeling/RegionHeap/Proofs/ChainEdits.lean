import RegionHeap.Proofs.Marks

/-!
# Linking and unlinking one node

A single node is a run of one, so linking it in and taking it out are `spliceBefore_eq` and
`unlinkRun_eq` at that run. Each lemma here says what the chain stands for afterwards, that no byte
outside the links of its nodes changed, and that links between aligned nodes bring no mark
(`Chain.Turns`).
-/

set_option autoImplicit false

namespace RegionHeap.Chain

variable {hook : Nat} {m : Memory} {c : Chain hook} {xs ys : List Nat} {node : Nat}

/-- The change ends well: it leaves the memory `m'`, the chain stands for `zs` afterwards, and only links
of `ws` were written. -/
def Turns {α : Type} (change : ChainM hook α) (m : Memory) (c : Chain hook) (m' : Memory)
    (ws zs : List Nat) : Prop :=
  (∃ a, change (m, c) = .ok a (m', ofNodes zs)) ∧ Holds (ofNodes zs : Chain hook) m' zs ∧
    (∀ i, Outside hook ws i → m'.byte i = m.byte i) ∧
    (Aligned hook ws → m.QuietBut (fun _ => False) m')

theorem Outside.mono {ws zs : List Nat} {i : Nat} (h : Outside hook zs i) (sub : ∀ x ∈ ws, x ∈ zs) :
    Outside hook ws i :=
  fun x hx => h x (sub x hx)

/-- A node by itself is a run. -/
theorem linked_singleton : Linked hook m (prev hook m node) [node] (next hook m node) := by
  refine ⟨rfl, ?_, trivial⟩
  simp

/-- A node is linked in between two parts of a sequence. -/
theorem insertBefore_turns (h : Holds c m (xs ++ ys)) (nodes : Nodes (xs ++ [node] ++ ys))
    (fits : (xs ++ [node] ++ ys).length < wordLimit) :
    Turns (insertBefore ys.head? node) m c (wire hook m xs.getLast? node node ys.head?)
      (xs ++ [node] ++ ys) (xs ++ [node] ++ ys) := by
  obtain ⟨run, holds⟩ := spliceBefore_eq h linked_singleton rfl rfl nodes fits
  have left : ∀ x ∈ xs.getLast?, x ∈ xs ++ [node] ++ ys :=
    fun x hx => by simp [List.mem_of_getLast? hx]
  have right : ∀ x ∈ ys.head?, x ∈ xs ++ [node] ++ ys :=
    fun x hx => by simp [List.mem_of_mem_head? hx]
  have inside : node ∈ xs ++ [node] ++ ys := by simp
  exact ⟨⟨(), run⟩, holds, fun i out => byte_wire_of_outside out left right inside inside,
    fun aligned => quiet_wire aligned left right inside inside⟩

/-- A node is linked in at the end. -/
theorem pushBack_turns (h : Holds c m xs) (nodes : Nodes (xs ++ [node]))
    (fits : (xs ++ [node]).length < wordLimit) :
    Turns (pushBack node) m c (wire hook m xs.getLast? node node none) (xs ++ [node])
      (xs ++ [node]) := by
  have := @insertBefore_turns hook m c xs [] node (by simpa using h) (by simpa using nodes)
    (by simpa using fits)
  rw [List.append_nil] at this
  exact this

theorem get_bind {α : Type} (f : Memory × Chain hook → ChainM hook α) :
    (get >>= f) (m, c) = f (m, c) (m, c) :=
  rfl

theorem insertAfter_eq {after : Nat} :
    insertAfter after node (m, c) = insertBefore (next hook m after) node (m, c) := by
  unfold insertAfter
  rw [get_bind]

/-- A node is linked in right after the member `after`. -/
theorem insertAfter_turns {after : Nat} (h : Holds c m (xs ++ after :: ys))
    (nodes : Nodes (xs ++ after :: node :: ys))
    (fits : (xs ++ after :: node :: ys).length < wordLimit) :
    Turns (insertAfter after node) m c (wire hook m (some after) node node ys.head?)
      (xs ++ after :: node :: ys) (xs ++ after :: node :: ys) := by
  have next_after : next hook m after = ys.head? := by
    have := (linked_append.1 h.links).2.2.1
    rwa [Option.or_none] at this
  have := @insertBefore_turns hook m c (xs ++ [after]) ys node (by simpa using h)
    (by simpa using nodes) (by simpa using fits)
  have list : xs ++ [after] ++ [node] ++ ys = xs ++ after :: node :: ys := by simp
  rw [list, List.getLast?_concat] at this
  obtain ⟨⟨a, run⟩, rest⟩ := this
  refine ⟨⟨a, ?_⟩, rest⟩
  rw [insertAfter_eq, next_after, run]

/-- A member is taken out. -/
theorem remove_turns (h : Holds c m (xs ++ node :: ys)) (nodes : Nodes (xs ++ node :: ys)) :
    Turns (remove node) m c (unwire hook m xs.getLast? node node ys.head?) (xs ++ node :: ys)
      (xs ++ ys) := by
  obtain ⟨run, holds, _⟩ := @unlinkRun_eq hook c m xs ys [node] node node (by simpa using h) rfl rfl
    (by simpa using nodes)
  have left : ∀ x ∈ xs.getLast?, x ∈ xs ++ node :: ys :=
    fun x hx => by simp [List.mem_of_getLast? hx]
  have right : ∀ x ∈ ys.head?, x ∈ xs ++ node :: ys :=
    fun x hx => by simp [List.mem_of_mem_head? hx]
  have inside : node ∈ xs ++ node :: ys := by simp
  refine ⟨⟨(), ?_⟩, holds, fun i out => byte_unwire_of_outside out left right inside inside,
    fun aligned => quiet_unwire aligned left right inside inside⟩
  show (discard (unlinkRun node node) : ChainM hook Unit) (m, c) = _
  show EStateM.map _ (unlinkRun node node) (m, c) = _
  unfold EStateM.map
  rw [run]

end RegionHeap.Chain
