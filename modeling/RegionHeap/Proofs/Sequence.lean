import Mathlib.Data.List.Nodup
import Mathlib.Data.List.Perm.Subperm
import RegionHeap.Proofs.ChainEdits

/-!
# Chains as sequences under changes

What may be asked of a chain, and what that does to the sequence of its members and to the runs that were
taken out of it. The nodes come from a list of items, which leave room for each other's links.

* `Sequence.Step` — each change as a change of a sequence; `Sequence.exists_step` says that none which may
  be asked for is left out.
* `Spells.step` — the chain does what the sequence does, answers alike, and writes no byte but links of
  items.
* `Spells.shows` — what can be read off the chain is what the sequence says.
-/

set_option autoImplicit false

namespace RegionHeap.Chain

variable {hook : Nat}

/-! ### Changes -/

/-- A change that may be asked of a chain. -/
inductive Edit where
  | pushBack (node : Nat)
  | insertBefore (before : Option Nat) (node : Nat)
  | insertAfter (after node : Nat)
  | spliceBefore (before : Option Nat) (first last count : Nat)
  | remove (node : Nat)
  | unlinkRun (first last : Nat)
  deriving DecidableEq, Repr

/-- Makes the change. The answer is the length of the run that was taken out, where the change counts
it. -/
def Edit.perform : Edit → ChainM hook (Option Nat)
  | pushBack node => do
    Chain.pushBack node
    return none
  | insertBefore before node => do
    Chain.insertBefore before node
    return none
  | insertAfter after node => do
    Chain.insertAfter after node
    return none
  | spliceBefore before first last count => do
    Chain.spliceBefore before first last count
    return none
  | remove node => do
    Chain.remove node
    return none
  | unlinkRun first last =>
    return some (← Chain.unlinkRun first last)

/-- The answer of the change, or the fault that stopped it, with the memory and the chain that it left. -/
def Edit.run (e : Edit) (m : Memory) (c : Chain hook) :
    Except Fault (Option Nat) × Memory × Chain hook :=
  match e.perform (m, c) with
  | .ok answer left => (.ok answer, left)
  | .error fault left => (.error fault, left)

theorem Edit.perform_of_ok {call : ChainM hook Unit} {m : Memory} {c : Chain hook}
    {left : Memory × Chain hook} (run : call (m, c) = .ok () left) :
    (do call; return none : ChainM hook (Option Nat)) (m, c) = .ok none left := by
  show EStateM.bind call _ (m, c) = _
  rw [EStateM.bind, run]
  rfl

theorem Edit.run_of_ok {e : Edit} {m : Memory} {c : Chain hook} {answer : Option Nat}
    {left : Memory × Chain hook} (run : e.perform (m, c) = .ok answer left) :
    e.run m c = (.ok answer, left) := by
  unfold Edit.run
  rw [run]

theorem Edit.run_of_error {e : Edit} {m : Memory} {c : Chain hook} {fault : Fault}
    {left : Memory × Chain hook} (run : e.perform (m, c) = .error fault left) :
    e.run m c = (.error fault, left) := by
  unfold Edit.run
  rw [run]

/-! ### Sequences -/

/-- The members of a chain in order, and the runs that were taken out of it, latest first. -/
structure Sequence where
  members : List Nat := []
  loose : List (List Nat) := []
  deriving DecidableEq, Repr

namespace Sequence

/-- The sequence with `run` between the two parts of its members. A loose run that has a node of it is
loose no more. -/
def link (s : Sequence) (xs run ys : List Nat) : Sequence where
  members := xs ++ run ++ ys
  loose := s.loose.filter fun other => ∀ x ∈ run, x ∉ other

/-- The sequence without the `run` between two parts of its members, which is loose now. -/
def unlink (s : Sequence) (xs run ys : List Nat) : Sequence where
  members := xs ++ ys
  loose := run :: s.loose

/-- What a change does to a sequence, and its answer. -/
inductive Step (items : List Nat) (s : Sequence) :
    Edit → Except Fault (Option Nat) → Sequence → Prop
  | pushBack {node : Nat} (item : node ∈ items) (new : node ∉ s.members) :
      Step items s (.pushBack node) (.ok none) (s.link s.members [node] [])
  | insertBefore {xs ys : List Nat} {node : Nat} (parts : s.members = xs ++ ys) (item : node ∈ items)
      (new : node ∉ s.members) :
      Step items s (.insertBefore ys.head? node) (.ok none) (s.link xs [node] ys)
  | insertAfter {xs ys : List Nat} {after node : Nat} (parts : s.members = xs ++ after :: ys)
      (item : node ∈ items) (new : node ∉ s.members) :
      Step items s (.insertAfter after node) (.ok none) (s.link (xs ++ [after]) [node] ys)
  | spliceBefore {xs run ys : List Nat} {first last : Nat} (parts : s.members = xs ++ ys)
      (loose : run ∈ s.loose) (head : run.head? = some first) (tail : run.getLast? = some last) :
      Step items s (.spliceBefore ys.head? first last run.length) (.ok none) (s.link xs run ys)
  | remove {xs ys : List Nat} {node : Nat} (parts : s.members = xs ++ node :: ys) :
      Step items s (.remove node) (.ok none) (s.unlink xs [node] ys)
  | unlinkRun {xs run ys : List Nat} {first last : Nat} (parts : s.members = xs ++ run ++ ys)
      (head : run.head? = some first) (tail : run.getLast? = some last) :
      Step items s (.unlinkRun first last) (.ok (some run.length)) (s.unlink xs run ys)
  | unlinkBackwards {xs ys zs : List Nat} {first last : Nat}
      (parts : s.members = xs ++ last :: ys ++ first :: zs) :
      Step items s (.unlinkRun first last) (.error .endNotReachable) s

/-- The change may be asked for: members are named where members are asked for, nodes that are linked in
are items and no members, and runs that are linked in are loose and counted. -/
def Legal (items : List Nat) (s : Sequence) : Edit → Prop
  | .pushBack node => node ∈ items ∧ node ∉ s.members
  | .insertBefore before node => (∀ x ∈ before, x ∈ s.members) ∧ node ∈ items ∧ node ∉ s.members
  | .insertAfter after node => after ∈ s.members ∧ node ∈ items ∧ node ∉ s.members
  | .spliceBefore before first last count => (∀ x ∈ before, x ∈ s.members) ∧
      ∃ run ∈ s.loose, run.head? = some first ∧ run.getLast? = some last ∧ run.length = count
  | .remove node => node ∈ s.members
  | .unlinkRun first last => first ∈ s.members ∧ last ∈ s.members

/-- The place before a member, or at the end. -/
theorem exists_parts {xs : List Nat} {before : Option Nat} (member : ∀ x ∈ before, x ∈ xs) :
    ∃ us vs, xs = us ++ vs ∧ vs.head? = before := by
  cases before with
  | none => exact ⟨xs, [], by simp⟩
  | some x =>
    obtain ⟨us, vs, e⟩ := List.append_of_mem (member x rfl)
    exact ⟨us, x :: vs, e, rfl⟩

/-- Whatever may be asked for is done. -/
theorem exists_step {items : List Nat} {s : Sequence} {e : Edit} (legal : s.Legal items e) :
    ∃ answer s', Step items s e answer s' := by
  cases e with
  | pushBack node => exact ⟨_, _, .pushBack legal.1 legal.2⟩
  | insertBefore before node =>
    obtain ⟨member, item, new⟩ := legal
    obtain ⟨xs, ys, parts, rfl⟩ := exists_parts member
    exact ⟨_, _, .insertBefore parts item new⟩
  | insertAfter after node =>
    obtain ⟨member, item, new⟩ := legal
    obtain ⟨xs, ys, parts⟩ := List.append_of_mem member
    exact ⟨_, _, .insertAfter parts item new⟩
  | spliceBefore before first last count =>
    obtain ⟨member, run, loose, head, tail, rfl⟩ := legal
    obtain ⟨xs, ys, parts, rfl⟩ := exists_parts member
    exact ⟨_, _, .spliceBefore parts loose head tail⟩
  | remove node =>
    obtain ⟨xs, ys, parts⟩ := List.append_of_mem legal
    exact ⟨_, _, .remove parts⟩
  | unlinkRun first last =>
    obtain ⟨xs, rest, parts⟩ := List.append_of_mem legal.1
    by_cases reachable : last ∈ first :: rest
    · obtain ⟨us, ys, e⟩ := List.append_of_mem reachable
      refine ⟨_, _, @Step.unlinkRun items s xs (us ++ [last]) ys first last ?_ ?_ (by simp)⟩
      · rw [parts, e]
        simp
      · have := congrArg List.head? e
        cases us <;> simpa using this.symm
    · have earlier : last ∈ xs := by
        have := legal.2
        rw [parts, List.mem_append] at this
        exact this.resolve_right reachable
      obtain ⟨us, vs, e⟩ := List.append_of_mem earlier
      exact ⟨_, _, @Step.unlinkBackwards items s us vs rest first last (by rw [parts, e])⟩

end Sequence

/-! ### More on links -/

section Links

variable {m : Memory} {before after : Option Nat} {xs ys items : List Nat} {x first last n : Nat}

/-- There are fewer addresses than words. -/
theorem Nodes.length_lt (h : Nodes xs) : xs.length < wordLimit := by
  have sub : xs ⊆ List.range' 1 (wordLimit - 1) := by
    intro x hx
    obtain ⟨pos, lt⟩ := h.address x hx
    rw [List.mem_range'_1]
    omega
  have := (List.subperm_of_subset h.nodup sub).length_le
  rw [List.length_range'] at this
  have pos : 0 < wordLimit := by decide
  omega

/-- The neighbours of a member. -/
theorem Linked.neighbours (h : Linked hook m before (xs ++ x :: ys) after) :
    prev hook m x = xs.getLast?.or before ∧ next hook m x = ys.head?.or after := by
  obtain ⟨_, prev_eq, next_eq, _⟩ := linked_append.1 h
  exact ⟨prev_eq, next_eq⟩

/-- An end that does not follow the start is not reached. -/
theorem runLength_eq_error (h : Linked hook m before xs none) (hf : xs.head? = some first)
    (unreachable : last ∉ xs) : runLength hook m last n first = .error .endNotReachable := by
  induction xs generalizing before first n with
  | nil => cases hf
  | cons x xs ih =>
    obtain rfl : x = first := Option.some.inj hf
    obtain ⟨ne, unreachable⟩ : x ≠ last ∧ last ∉ xs := by
      simpa [eq_comm] using unreachable
    obtain ⟨_, next_eq, links⟩ := h
    rw [Option.or_none] at next_eq
    unfold runLength
    rw [if_neg ne, next_eq]
    cases n with
    | zero => rfl
    | succ n =>
      cases xs with
      | nil => rfl
      | cons y ys =>
        dsimp only [List.head?_cons]
        rw [ih links rfl unreachable]
        rfl

/-- A walk that visits `k` nodes meets the first `k`, and then nothing, and knows how many are left. -/
theorem Cursor.take_eq (h : Linked hook m before xs none) (k : Nat) :
    (⟨xs.head?, xs.length⟩ : Cursor hook).take m k =
      .ok ((xs.take k).map some ++ List.replicate (k - xs.length) none,
        ⟨(xs.drop k).head?, xs.length - k⟩) := by
  induction k generalizing before xs with
  | zero => simp [Cursor.take]
  | succ k ih =>
    cases xs with
    | nil =>
      have rest := @ih none [] trivial
      unfold Cursor.take
      simp only [List.head?_nil, List.length_nil] at rest ⊢
      show ((Cursor.take ⟨none, 0⟩ m k >>= _) : Except Fault _) = _
      rw [rest]
      simp [bind, Except.bind, pure, Except.pure, List.replicate_succ]
    | cons x xs =>
      obtain ⟨_, next_eq, links⟩ := h
      rw [Option.or_none] at next_eq
      unfold Cursor.take Cursor.advance
      simp only [List.head?_cons, List.length_cons]
      rw [Word.sub_eq_ok (Nat.succ_le_succ (Nat.zero_le _)), next_eq]
      show ((Cursor.take ⟨xs.head?, xs.length + 1 - 1⟩ m k >>= _) : Except Fault _) = _
      rw [Nat.add_sub_cancel, ih links]
      simp [bind, Except.bind, pure, Except.pure]

end Links

/-! ### What a chain spells -/

/-- The links of a run that is loose, whose nodes are items but no members. -/
structure Loose (hook : Nat) (items : List Nat) (m : Memory) (members run : List Nat) : Prop where
  links : Linked hook m none run none
  nodup : run.Nodup
  sub : ∀ x ∈ run, x ∈ items
  new : ∀ x ∈ run, x ∉ members

/-- The chain and the links of the items in memory spell the sequence. -/
structure Spells (items : List Nat) (c : Chain hook) (m : Memory) (s : Sequence) : Prop where
  holds : Holds c m s.members
  nodup : s.members.Nodup
  sub : ∀ x ∈ s.members, x ∈ items
  loose : ∀ run ∈ s.loose, Loose hook items m s.members run

theorem spells_empty {items : List Nat} {m : Memory} :
    Spells items (empty : Chain hook) m {} :=
  ⟨holds_empty, List.nodup_nil, by simp, by simp⟩

namespace Spells

variable {items xs run ys : List Nat} {c : Chain hook} {m m' : Memory} {s : Sequence}
  {first last : Nat} {before after : Option Nat}

/-- The chain and its links do not depend on other bytes. -/
theorem of_bytes (S : Spells items c m s) (same : ∀ x ∈ items, ∀ i, x + hook ≤ i →
    i < x + hook + 2 * wordSize → m'.byte i = m.byte i) : Spells items c m' s where
  holds := S.holds.of_bytes fun x hx => same x (S.sub x hx)
  nodup := S.nodup
  sub := S.sub
  loose run hr :=
    have L := S.loose run hr
    ⟨L.links.congr (fun x hx => prev_congr (same x (L.sub x hx)))
      fun x hx => next_congr (same x (L.sub x hx)), L.nodup, L.sub, L.new⟩

/-- A run of new nodes is linked in. -/
theorem link (S : Spells items c m s) (nodes : Nodes items) (parts : s.members = xs ++ ys)
    (links : Linked hook m before run after) (nodup : run.Nodup) (head : run.head? = some first)
    (tail : run.getLast? = some last) (sub : ∀ x ∈ run, x ∈ items)
    (new : ∀ x ∈ run, x ∉ s.members) :
    ∃ m' c', Chain.spliceBefore ys.head? first last run.length (m, c) = .ok () (m', c') ∧
      Spells items c' m' (s.link xs run ys) ∧ ∀ i, Outside hook items i → m'.byte i = m.byte i := by
  have perm : (xs ++ run ++ ys).Perm (run ++ s.members) := by
    rw [parts, ← List.append_assoc]
    exact List.perm_append_comm.append_right ys
  have all : ∀ x ∈ xs ++ run ++ ys, x ∈ items := by
    intro x hx
    rcases List.mem_append.1 (perm.mem_iff.1 hx) with hx | hx
    · exact sub x hx
    · exact S.sub x hx
  have distinct : (xs ++ run ++ ys).Nodup := by
    rw [perm.nodup_iff, List.nodup_append]
    refine ⟨nodup, S.nodup, ?_⟩
    rintro x hx _ hy rfl
    exact new x hx hy
  have placed := nodes.of_subset all distinct
  obtain ⟨run_eq, holds⟩ := spliceBefore_eq (parts ▸ S.holds) links head tail placed placed.length_lt
  have left : ∀ x ∈ xs.getLast?, x ∈ items := fun x hx => all x (by simp [List.mem_of_getLast? hx])
  have right : ∀ x ∈ ys.head?, x ∈ items := fun x hx => all x (by simp [List.mem_of_mem_head? hx])
  have first_mem := List.mem_of_mem_head? head
  have last_mem := List.mem_of_getLast? tail
  refine ⟨_, _, run_eq, ⟨holds, distinct, all, ?_⟩, fun i out =>
    byte_wire_of_outside out left right (sub _ first_mem) (sub _ last_mem)⟩
  intro other mem
  obtain ⟨mem, spared⟩ := List.mem_filter.1 mem
  have spared : ∀ x ∈ run, x ∉ other := of_decide_eq_true spared
  have L := S.loose other mem
  -- the links written are those of `run` and of the members beside it
  refine ⟨L.links.congr (fun x hx => ?_) (fun x hx => ?_), L.nodup, L.sub, ?_⟩
  · rw [prev_wire nodes left right (sub _ first_mem) (sub _ last_mem) (L.sub x hx), if_neg, if_neg]
    · rintro rfl
      exact spared _ first_mem hx
    · intro e
      refine L.new x hx ?_
      rw [parts]
      simp [List.mem_of_mem_head? e]
  · rw [next_wire nodes left right (sub _ first_mem) (sub _ last_mem) (L.sub x hx), if_neg, if_neg]
    · rintro rfl
      exact spared _ last_mem hx
    · intro e
      refine L.new x hx ?_
      rw [parts]
      simp [List.mem_of_getLast? e]
  · intro x hx member
    rcases List.mem_append.1 (perm.mem_iff.1 member) with member | member
    · exact spared x member hx
    · exact L.new x hx member

/-- A run of members is taken out. -/
theorem unlink (S : Spells items c m s) (nodes : Nodes items) (parts : s.members = xs ++ run ++ ys)
    (head : run.head? = some first) (tail : run.getLast? = some last) :
    ∃ m' c', Chain.unlinkRun first last (m, c) = .ok run.length (m', c') ∧
      Spells items c' m' (s.unlink xs run ys) ∧
      ∀ i, Outside hook items i → m'.byte i = m.byte i := by
  have perm : s.members.Perm (run ++ (xs ++ ys)) := by
    rw [parts, ← List.append_assoc]
    exact List.perm_append_comm.append_right ys
  obtain ⟨nodup_run, nodup_rest, apart⟩ := List.nodup_append.1 (perm.nodup_iff.1 S.nodup)
  have in_run : ∀ x ∈ run, x ∈ s.members := fun x hx => perm.mem_iff.2 (by simp [hx])
  have in_rest : ∀ x ∈ xs ++ ys, x ∈ s.members :=
    fun x hx => perm.mem_iff.2 (List.mem_append_right run hx)
  have placed := nodes.of_subset S.sub S.nodup
  obtain ⟨run_eq, holds, links⟩ := unlinkRun_eq (parts ▸ S.holds) head tail (parts ▸ placed)
  have left : ∀ x ∈ xs.getLast?, x ∈ s.members :=
    fun x hx => in_rest x (by simp [List.mem_of_getLast? hx])
  have right : ∀ x ∈ ys.head?, x ∈ s.members :=
    fun x hx => in_rest x (by simp [List.mem_of_mem_head? hx])
  have first_mem := in_run _ (List.mem_of_mem_head? head)
  have last_mem := in_run _ (List.mem_of_getLast? tail)
  have left' := fun x hx => S.sub x (left x hx)
  have right' := fun x hx => S.sub x (right x hx)
  have first_mem' := S.sub _ first_mem
  have last_mem' := S.sub _ last_mem
  refine ⟨_, _, run_eq, ⟨holds, nodup_rest, fun x hx => S.sub x (in_rest x hx), ?_⟩,
    fun i out => byte_unwire_of_outside out left' right' first_mem' last_mem'⟩
  intro other mem
  rcases List.mem_cons.1 mem with rfl | mem
  · exact ⟨links, nodup_run, fun x hx => S.sub x (in_run x hx), fun x hx member => apart x hx x member rfl⟩
  have L := S.loose other mem
  -- the links written are those of members
  refine ⟨L.links.congr (fun x hx => ?_) (fun x hx => ?_), L.nodup, L.sub,
    fun x hx member => L.new x hx (in_rest x member)⟩
  · rw [prev_unwire nodes left' right' first_mem' last_mem' (L.sub x hx), if_neg, if_neg]
    · exact fun e => L.new x hx (right x e)
    · rintro rfl
      exact L.new _ hx first_mem
  · rw [next_unwire nodes left' right' first_mem' last_mem' (L.sub x hx), if_neg, if_neg]
    · exact fun e => L.new x hx (left x e)
    · rintro rfl
      exact L.new _ hx last_mem

/-- The chain does what the sequence does. -/
theorem step {e : Edit} {answer : Except Fault (Option Nat)} {s' : Sequence}
    (S : Spells items c m s) (nodes : Nodes items) (step : s.Step items e answer s') :
    ∃ m' c', e.run m c = (answer, m', c') ∧ Spells items c' m' s' ∧
      ∀ i, Outside hook items i → m'.byte i = m.byte i := by
  cases step with
  | pushBack item new =>
    obtain ⟨m', c', run, rest⟩ := S.link nodes (List.append_nil _).symm linked_singleton
      (List.nodup_singleton _) rfl rfl (by simpa using item) (by simpa using new)
    exact ⟨m', c', Edit.run_of_ok (Edit.perform_of_ok run), rest⟩
  | insertBefore parts item new =>
    obtain ⟨m', c', run, rest⟩ := S.link nodes parts linked_singleton (List.nodup_singleton _) rfl
      rfl (by simpa using item) (by simpa using new)
    exact ⟨m', c', Edit.run_of_ok (Edit.perform_of_ok run), rest⟩
  | @insertAfter xs ys after node parts item new =>
    have next_after : next hook m after = ys.head? := by
      rw [(Linked.neighbours (parts ▸ S.holds.links)).2, Option.or_none]
    obtain ⟨m', c', run, rest⟩ := @link _ _ (xs ++ [after]) _ ys _ _ _ _ _ _ _ S nodes
      (by simp [parts]) linked_singleton (List.nodup_singleton node) rfl rfl (by simpa using item)
      (by simpa using new)
    refine ⟨m', c', Edit.run_of_ok (Edit.perform_of_ok ?_), rest⟩
    rw [insertAfter_eq, next_after]
    exact run
  | spliceBefore parts loose head tail =>
    have L := S.loose _ loose
    obtain ⟨m', c', run, rest⟩ := S.link nodes parts L.links L.nodup head tail L.sub L.new
    exact ⟨m', c', Edit.run_of_ok (Edit.perform_of_ok run), rest⟩
  | @remove xs ys node parts =>
    obtain ⟨m', c', run, rest⟩ := @unlink _ _ xs [node] ys _ _ _ node node S nodes
      (by simpa using parts) rfl rfl
    refine ⟨m', c', Edit.run_of_ok (Edit.perform_of_ok ?_), rest⟩
    show EStateM.map _ (Chain.unlinkRun node node) (m, c) = _
    rw [EStateM.map, run]
  | @unlinkRun xs run ys first last parts head tail =>
    obtain ⟨m', c', run_eq, rest⟩ := S.unlink nodes parts head tail
    refine ⟨m', c', Edit.run_of_ok ?_, rest⟩
    show EStateM.bind (Chain.unlinkRun first last) _ (m, c) = _
    rw [EStateM.bind, run_eq]
    rfl
  | @unlinkBackwards xs ys zs first last parts =>
    refine ⟨m, c, ?_, S, fun _ _ => rfl⟩
    have links := (linked_append.1 (parts ▸ S.holds.links)).2
    have unreachable : last ∉ first :: zs := by
      have distinct := S.nodup
      rw [parts, List.nodup_append] at distinct
      exact fun mem => distinct.2.2 last (by simp) last mem rfl
    have stopped := unlinkRun_eq_error (c := c) (runLength_eq_error links rfl unreachable)
    apply Edit.run_of_error
    show EStateM.bind (Chain.unlinkRun first last) _ (m, c) = _
    rw [EStateM.bind, stopped]

end Spells

/-! ### What can be read off a chain -/

/-- What can be read off a chain, and off the runs that were taken out of it, is what the sequence
says. -/
structure Shows (c : Chain hook) (m : Memory) (s : Sequence) : Prop where
  /-- No node is a member twice. -/
  nodup : s.members.Nodup
  /-- A walk gives the members in order. -/
  forwards : c.members m = .ok s.members
  /-- Following the links back from the last one gives them in reverse. -/
  backwards : c.membersBack m = s.members.reverse
  length : c.length = s.members.length
  first : c.head = s.members.head?
  /-- The links of a member lead to its neighbours. -/
  neighbours : ∀ xs x ys, s.members = xs ++ x :: ys →
    prev hook m x = xs.getLast? ∧ next hook m x = ys.head?
  /-- After `k` visits a walk knows how many members are left. -/
  left : ∀ k, ∃ cur, c.cursor.take m k =
      .ok ((s.members.take k).map some ++ List.replicate (k - s.members.length) none, cur) ∧
    cur.sizeHint = (s.members.length - k, some (s.members.length - k))
  /-- A loose run is linked in itself and to nothing else, and has no members. -/
  loose : ∀ run ∈ s.loose, Linked hook m none run none ∧ ∀ x ∈ run, x ∉ s.members

theorem Spells.shows {items : List Nat} {c : Chain hook} {m : Memory} {s : Sequence}
    (S : Spells items c m s) : Shows c m s where
  nodup := S.nodup
  forwards := members_eq S.holds
  backwards := membersBack_eq S.holds
  length := congrArg Chain.length S.holds.ends
  first := congrArg Chain.head S.holds.ends
  neighbours xs x ys parts := by
    obtain ⟨prev_eq, next_eq⟩ := Linked.neighbours (parts ▸ S.holds.links)
    rw [Option.or_none] at prev_eq next_eq
    exact ⟨prev_eq, next_eq⟩
  left k := by
    refine ⟨⟨(s.members.drop k).head?, s.members.length - k⟩, ?_, rfl⟩
    rw [S.holds.ends]
    exact Cursor.take_eq S.holds.links k
  loose run hr := ⟨(S.loose run hr).links, (S.loose run hr).new⟩

end RegionHeap.Chain
