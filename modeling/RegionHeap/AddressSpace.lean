import RegionHeap.Address
import RegionHeap.Memory

/-!
# The operating system's side of memory

Regions are mapped from the operating system and given back to it, in whole pages. `AddressSpace`
keeps the bytes and the history of mappings. Where a mapping goes, and whether it is refused, is up
to a `Placement`; `Placement.Lawful` says what a heap may rely on.

* `mapped_mapped_iff`, `mapped_unmapped_iff` — which addresses are mapped after each transfer.
* `Placement.topDown_lawful` — mapping into the highest gap that is large enough is lawful.
-/

set_option autoImplicit false

namespace RegionHeap

/-- Why the operating system refused a request. -/
inductive Refusal where
  | invalidArgument
  | outOfMemory
  deriving DecidableEq, Repr

/-- The operating system's text of a refusal. -/
def Refusal.message : Refusal → String
  | invalidArgument => "Invalid argument (os error 22)"
  | outOfMemory => "Cannot allocate memory (os error 12)"

/-- A span of addresses, mapped or given back in one request. -/
structure Span where
  start : Nat
  length : Nat
  deriving DecidableEq, Repr

/-- Where a span ends. -/
def Span.finish (span : Span) : Nat :=
  span.start + span.length

/-- A request that the operating system granted. -/
inductive Transfer where
  | mapped (span : Span)
  | unmapped (span : Span)
  deriving DecidableEq, Repr

/-- The span that a transfer mapped. -/
def Transfer.mapped? : Transfer → Option Span
  | mapped span => some span
  | unmapped _ => none

/-- The number of bytes rounded up to whole pages. -/
def pageCeil (n : Nat) : Nat :=
  (n + (pageSize - 1)) / pageSize * pageSize

/-- The start of the page that an address lies in. -/
def pageFloor (n : Nat) : Nat :=
  n / pageSize * pageSize

/-- Whether an address lies in a span. -/
def Span.Holds (span : Span) (a : Nat) : Prop :=
  span.start ≤ a ∧ a < span.finish

/-- The whole pages that a span touches. -/
def Span.pages (span : Span) : Span :=
  ⟨pageFloor span.start, pageCeil span.finish - pageFloor span.start⟩

/-- What is left of a span when another one is taken out: the part before it and the part after. -/
def Span.without (span gone : Span) : List Span :=
  [⟨span.start, min span.finish gone.start - span.start⟩,
    ⟨max span.start gone.finish, span.finish - max span.start gone.finish⟩].filter (0 < ·.length)

/-- The pages that are mapped, given the transfers so far, latest first. -/
def livePages : List Transfer → List Span
  | [] => []
  | .mapped span :: before => span.pages :: livePages before
  | .unmapped span :: before => (livePages before).flatMap (·.without span.pages)

/-- An address is mapped after the given transfers, latest first. -/
def Mapped (before : List Transfer) (a : Nat) : Prop :=
  ∃ span ∈ livePages before, span.Holds a

theorem exists_mem_without_iff {span gone : Span} {a : Nat} :
    (∃ part ∈ span.without gone, part.Holds a) ↔ span.Holds a ∧ ¬ gone.Holds a := by
  simp only [Span.without, List.mem_filter, List.mem_cons, List.not_mem_nil, or_false,
    decide_eq_true_eq, Span.Holds, Span.finish]
  constructor
  · rintro ⟨part, ⟨rfl | rfl, _⟩, _⟩ <;> simp only at * <;> omega
  · rintro ⟨⟨_, _⟩, h⟩
    by_cases ha : a < gone.start
    · exact ⟨_, ⟨.inl rfl, by simp only; omega⟩, by simp only; omega⟩
    · exact ⟨_, ⟨.inr rfl, by simp only; omega⟩, by simp only; omega⟩

theorem mapped_mapped_iff {span : Span} {before : List Transfer} {a : Nat} :
    Mapped (.mapped span :: before) a ↔ span.pages.Holds a ∨ Mapped before a := by
  simp [Mapped, livePages]

theorem mapped_unmapped_iff {span : Span} {before : List Transfer} {a : Nat} :
    Mapped (.unmapped span :: before) a ↔ Mapped before a ∧ ¬ span.pages.Holds a := by
  simp only [Mapped, livePages, List.mem_flatMap]
  constructor
  · rintro ⟨part, ⟨whole, hw, hp⟩, ha⟩
    obtain ⟨h, gone⟩ := exists_mem_without_iff.1 ⟨part, hp, ha⟩
    exact ⟨⟨whole, hw, h⟩, gone⟩
  · rintro ⟨⟨whole, hw, h⟩, gone⟩
    obtain ⟨part, hp, ha⟩ := exists_mem_without_iff.2 ⟨h, gone⟩
    exact ⟨part, ⟨whole, hw, hp⟩, ha⟩

/-- Where a mapping of some length goes after the given transfers, latest first. -/
abbrev Placement := List Transfer → Nat → Except Refusal Nat

namespace Placement

/-- The placement puts each mapping on pages of its own: it starts a page other than the first, and
none of its pages is mapped. -/
structure Lawful (place : Placement) : Prop where
  nonempty : ∀ {before len start}, place before len = .ok start → 0 < len
  aligned : ∀ {before len start}, place before len = .ok start → start % pageSize = 0
  positive : ∀ {before len start}, place before len = .ok start → 0 < start
  fits : ∀ {before len start}, place before len = .ok start → start + pageCeil len < wordLimit
  fresh : ∀ {before len start}, place before len = .ok start → ∀ a, start ≤ a →
    a < start + pageCeil len → ¬ Mapped before a

/-- Mappings of at least this many bytes are refused for want of memory. -/
def lengthLimit : Nat := 1 <<< 47

/-- Whether `size` bytes from `start` on lie below `top` and clear of all the given spans. -/
def hasRoom (top : Nat) (live : List Span) (size start : Nat) : Bool :=
  0 < start && start + size ≤ top
    && live.all fun span => start + size ≤ span.start || span.finish ≤ start

/-- The starts of mappings of `size` bytes that lie right below `top` or right below one of the given
spans, as far as there is room for them. -/
def candidates (top : Nat) (live : List Span) (size : Nat) : List Nat :=
  ((top :: live.map Span.start).map fun limit => pageFloor (limit - size)).filter
    (hasRoom top live size)

/-- Each mapping goes into the highest gap below `top` that is large enough, at its upper end; so
pages that were given back are used again. Empty mappings are refused as senseless, those of
`lengthLimit` bytes and more for want of memory. -/
def topDown (top : Nat) : Placement := fun before len =>
  if len = 0 then .error .invalidArgument
  else if lengthLimit ≤ len then .error .outOfMemory
  else
    match (candidates top (livePages before) (pageCeil len)).max? with
    | some start => .ok start
    | none => .error .outOfMemory

/-- The placement of a heap that is given no other one. -/
def standard : Placement :=
  topDown 0x7fff_f000_0000

theorem topDown_eq_ok {top : Nat} {before : List Transfer} {len start : Nat}
    (h : topDown top before len = .ok start) :
    0 < len ∧ len < lengthLimit ∧ start % pageSize = 0 ∧ 0 < start ∧ start + pageCeil len ≤ top ∧
      ∀ span ∈ livePages before, start + pageCeil len ≤ span.start ∨ span.finish ≤ start := by
  unfold topDown at h
  split at h
  · cases h
  · split at h
    · cases h
    · split at h
      · next max =>
        cases h
        obtain ⟨place, room⟩ := List.mem_filter.1 (List.max?_mem max)
        obtain ⟨limit, _, rfl⟩ := List.mem_map.1 place
        simp only [hasRoom, Bool.and_eq_true, decide_eq_true_eq, List.all_eq_true,
          Bool.or_eq_true] at room
        exact ⟨by omega, by omega, by simp [pageFloor], room.1.1, room.1.2, room.2⟩
      · cases h

theorem topDown_lawful {top : Nat} (h : top < wordLimit) : Lawful (topDown top) where
  nonempty ok := (topDown_eq_ok ok).1
  aligned ok := (topDown_eq_ok ok).2.2.1
  positive ok := (topDown_eq_ok ok).2.2.2.1
  fits ok := Nat.lt_of_le_of_lt (topDown_eq_ok ok).2.2.2.2.1 h
  fresh ok a _ _ := by
    rintro ⟨span, live, _, _⟩
    have := (topDown_eq_ok ok).2.2.2.2.2 span live
    omega

theorem standard_lawful : Lawful standard :=
  topDown_lawful (by decide)

end Placement

/-- Memory together with the mappings that make it up. -/
structure AddressSpace where
  memory : Memory := .blank
  /-- What was mapped and given back, latest first. -/
  transfers : List Transfer := []
  place : Placement := Placement.standard

namespace AddressSpace

instance : Inhabited AddressSpace := ⟨{}⟩

/-- Maps the pages that `len` bytes need, all of whose bytes are 0. -/
def map (s : AddressSpace) (len : Nat) : Except Refusal (Nat × AddressSpace) := do
  let start ← s.place s.transfers len
  return (start, { s with
    memory := s.memory.clear start (pageCeil len)
    transfers := .mapped ⟨start, len⟩ :: s.transfers })

/-- Gives `len` bytes from `start` on back. They must be some and start a page. -/
def unmap (s : AddressSpace) (start len : Nat) : Except Refusal AddressSpace :=
  if start % pageSize = 0 ∧ 0 < len then
    .ok { s with transfers := .unmapped ⟨start, len⟩ :: s.transfers }
  else .error .invalidArgument

/-- Every mapping ever made, in order. -/
def mappings (s : AddressSpace) : List Span :=
  s.transfers.reverse.filterMap Transfer.mapped?

/-- The regions' names: `r0`, `r1`, … in the order in which they were mapped. The latest comes first,
since it is the one that pages used again belong to. -/
def atlas (s : AddressSpace) : Atlas :=
  (s.mappings.zipIdx.map fun (span, i) => ⟨s!"r{i}", span.start, span.length⟩).reverse

end AddressSpace

end RegionHeap
