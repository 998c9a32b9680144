import Mathlib.Algebra.Ring.Nat
import Mathlib.Data.List.Count
import Mathlib.Data.List.Nodup
import Mathlib.Data.List.Pairwise
import Mathlib.Data.List.Range
import RegionHeap.AddressSpace

/-!
# The account of mappings

What is still mapped after a history of transfers, and what a heap that gives back only what it was
given may rely on.

* `outstanding`, `Balanced` — the spans that were mapped and not given back since; nothing else is
  ever given back.
* `Balanced.count_outstanding` — each span is outstanding as often as it was mapped and not given
  back.
* `Settled.mapped`, `Settled.unmapped` — mapping at a lawful place and giving back an outstanding span
  keep the outstanding spans on mapped pages of their own.
-/

set_option autoImplicit false

namespace RegionHeap

/-! ### Spans on whole pages -/

/-- Where the pages of a span that starts a page end. -/
def Span.pageFinish (s : Span) : Nat :=
  s.start + pageCeil s.length

/-- Whether two spans share no page. -/
def Span.Apart (s u : Span) : Prop :=
  s.pageFinish ≤ u.start ∨ u.pageFinish ≤ s.start

/-- The span is some bytes from the start of a page on, not the first page of the address range. -/
structure Span.Placed (s : Span) : Prop where
  aligned : s.start % pageSize = 0
  positive : 0 < s.start
  nonempty : 0 < s.length
  fits : s.pageFinish < wordLimit

theorem le_pageCeil (n : Nat) : n ≤ pageCeil n := by
  unfold pageCeil pageSize
  omega

theorem Span.finish_le_pageFinish (s : Span) : s.finish ≤ s.pageFinish :=
  Nat.add_le_add_left (le_pageCeil s.length) s.start

/-- A span lies on its pages. -/
theorem Span.Holds.pages {s : Span} {a : Nat} (h : s.Holds a) : s.pages.Holds a := by
  unfold Span.Holds Span.pages Span.finish pageCeil pageFloor pageSize at *
  dsimp only
  omega

theorem Span.pages_holds_iff {s : Span} {a : Nat} (aligned : s.start % pageSize = 0) :
    s.pages.Holds a ↔ s.start ≤ a ∧ a < s.pageFinish := by
  unfold Span.Holds Span.pages Span.pageFinish Span.finish pageCeil pageFloor pageSize
  unfold pageSize at aligned
  dsimp only
  omega

theorem Span.Apart.not_holds {s u : Span} {a : Nat} (apart : s.Apart u)
    (hs : s.start ≤ a ∧ a < s.pageFinish) : ¬ (u.start ≤ a ∧ a < u.pageFinish) := by
  unfold Span.Apart at apart
  omega

/-! ### What is outstanding -/

/-- The spans that were mapped and not given back since, oldest first. The transfers are given latest
first. -/
def outstanding : List Transfer → List Span
  | [] => []
  | .mapped s :: before => outstanding before ++ [s]
  | .unmapped s :: before => (outstanding before).erase s

/-- What is outstanding was mapped. -/
theorem mapped_of_outstanding {ts : List Transfer} {s : Span} (hs : s ∈ outstanding ts) :
    .mapped s ∈ ts := by
  induction ts with
  | nil => simp [outstanding] at hs
  | cons t before ih =>
    cases t with
    | mapped u =>
      rcases List.mem_append.1 hs with hs | hs
      · exact List.mem_cons_of_mem _ (ih hs)
      · rw [List.mem_singleton.1 hs]
        exact List.mem_cons_self
    | unmapped u => exact List.mem_cons_of_mem _ (ih (List.mem_of_mem_erase hs))

/-- Whatever was given back had been mapped and not given back before, to the same length. -/
def Balanced : List Transfer → Prop
  | [] => True
  | .mapped _ :: before => Balanced before
  | .unmapped s :: before => s ∈ outstanding before ∧ Balanced before

instance Balanced.decidable : DecidablePred Balanced
  | [] => isTrue trivial
  | .mapped _ :: before => Balanced.decidable before
  | .unmapped s :: before =>
    have := Balanced.decidable before
    inferInstanceAs (Decidable (s ∈ outstanding before ∧ Balanced before))

theorem Balanced.tail {t : Transfer} {before : List Transfer} (h : Balanced (t :: before)) :
    Balanced before := by
  cases t with
  | mapped s => exact h
  | unmapped s => exact h.2

/-- Each span is outstanding as often as it was mapped and not given back. -/
theorem Balanced.count_outstanding {ts : List Transfer} (h : Balanced ts) (s : Span) :
    (outstanding ts).count s + ts.count (.unmapped s) = ts.count (.mapped s) := by
  induction ts with
  | nil => rfl
  | cons t before ih =>
    have ih := ih h.tail
    cases t with
    | mapped u =>
      simp only [outstanding, List.count_append, List.count_cons, List.count_nil]
      by_cases e : u = s <;> simp [e] <;> omega
    | unmapped u =>
      simp only [outstanding, List.count_erase, List.count_cons]
      by_cases e : u = s
      · subst e
        have := List.count_pos_iff.2 h.1
        simp
        omega
      · simp [e]
        omega

/-- As many spans are outstanding as were mapped and not given back. -/
theorem Balanced.length_outstanding {ts : List Transfer} (h : Balanced ts) :
    (outstanding ts).length + ts.countP (fun t => t.mapped?.isNone) =
      ts.countP fun t => t.mapped?.isSome := by
  induction ts with
  | nil => rfl
  | cons t before ih =>
    have ih := ih h.tail
    cases t with
    | mapped u =>
      rw [outstanding, List.length_append, List.countP_cons_of_neg (by simp [Transfer.mapped?]),
        List.countP_cons_of_pos (by simp [Transfer.mapped?])]
      simp
      omega
    | unmapped u =>
      rw [outstanding, List.length_erase_of_mem h.1,
        List.countP_cons_of_pos (by simp [Transfer.mapped?]),
        List.countP_cons_of_neg (by simp [Transfer.mapped?])]
      have := List.length_pos_of_mem h.1
      omega

/-! ### Settled accounts -/

/-- Nothing was given back that was not outstanding, and the outstanding spans are on mapped pages of
their own. -/
structure Settled (ts : List Transfer) : Prop where
  balanced : Balanced ts
  placed : ∀ s ∈ outstanding ts, s.Placed
  apart : (outstanding ts).Pairwise Span.Apart
  live : ∀ s ∈ outstanding ts, ∀ a, s.start ≤ a → a < s.pageFinish → Mapped ts a

namespace Settled

variable {ts : List Transfer} {s u : Span}

theorem nil : Settled [] where
  balanced := trivial
  placed := by simp [outstanding]
  apart := List.Pairwise.nil
  live := by simp [outstanding]

theorem apart_of_ne (h : Settled ts) (hs : s ∈ outstanding ts) (hu : u ∈ outstanding ts)
    (ne : s ≠ u) : s.Apart u := by
  have symm : Std.Symm Span.Apart := ⟨fun _ _ h => h.symm⟩
  exact h.apart.forall hs hu ne

theorem nodup (h : Settled ts) : (outstanding ts).Nodup := by
  apply List.Pairwise.imp_of_mem _ h.apart
  rintro s u hs _ apart rfl
  have := (h.placed s hs).nonempty
  have := le_pageCeil s.length
  unfold Span.Apart Span.pageFinish at apart
  omega

/-- A mapping at a lawful place. -/
theorem mapped {place : Placement} {len start : Nat} (h : Settled ts) (lawful : place.Lawful)
    (e : place ts len = .ok start) : Settled (.mapped ⟨start, len⟩ :: ts) := by
  have placed : Span.Placed ⟨start, len⟩ :=
    ⟨lawful.aligned e, lawful.positive e, lawful.nonempty e, lawful.fits e⟩
  have fresh : ∀ a, start ≤ a → a < start + pageCeil len → ¬ Mapped ts a := lawful.fresh e
  refine ⟨h.balanced, ?_, ?_, ?_⟩
  · intro s hs
    rcases List.mem_append.1 hs with hs | hs
    · exact h.placed s hs
    · rwa [List.mem_singleton.1 hs]
  · refine List.pairwise_append.2 ⟨h.apart, List.pairwise_singleton _ _, ?_⟩
    intro s hs u hu
    rw [List.mem_singleton.1 hu]
    have live := h.live s hs
    have first := le_pageCeil s.length
    have first' := le_pageCeil len
    have := (h.placed s hs).nonempty
    have := placed.nonempty
    by_contra both
    unfold Span.Apart Span.pageFinish at both
    unfold Span.pageFinish at live
    dsimp only at *
    exact fresh (max s.start start) (by omega) (by omega) (live _ (by omega) (by omega))
  · intro s hs a ha ha'
    rw [mapped_mapped_iff]
    rcases List.mem_append.1 hs with hs | hs
    · exact .inr (h.live s hs a ha ha')
    · rw [List.mem_singleton.1 hs] at ha ha'
      exact .inl ((Span.pages_holds_iff placed.aligned).2 ⟨ha, ha'⟩)

/-- An outstanding span is given back. -/
theorem unmapped (h : Settled ts) (hs : s ∈ outstanding ts) : Settled (.unmapped s :: ts) := by
  have sub : ((outstanding ts).erase s).Sublist (outstanding ts) := List.erase_sublist
  refine ⟨⟨hs, h.balanced⟩, fun u hu => h.placed u (sub.subset hu), h.apart.sublist sub, ?_⟩
  intro u hu a ha ha'
  have ne : u ≠ s := ((h.nodup.mem_erase_iff).1 hu).1
  have apart := h.apart_of_ne (sub.subset hu) hs ne
  rw [mapped_unmapped_iff, Span.pages_holds_iff (h.placed s hs).aligned]
  exact ⟨h.live u (sub.subset hu) a ha ha', apart.not_holds ⟨ha, ha'⟩⟩

/-- The outstanding pages are fewer than there are addresses. -/
theorem sum_pages_lt (h : Settled ts) :
    ((outstanding ts).map fun s => pageCeil s.length).sum < wordLimit := by
  have lengths : ((outstanding ts).map fun s => pageCeil s.length).sum =
      ((outstanding ts).flatMap fun s => List.range' s.start (pageCeil s.length)).length := by
    rw [List.length_flatMap]
    simp
  have nodup : ((outstanding ts).flatMap fun s =>
      List.range' s.start (pageCeil s.length)).Nodup := by
    refine List.nodup_flatMap.2 ⟨fun s _ => List.nodup_range', ?_⟩
    apply h.apart.imp
    intro s u apart a hs hu
    rw [List.mem_range'_1] at hs hu
    exact apart.not_holds hs hu
  have inside : ((outstanding ts).flatMap fun s => List.range' s.start (pageCeil s.length)) ⊆
      List.range' 1 (wordLimit - 1) := by
    intro a ha
    obtain ⟨s, hs, ha⟩ := List.mem_flatMap.1 ha
    rw [List.mem_range'_1] at ha ⊢
    have placed := h.placed s hs
    have positive := placed.positive
    have fits := placed.fits
    unfold Span.pageFinish at fits
    omega
  have := (List.subperm_of_subset nodup inside).length_le
  rw [List.length_range'] at this
  have pos : 0 < wordLimit := by decide
  omega

end Settled

end RegionHeap
