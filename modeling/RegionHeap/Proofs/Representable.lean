import RegionHeap.Proofs.BestFit
import RegionHeap.Proofs.Inverse

/-!
# Sizes that can be represented

What is set aside for a request should be whole words that one mapping can hold with a header. The bound
is checked for the words of the request alone, and the smallest block replaces them after that. So the law
rests on the smallest block, which the settings may hold unrounded.

* `Settings.Representable` — the law, for one request.
* `Settings.representable_iff` — the smallest blocks with which it holds.
* `Tenancy.Run.eq_opened` — with a smallest block that leaves no room for a header nothing is ever handed out.
* `Tenancy.run_representable` — with a smallest block of whole words that can be asked for, nothing
  overflows and no header goes astray.
-/

set_option autoImplicit false

namespace RegionHeap

/-! ### The law -/

namespace Settings

variable {s : Settings} {n : Nat}

/-- A request of `n` bytes is refused as too large, or it is served with whole words, no fewer bytes than
were asked for or than the smallest block has, and one object may span them and a header. -/
def Representable (s : Settings) (n : Nat) : Prop :=
  s.blockSize n = .error (.sizeOverflow n) ∨
    ∃ size, s.blockSize n = .ok size ∧ size % wordSize = 0 ∧ n ≤ size ∧ s.minBlock ≤ size ∧
      Header.length + size ≤ maxSpan

/-- A request that is not refused breaks the law when the smallest block is too large, or takes the place
of the words of the request without being whole words. -/
theorem representable_iff : s.Representable n ↔ (wholeWords n ≤ maxPayload →
    s.minBlock ≤ maxPayload ∧ (s.minBlock % wordSize = 0 ∨ s.minBlock ≤ wholeWords n)) := by
  have enough := le_wholeWords n
  have words := wholeWords_mod n
  have span : maxPayload + Header.length = maxSpan := by decide
  unfold Representable
  rw [blockSize_eq]
  by_cases fits : wholeWords n ≤ maxPayload
  · rw [if_pos fits]
    rcases Nat.le_total s.minBlock (wholeWords n) with small | large
    · simp only [Nat.max_eq_left small, reduceCtorEq, false_or, Except.ok.injEq, exists_eq_left',
        small, or_true, and_true, fits, forall_const, true_and]
      omega
    · simp only [Nat.max_eq_right large, reduceCtorEq, false_or, Except.ok.injEq, exists_eq_left',
        fits, forall_const]
      unfold wordSize at *
      omega
  · simp [fits]

/-- The law holds for every request when the smallest block is one that can be asked for. -/
theorem forall_representable_iff : (∀ n < wordLimit, s.Representable n) ↔
    s.minBlock % wordSize = 0 ∧ s.minBlock ≤ maxPayload := by
  constructor
  · intro law
    obtain ⟨most, words⟩ := representable_iff.1 (law 0 (by decide)) (by decide)
    refine ⟨words.elim id fun none => ?_, most⟩
    rw [Nat.le_zero.1 none]
    rfl
  · exact fun ⟨words, most⟩ n _ => representable_iff.2 fun _ => ⟨most, .inl words⟩

/-- Then the settings are usable. -/
theorem usable_of_words (words : s.minBlock % wordSize = 0) (most : s.minBlock ≤ maxPayload) :
    s.Usable := by
  refine ⟨words, most.trans ?_⟩
  unfold maxPayload
  omega

end Settings

/-! ### Without room for a header -/

namespace Heap

variable {settings : Settings} {place : Placement} {n : Nat}

/-- With a smallest block that leaves no room for a header, a heap that was just made stops at every
request that is not too large. -/
theorem allocate_overflow (huge : wordLimit ≤ Header.length + settings.minBlock)
    (fits : wholeWords n ≤ maxPayload) :
    Stops (allocate n) (ofSettings settings place) .additionOverflow := by
  have valid : (ofSettings settings place).settings.blockSize n =
      .ok (max (wholeWords n) settings.minBlock) := Settings.blockSize_eq_ok_iff.2 ⟨fits, rfl⟩
  have long : ¬ Header.length + max (wholeWords n) settings.minBlock < wordLimit := by omega
  have stops : Stops (openRegion (max (wholeWords n) settings.minBlock))
      (ofSettings settings place) .additionOverflow := by
    unfold openRegion
    apply stops_fault_bind
    unfold Word.add
    rw [if_neg long]
  unfold allocate
  rw [stops_get_bind, valid]
  exact stops.bind _

/-- If it asks for bytes, a call on such a heap fails or is stopped, and the heap stays as it is. -/
theorem perform_overflow {call : Call} (huge : wordLimit ≤ Header.length + settings.minBlock)
    (asks : call.argument = none) : Yields (fun _ => True) call.perform (ofSettings settings place)
      fun answer h' => answer = none ∧ h' = ofSettings settings place := by
  have failed : ∀ n, Yields (fun _ => True) (allocate n) (ofSettings settings place)
      fun answer h' => answer.toOption = none ∧ h' = ofSettings settings place := by
    intro n
    by_cases fits : wholeWords n ≤ maxPayload
    · have stop := @allocate_overflow settings place n huge fits
      unfold Yields
      rw [stop]
      trivial
    · have invalid : (ofSettings settings place).settings.blockSize n = .error (.sizeOverflow n) := by
        rw [Settings.blockSize_eq, if_neg fits]
      unfold allocate
      rw [yields_get_bind, invalid]
      exact ⟨rfl, rfl⟩
  have zeroed : ∀ count n, Yields (fun _ => True) (allocateZeroed count n)
      (ofSettings settings place) fun answer h' =>
        answer.toOption = none ∧ h' = ofSettings settings place := by
    intro count n
    unfold allocateZeroed
    dsimp only
    split
    · exact ⟨rfl, rfl⟩
    split
    · exact ⟨rfl, rfl⟩
    refine (failed (count * n)).bind fun answer h' post => ?_
    cases answer with
    | error failure => exact post
    | ok p => exact nomatch post.1
  cases call with
  | allocate n => exact (failed n).bind fun _ _ post => post
  | allocateZeroed count n => exact (zeroed count n).bind fun _ _ post => post
  | malloc n => exact (failed n).bind fun _ _ post => post
  | calloc count n => exact (zeroed count n).bind fun _ _ post => post
  | free pointer =>
    cases asks
    exact ⟨rfl, rfl⟩
  | realloc pointer n =>
    cases asks
    exact (failed n).bind fun _ _ post => post

end Heap

namespace Tenancy

variable {settings : Settings} {place : Placement} {as : List Action} {t : Tenancy}

/-- Whatever happens to it, such a heap stays as it was made. -/
theorem Run.eq_opened (huge : wordLimit ≤ Header.length + settings.minBlock)
    (run : Run (opened settings place) as t) : ∃ place', t = opened settings place' := by
  generalize start : opened settings place = u at run
  induction run generalizing place with
  | nil => exact ⟨place, start.symm⟩
  | cons step _ ih =>
    subst start
    cases step with
    | @call c answer heap legal run =>
      have asks : c.argument = none := by
        by_contra some
        obtain ⟨p, hp⟩ := Option.ne_none_iff_exists'.1 some
        obtain ⟨g, hg, _⟩ := legal p hp
        cases hg
      obtain ⟨rfl, rfl⟩ := (Heap.perform_overflow huge asks).of_ok run
      exact ih rfl
    | store held => cases held
    | remap lawful => exact ih rfl

/-- **Sizes are representable when the smallest block is.** The words of a request that is not too large
make a representable block only if the smallest block is no larger than can be asked for and, where it
takes their place, whole words. So all requests are lawful exactly when the smallest block is one that can
be asked for itself. Then, after everything that may happen, each legal call returns, unless it takes a
number and there is none left, no mapping is longer than one object may be, and all headers and payloads
are aligned. And when a header and the smallest block together are no word, every request that is not too
large is stopped by the overflow, whatever happened before. -/
theorem run_representable (lawful : place.Lawful) (run : Run (opened settings place) as t) :
    (∀ n, settings.Representable n ↔ (wholeWords n ≤ maxPayload → settings.minBlock ≤ maxPayload ∧
      (settings.minBlock % wordSize = 0 ∨ settings.minBlock ≤ wholeWords n))) ∧
    ((∀ n < wordLimit, settings.Representable n) ↔
      settings.minBlock % wordSize = 0 ∧ settings.minBlock ≤ maxPayload) ∧
    ((∀ n < wordLimit, settings.Representable n) → ∀ call : Call, t.Legal call →
      Heap.Yields t.heap.Spent call.perform t.heap fun _ h' => Modest h'.space.transfers ∧
        ∀ b ∈ h'.snapshot.catalogue.items, b.addr % wordSize = 0 ∧ b.size % wordSize = 0) ∧
    (wordLimit ≤ Header.length + settings.minBlock → ∀ n, wholeWords n ≤ maxPayload →
      Heap.Stops (Heap.allocate n) t.heap .additionOverflow) := by
  refine ⟨fun n => Settings.representable_iff, Settings.forall_representable_iff, ?_, ?_⟩
  · intro law call legal
    obtain ⟨words, most⟩ := Settings.forall_representable_iff.1 law
    have usable := Settings.usable_of_words words most
    have made : Retained settings (opened settings place) (.empty settings place) :=
      ⟨held_opened usable lawful, rfl, Nat.zero_le _⟩
    have modest := made.run_modest most nofun run
    obtain ⟨L, R⟩ := made.run run
    refine (R.held.yields legal).with_run.mono fun answer h' post => ?_
    obtain ⟨returned, L', x, P, _⟩ := post
    refine ⟨R.modest most modest (.call legal returned), ?_⟩
    rw [P.keeps.lists.catalogue]
    exact fun b hb => ⟨(P.keeps.aligned b hb).addr, (P.keeps.aligned b hb).size⟩
  · intro huge n fits
    obtain ⟨place', rfl⟩ := run.eq_opened huge
    exact Heap.allocate_overflow huge fits

/-- A smallest block of no bytes is lawful: a block without a payload is cut off, and another byte may be
asked for. -/
theorem run_representable_zero : ∃ t,
    Run (opened { minBlock := 0 } .standard)
      [.call (.malloc 144) (some 140737219915848),
        .call (.free (some 140737219915848)) none,
        .call (.malloc 0) (some 140737219915848)] t ∧
      (∀ n < wordLimit, Settings.Representable { minBlock := 0 } n) ∧
      Heap.Yields t.heap.Spent (Call.perform (.malloc 1)) t.heap fun _ h' =>
        Modest h'.space.transfers ∧
          ∀ b ∈ h'.snapshot.catalogue.items, b.addr % wordSize = 0 ∧ b.size % wordSize = 0 := by
  refine exists_of_replay (by decide +kernel) fun t run => ?_
  obtain ⟨_, lawful, safe, _⟩ := run_representable Placement.standard_lawful run
  have law := lawful.2 (by decide)
  exact ⟨law, safe law _ nofun⟩

/-- The largest smallest block there is breaks the law, and a request of one byte overflows; a smallest
block that is not whole words breaks it, and so does the largest one that is set by rounding. -/
theorem unrepresentable_minBlock :
    ¬ Settings.Representable { minBlock := wordLimit - 1 } 1 ∧
      Heap.allocate 1 (Heap.ofSettings { minBlock := wordLimit - 1 }) =
        .error .additionOverflow (Heap.ofSettings { minBlock := wordLimit - 1 }) ∧
      ¬ Settings.Representable { minBlock := 17 } 1 ∧
      ¬ Settings.Representable (({} : Settings).withMinBlock (wordLimit - 1)) 1 := by
  refine ⟨?_, Heap.allocate_overflow (by decide) (by decide), ?_, ?_⟩ <;>
    · rw [Settings.representable_iff]
      decide

end Tenancy

end RegionHeap
