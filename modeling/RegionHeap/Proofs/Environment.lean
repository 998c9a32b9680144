import Mathlib.Data.List.Induction
import Mathlib.Data.Nat.Digits.Defs
import RegionHeap.Proofs.Multiples
import RegionHeap.Proofs.Requests

/-!
# What the environment says

A variable of the environment counts when it is UTF-8 text that spells a word, blank characters at its ends
aside. The texts that do are described by a grammar here; reading a variable accepts those and no others.

* `Text.Trimmed`, `Text.trimBlank_eq_iff` — a text between blank characters.
* `Text.Denotes`, `Text.word?_eq_some_iff` — the texts that denote a number.
* `Environment.Sets`, `Environment.bind_readVariable_eq_some_iff` — the variables that count.
* `Settings.isLeast_withMinBlock`, `Settings.withMinBlock_again` — the smallest block, and setting it twice.
* `Settings.ofEnvironment_spells` — the settings that an environment spells.
-/

set_option autoImplicit false

namespace RegionHeap

namespace Text

variable {cs core before after ds : List Char} {c : Char} {n : Nat}

/-! ### Blank ends -/

/-- The text is `core` between blank characters, and `core` has no blank character at its ends. -/
structure Trimmed (cs core : List Char) : Prop where
  between : ∃ before after, cs = before ++ core ++ after ∧ ∀ c ∈ before ++ after, isBlank c = true
  start : ∀ c ∈ core.head?, isBlank c = false
  stop : ∀ c ∈ core.getLast?, isBlank c = false

/-- A character that is not blank stops the search for blank characters. -/
theorem dropWhile_of_head (start : ∀ c ∈ cs.head?, isBlank c = false) :
    cs.dropWhile isBlank = cs := by
  cases cs with
  | nil => rfl
  | cons c cs => exact List.dropWhile_cons_of_neg (by simp [start c rfl])

theorem isBlank_of_mem_takeWhile (cs : List Char) : ∀ c ∈ cs.takeWhile isBlank, isBlank c = true :=
  List.all_eq_true.1 List.all_takeWhile

theorem not_isBlank_of_head?_dropWhile (cs : List Char) :
    ∀ c ∈ (cs.dropWhile isBlank).head?, isBlank c = false := by
  intro c first
  have stops := List.head?_dropWhile_not isBlank cs
  rw [Option.mem_def.1 first] at stops
  exact stops

/-- What trimming leaves stands between blank characters. -/
theorem trimmed_trimBlank (cs : List Char) : Trimmed cs (trimBlank cs) := by
  -- First the blank characters before the rest go, then those before the reversed rest.
  let rest := cs.dropWhile isBlank
  have front : cs.takeWhile isBlank ++ rest = cs := List.takeWhile_append_dropWhile
  have back : trimBlank cs ++ (rest.reverse.takeWhile isBlank).reverse = rest := by
    rw [trimBlank, ← List.reverse_append, List.takeWhile_append_dropWhile, List.reverse_reverse]
  refine ⟨⟨cs.takeWhile isBlank, (rest.reverse.takeWhile isBlank).reverse, ?_, ?_⟩, ?_, ?_⟩
  · rw [List.append_assoc, back, front]
  · intro c mem
    rcases List.mem_append.1 mem with before | after
    · exact isBlank_of_mem_takeWhile cs c before
    · exact isBlank_of_mem_takeWhile rest.reverse c (List.mem_reverse.1 after)
  · intro c first
    apply not_isBlank_of_head?_dropWhile cs c
    change c ∈ rest.head?
    rw [← back, List.head?_append, Option.mem_def.1 first]
    exact rfl
  · intro c last
    rw [trimBlank, List.getLast?_reverse] at last
    exact not_isBlank_of_head?_dropWhile _ c last

/-- Nothing else stands between blank characters. -/
theorem Trimmed.eq (h : Trimmed cs core) : trimBlank cs = core := by
  obtain ⟨⟨before, after, rfl, blank⟩, start, stop⟩ := h
  have blank_before : ∀ c ∈ before, isBlank c = true :=
    fun c mem => blank c (List.mem_append_left _ mem)
  have blank_after : ∀ c ∈ after.reverse, isBlank c = true :=
    fun c mem => blank c (List.mem_append_right _ (List.mem_reverse.1 mem))
  cases core with
  | nil =>
    rw [List.append_nil, trimBlank, ← List.append_nil (before ++ after),
      List.dropWhile_append_of_pos blank]
    rfl
  | cons c core =>
    have start' : ∀ d ∈ ((c :: core) ++ after).head?, isBlank d = false := start
    have stop' : ∀ d ∈ (c :: core).reverse.head?, isBlank d = false := by
      rw [List.head?_reverse]
      exact stop
    rw [trimBlank, List.append_assoc, List.dropWhile_append_of_pos blank_before,
      dropWhile_of_head start', List.reverse_append, List.dropWhile_append_of_pos blank_after,
      dropWhile_of_head stop', List.reverse_reverse]

/-- Trimming finds the text between the blank characters. -/
theorem trimBlank_eq_iff : trimBlank cs = core ↔ Trimmed cs core :=
  ⟨fun e => e ▸ trimmed_trimBlank cs, Trimmed.eq⟩

/-! ### Decimal words -/

/-- The number that a text of digits denotes, the last one the ones. -/
def decimal (ds : List Char) : Nat :=
  Nat.ofDigits 10 (ds.reverse.map fun c => c.toNat - '0'.toNat)

/-- A text of ASCII digits, at least one. -/
def Digits (ds : List Char) : Prop :=
  ds ≠ [] ∧ ∀ c ∈ ds, '0' ≤ c ∧ c ≤ '9'

/-- The text is some digits, with or without a plus sign before them, and denotes a number. -/
inductive Denotes : List Char → Nat → Prop
  | plain {ds : List Char} (digits : Digits ds) : Denotes ds (decimal ds)
  | plus {ds : List Char} (digits : Digits ds) : Denotes ('+' :: ds) (decimal ds)

theorem digit?_eq_some_iff : digit? c = some n ↔ ('0' ≤ c ∧ c ≤ '9') ∧ c.toNat - '0'.toNat = n := by
  unfold digit?
  split <;> simp_all

theorem decimal_concat (ds : List Char) (c : Char) :
    decimal (ds ++ [c]) = 10 * decimal ds + (c.toNat - '0'.toNat) := by
  unfold decimal
  rw [List.reverse_append, List.reverse_singleton, List.singleton_append, List.map_cons,
    Nat.ofDigits_cons, Nat.add_comm]

theorem digits?_concat (ds : List Char) (c : Char) :
    digits? (ds ++ [c]) = (digits? ds).bind fun n => (digit? c).map (10 * n + ·) := by
  unfold digits?
  rw [List.foldlM_append]
  simp only [List.foldlM_cons, List.foldlM_nil, bind_pure, Option.bind_eq_bind]

/-- Digits are read as the number that they denote, and nothing else is read. -/
theorem digits?_eq_some_iff :
    digits? ds = some n ↔ (∀ c ∈ ds, '0' ≤ c ∧ c ≤ '9') ∧ decimal ds = n := by
  induction ds using List.reverseRecOn generalizing n with
  | nil => simp [digits?, decimal]
  | append_singleton ds c ih =>
    rw [digits?_concat, decimal_concat, List.forall_mem_append, List.forall_mem_singleton]
    simp only [Option.bind_eq_some_iff, Option.map_eq_some_iff, ih, digit?_eq_some_iff]
    constructor
    · rintro ⟨_, ⟨digits, rfl⟩, _, ⟨digit, rfl⟩, rfl⟩
      exact ⟨⟨digits, digit⟩, rfl⟩
    · rintro ⟨⟨digits, digit⟩, rfl⟩
      exact ⟨_, ⟨digits, rfl⟩, _, ⟨digit, rfl⟩, rfl⟩

/-- Digits are read as a word when there is one at least and they denote one. -/
theorem word?_body_eq_some_iff :
    (match ds with
      | [] => none
      | _ => (digits? ds).filter (· < wordLimit)) = some n ↔
    (Digits ds ∧ decimal ds = n) ∧ n < wordLimit := by
  cases ds with
  | nil => simp [Digits]
  | cons d ds =>
    rw [Option.filter_eq_some_iff, digits?_eq_some_iff, decide_eq_true_eq, Digits]
    simp only [ne_eq, reduceCtorEq, not_false_eq_true, true_and]

/-- A plus sign is no digit. -/
theorem not_digits_plus (ds : List Char) : ¬ Digits ('+' :: ds) := by
  rintro ⟨-, digits⟩
  exact absurd (digits '+' List.mem_cons_self) (by decide)

theorem denotes_plus_iff : Denotes ('+' :: ds) n ↔ Digits ds ∧ decimal ds = n := by
  constructor
  · rintro (digits | digits)
    · exact absurd digits (not_digits_plus ds)
    · exact ⟨digits, rfl⟩
  · rintro ⟨digits, rfl⟩
    exact .plus digits

theorem denotes_iff_of_no_plus (no_plus : ∀ ds, cs ≠ '+' :: ds) :
    Denotes cs n ↔ Digits cs ∧ decimal cs = n := by
  constructor
  · rintro (digits | digits)
    · exact ⟨digits, rfl⟩
    · exact absurd rfl (no_plus _)
  · rintro ⟨digits, rfl⟩
    exact .plain digits

/-- The texts that are read as words are those that denote one. -/
theorem word?_eq_some_iff : word? cs = some n ↔ Denotes cs n ∧ n < wordLimit := by
  unfold word?
  split
  · rw [denotes_plus_iff]
    exact word?_body_eq_some_iff
  · next no_plus =>
    rw [denotes_iff_of_no_plus no_plus]
    exact word?_body_eq_some_iff

end Text

namespace Environment

variable {bytes : ByteArray} {value : Option ByteArray} {n : Nat}

/-- The variable counts, and sets a number: its value is the UTF-8 form of a text that denotes the number
between blank characters, and the number is a word. -/
def Sets (value : Option ByteArray) (n : Nat) : Prop :=
  ∃ (text : String) (core : List Char), value = some text.toUTF8 ∧
    Text.Trimmed text.toList core ∧ Text.Denotes core n ∧ n < wordLimit

theorem fromUTF8?_eq_some_iff {text : String} :
    String.fromUTF8? bytes = some text ↔ bytes = text.toUTF8 := by
  unfold String.fromUTF8?
  constructor
  · intro decoded
    split at decoded
    · cases decoded
      rfl
    · cases decoded
  · rintro rfl
    exact dif_pos text.isValidUTF8

/-- The variables that are read as a number are those that set it. -/
theorem bind_readVariable_eq_some_iff :
    value.bind Settings.readVariable = some n ↔ Sets value n := by
  simp only [Settings.readVariable, Option.bind_eq_some_iff, fromUTF8?_eq_some_iff,
    Text.word?_eq_some_iff, Sets]
  constructor
  · rintro ⟨_, rfl, text, rfl, denotes⟩
    exact ⟨text, _, rfl, Text.trimBlank_eq_iff.1 rfl, denotes⟩
  · rintro ⟨text, core, rfl, trimmed, denotes⟩
    exact ⟨_, rfl, text, rfl, (Text.trimBlank_eq_iff.2 trimmed).symm ▸ denotes⟩

/-- A variable that sets no number is not read. -/
theorem bind_readVariable_eq_none (unset : ∀ n, ¬ Sets value n) :
    value.bind Settings.readVariable = none :=
  Option.eq_none_iff_forall_ne_some.2 fun n read => unset n (bind_readVariable_eq_some_iff.1 read)

end Environment

namespace Settings

variable {k m n : Nat}

/-! ### The smallest block -/

/-- The smallest block is the least number of whole words that is no smaller than the given number, brought
into the range from one word to half the address range. -/
theorem isLeast_withMinBlock (s : Settings) (n : Nat) :
    IsLeast (multiplesFrom wordSize (max wordSize (min n maxSpan))) (s.withMinBlock n).minBlock := by
  rw [minBlock_withMinBlock]
  exact isLeast_nextMultiple (by decide)

/-- Asking for more gives no less. -/
theorem withMinBlock_mono (s : Settings) (le : m ≤ n) :
    (s.withMinBlock m).minBlock ≤ (s.withMinBlock n).minBlock := by
  rw [minBlock_withMinBlock, minBlock_withMinBlock]
  exact nextMultiple_mono (by decide) (max_le_max_left _ (min_le_min_right _ le))

/-- A smallest block that can be set: whole words, one at least, and at most half the address range. -/
structure MinBlock (k : Nat) : Prop where
  words : wordSize ∣ k
  least : wordSize ≤ k
  most : k ≤ 2 ^ 63

theorem minBlock_default : MinBlock ({} : Settings).minBlock :=
  ⟨by decide, by decide, by decide⟩

theorem MinBlock.withMinBlock (s : Settings) (n : Nat) : MinBlock (s.withMinBlock n).minBlock := by
  have least := (isLeast_withMinBlock s n).1
  exact ⟨least.1, (le_max_left _ _).trans least.2, (usable_withMinBlock s n).most⟩

/-- Such a number is what it is rounded to. The range ends one below half the address range, and from there
the next whole words are the half itself. -/
theorem MinBlock.isLeast (h : MinBlock k) :
    IsLeast (multiplesFrom wordSize (max wordSize (min k maxSpan))) k := by
  obtain ⟨words, least, most⟩ := h
  refine ⟨⟨words, max_le least (min_le_left _ _)⟩, ?_⟩
  rintro m ⟨words', from_clamped⟩
  have clamped := (le_max_right _ _).trans from_clamped
  unfold wordSize at words words'
  unfold maxSpan at clamped
  omega

/-- What was set once is set to the same number again, also where it is beyond the range. -/
theorem withMinBlock_again (s s' : Settings) (n : Nat) :
    (s'.withMinBlock (s.withMinBlock n).minBlock).minBlock = (s.withMinBlock n).minBlock :=
  (isLeast_withMinBlock s' _).unique (MinBlock.withMinBlock s n).isLeast

/-! ### What an environment spells -/

/-- The settings that an environment stands for: each number is the one that its variable sets, whatever the
other variable is, and the default otherwise. Rounding the smallest block is not stopped. -/
structure SpeltBy (env : Environment) (s : Settings) : Prop where
  retained : ∀ n, Environment.Sets env.retained n → s.retained = n
  retained_default : (∀ n, ¬ Environment.Sets env.retained n) → s.retained = 1024
  minBlock : ∀ n, Environment.Sets env.minBlock n →
    IsLeast (multiplesFrom wordSize (max wordSize (min n maxSpan))) s.minBlock
  unstopped : ∀ n, Environment.Sets env.minBlock n →
    roundUp (max wordSize (min n maxSpan)) wordSize = .ok s.minBlock
  minBlock_default : (∀ n, ¬ Environment.Sets env.minBlock n) → s.minBlock = 16
  shape : MinBlock s.minBlock

theorem minBlock_ofEnvironment (env : Environment) : (ofEnvironment env).minBlock =
    match env.minBlock.bind readVariable with
    | some n => (({} : Settings).withMinBlock n).minBlock
    | none => 16 := by
  unfold ofEnvironment
  cases env.minBlock.bind readVariable <;> cases env.retained.bind readVariable <;> rfl

theorem retained_ofEnvironment (env : Environment) :
    (ofEnvironment env).retained = (env.retained.bind readVariable).getD 1024 := by
  unfold ofEnvironment
  cases env.minBlock.bind readVariable <;> cases env.retained.bind readVariable <;> rfl

theorem speltBy_ofEnvironment (env : Environment) : SpeltBy env (ofEnvironment env) where
  retained n set := by
    rw [retained_ofEnvironment, Environment.bind_readVariable_eq_some_iff.2 set, Option.getD_some]
  retained_default unset := by
    rw [retained_ofEnvironment, Environment.bind_readVariable_eq_none unset, Option.getD_none]
  minBlock n set := by
    rw [minBlock_ofEnvironment, Environment.bind_readVariable_eq_some_iff.2 set]
    exact isLeast_withMinBlock {} n
  unstopped n set := by
    rw [minBlock_ofEnvironment, Environment.bind_readVariable_eq_some_iff.2 set]
    exact roundUp_withMinBlock {} n
  minBlock_default unset := by
    rw [minBlock_ofEnvironment, Environment.bind_readVariable_eq_none unset]
  shape := by
    rw [minBlock_ofEnvironment]
    split
    · exact MinBlock.withMinBlock {} _
    · exact minBlock_default

/-- **An environment spells settings.** Whatever the values of the two variables are, each number is the one
that the text of its own variable denotes, digits with or without a plus sign between blank characters, as
long as a word holds it; in every other case the number is the default. The smallest block is the least
number of whole words from there on, within its range, and no step to it is stopped. Setting the smallest
block is monotone, and setting what was set gives that again. -/
theorem ofEnvironment_spells :
    (∀ env, SpeltBy env (ofEnvironment env)) ∧
    (∀ (s : Settings) (m n : Nat), m ≤ n → (s.withMinBlock m).minBlock ≤ (s.withMinBlock n).minBlock) ∧
    ∀ (s s' : Settings) (n : Nat),
      (s'.withMinBlock (s.withMinBlock n).minBlock).minBlock = (s.withMinBlock n).minBlock :=
  ⟨speltBy_ofEnvironment, fun s _ _ le => withMinBlock_mono s le, withMinBlock_again⟩

/-- Blank characters outside ASCII are dropped, zeros in front are not counted, and a sign without digits
sets nothing. -/
example : ofEnvironment ⟨some "\u3000 +0021\u00a0".toUTF8, some "+".toUTF8⟩ = ⟨24, 1024⟩ := by
  decide +kernel

end Settings

end RegionHeap
