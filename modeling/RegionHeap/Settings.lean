import RegionHeap.Rounding

/-!
# Settings

The two numbers that tune a heap, and how the environment sets them: a variable counts when its
bytes are UTF-8 and spell a word, blank characters around it aside; the two count independently. Blank
are the characters with the Unicode property `White_Space`. A word is spelt in decimal: an optional plus
sign, then at least one ASCII digit and nothing else. Leading zeros are allowed; a number that no word
holds is refused.

* `Settings.roundUp_withMinBlock` — rounding the smallest block is never stopped.
-/

set_option autoImplicit false

namespace RegionHeap

namespace Text

/-! ### Texts that spell words -/

/-- Ranges of code points with the property `White_Space`, ends included. -/
def blankRanges : List (Nat × Nat) :=
  [(0x0009, 0x000D), (0x0020, 0x0020), (0x0085, 0x0085), (0x00A0, 0x00A0), (0x1680, 0x1680),
    (0x2000, 0x200A), (0x2028, 0x2029), (0x202F, 0x202F), (0x205F, 0x205F), (0x3000, 0x3000)]

/-- Whether a character has the property `White_Space`. -/
def isBlank (c : Char) : Bool :=
  blankRanges.any fun (first, last) => first ≤ c.toNat && c.toNat ≤ last

/-- The text without the blank characters at its start and end. -/
def trimBlank (cs : List Char) : List Char :=
  ((cs.dropWhile isBlank).reverse.dropWhile isBlank).reverse

/-- The value of one ASCII digit. -/
def digit? (c : Char) : Option Nat :=
  if '0' ≤ c ∧ c ≤ '9' then some (c.toNat - '0'.toNat) else none

/-- The number that a text of ASCII digits spells. -/
def digits? (cs : List Char) : Option Nat :=
  cs.foldlM (fun n c => (digit? c).map (10 * n + ·)) 0

/-- The word that a text spells. -/
def word? (cs : List Char) : Option Nat :=
  let body := match cs with
    | '+' :: rest => rest
    | _ => cs
  match body with
  | [] => none
  | _ => (digits? body).filter (· < wordLimit)

end Text

/-! ### The settings -/

/-- The numbers that tune a heap. -/
structure Settings where
  /-- Requests are rounded up to at least this many bytes, and a block is cut only when the rest can
  hold a header and this many bytes. -/
  minBlock : Nat := 16
  /-- A region that is free from end to end is given back only while more regions than this are
  mapped. -/
  retained : Nat := 1024
  deriving DecidableEq, Repr

/-- The environment's word on the settings: the bytes of each variable that is set. -/
structure Environment where
  minBlock : Option ByteArray := none
  retained : Option ByteArray := none

namespace Settings

/-- The least multiple of the word that is at least `n`, with `n` first brought into the range from
one word to half the address range. Within that range the sum is a word, so it is not checked
(`roundUp_withMinBlock`). -/
def roundMinBlock (n : Nat) : Nat :=
  clearLowBits (max wordSize (min n maxSpan) + (wordSize - 1)) wordSize

/-- Sets the smallest block, in whole words. -/
def withMinBlock (s : Settings) (n : Nat) : Settings :=
  { s with minBlock := roundMinBlock n }

/-- Rounding with a check gives the same, and is never stopped. -/
theorem roundUp_withMinBlock (s : Settings) (n : Nat) :
    roundUp (max wordSize (min n maxSpan)) wordSize = .ok (s.withMinBlock n).minBlock := by
  have room : max wordSize (min n maxSpan) + wordSize < wordLimit := by
    unfold wordSize maxSpan wordLimit
    omega
  unfold roundUp
  rw [Word.add_eq_ok room]
  rfl

/-- Sets how many regions are kept. -/
def withRetained (s : Settings) (n : Nat) : Settings :=
  { s with retained := n }

/-- The word that the bytes of a variable spell. -/
def readVariable (bytes : ByteArray) : Option Nat :=
  (String.fromUTF8? bytes).bind fun text => Text.word? (Text.trimBlank text.toList)

/-- The default settings, overridden by what the environment spells. -/
def ofEnvironment (env : Environment) : Settings :=
  let s : Settings := {}
  let s := match env.minBlock.bind readVariable with
    | some n => s.withMinBlock n
    | none => s
  match env.retained.bind readVariable with
  | some n => s.withRetained n
  | none => s

/-- The text that shows the settings. -/
def text (s : Settings) : String :=
  s!"Config \x7b min_block_size: {s.minBlock}, retained_regions: {s.retained} \x7d"

end Settings

end RegionHeap
