import RegionHeap.Block

/-!
# The lines of blocks

Every report shows a block in one line. What the line says is described here part by part, and from the
line alone the size, the number and the flags of the block can be told.

* `FlushRight` — a text at the right end of a column.
* `Block.Line` — what a line has to say to show a block.
* `Block.line_describe` — the line of every block says so.
* `Block.Line.unique`, `Block.nodup_lines` — no line shows two blocks that differ in size, number or flags.
-/

set_option autoImplicit false

namespace RegionHeap

/-- The column is the text behind blanks, as many as it takes to fill `width` characters. A text that is
longer stands alone. -/
def FlushRight (width : Nat) (text column : String) : Prop :=
  ∃ blanks : List Char, column.toList = blanks ++ text.toList ∧ (∀ c ∈ blanks, c = ' ') ∧
    column.length = max width text.length

theorem toList_pushn (s : String) (c : Char) (n : Nat) :
    (s.pushn c n).toList = s.toList ++ List.replicate n c := by
  rw [String.pushn_eq_repeat_push]
  induction n with
  | zero => exact (List.append_nil _).symm
  | succ n ih =>
    rw [Nat.repeat, String.toList_push, ih, List.append_assoc, List.replicate_succ']

/-- Blanks before a text put it at the right end of a column. -/
theorem flushRight_pushn (width : Nat) (text : String) :
    FlushRight width text ("".pushn ' ' (width - text.length) ++ text) := by
  refine ⟨List.replicate (width - text.length) ' ', ?_, fun c hc => List.eq_of_mem_replicate hc, ?_⟩
  · rw [String.toList_append, toList_pushn]
    rfl
  · rw [String.length_append, String.length_pushn, String.length_empty]
    omega

/-! ### Numbers at the end of a text -/

theorem isDigit_of_mem_toString {n : Nat} {c : Char} (h : c ∈ (toString n).toList) :
    c.isDigit = true := by
  rw [Nat.toString_eq_repr, Nat.toList_repr] at h
  exact Nat.isDigit_of_mem_toDigits (by decide) (by decide) h

/-- The digits that end a text, behind something that is no digit. -/
theorem takeWhile_reverse_number {us : List Char} {c : Char} (n : Nat) (hc : c.isDigit = false) :
    (us ++ c :: (toString n).toList).reverse.takeWhile Char.isDigit = (toString n).toList.reverse := by
  rw [List.reverse_append, List.reverse_cons, List.append_assoc, List.takeWhile_append_of_pos,
    List.singleton_append, List.takeWhile_cons_of_neg (by simp [hc]), List.append_nil]
  exact fun d hd => isDigit_of_mem_toString (List.mem_reverse.1 hd)

/-- A text ends in one number. -/
theorem number_unique {us us' : List Char} {c c' : Char} {n n' : Nat} (hc : c.isDigit = false)
    (hc' : c'.isDigit = false)
    (e : us ++ c :: (toString n).toList = us' ++ c' :: (toString n').toList) : n = n' ∧ us = us' := by
  have digits : (toString n).toList.reverse = (toString n').toList.reverse := by
    rw [← takeWhile_reverse_number n hc, e, takeWhile_reverse_number n' hc']
  have same := List.reverse_inj.1 digits
  have front := List.append_inj' e (by rw [List.length_cons, List.length_cons, same])
  refine ⟨?_, front.1⟩
  rw [Nat.toString_eq_repr, Nat.toList_repr, Nat.toString_eq_repr, Nat.toList_repr] at same
  rw [← @Nat.ofDigitChars_ten_toDigits n, same, Nat.ofDigitChars_ten_toDigits]

namespace Block

/-- The line shows the block. It names the region, the block and both ends of the payload, which starts
behind a header of 72 bytes and is named from the region that the block is in. The size stands at the
right end of ten columns. Then it says whether the block is handed out, whether its memory comes from the
program break or from a mapping, and which number the block has. -/
def Line (atlas : Atlas) (b : Block) (line : String) : Prop :=
  ∃ first last size state source : String,
    line = s!"[region: {atlas.text b.region}, block: {atlas.text b.addr}, data: {first}-{last}] " ++ size
        ++ s!" [{state}] [{source}]" ++ s!" [block_{b.id}]" ∧
      first = atlas.textFrom b.addr (b.addr + 72) ∧
      last = atlas.textFrom b.addr (b.addr + 72 + b.size) ∧
      FlushRight 10 (toString b.size) size ∧
      (b.used = true ∧ state = "USED" ∨ b.used = false ∧ state = "FREE") ∧
      (b.fromBreak = true ∧ source = "HEAP" ∨ b.fromBreak = false ∧ source = "MMAP")

variable {atlas : Atlas} {b b' : Block} {line : String}

/-- The line of a block shows it. -/
theorem line_describe (atlas : Atlas) (b : Block) : b.Line atlas (b.describe atlas) := by
  refine ⟨_, _, "".pushn ' ' (10 - (toString b.size).length) ++ toString b.size,
    if b.used then "USED" else "FREE", if b.fromBreak then "HEAP" else "MMAP", ?_, rfl, rfl,
    flushRight_pushn 10 _, ?_, ?_⟩
  · have flags : (if b.used then " [USED]" else " [FREE]")
          ++ (if b.fromBreak then " [HEAP]" else " [MMAP]") =
        " [" ++ (if b.used then "USED" else "FREE") ++ "] ["
          ++ (if b.fromBreak then "HEAP" else "MMAP") ++ "]" := by
      cases b.used <;> cases b.fromBreak <;> rfl
    unfold describe
    dsimp only
    rw [@String.append_assoc _ (if b.used then _ else _), flags, @String.append_assoc _ (String.pushn _ _ _)]
    rfl
  · cases b.used <;> simp
  · cases b.fromBreak <;> simp

example : describe [⟨"r0", 4096, 4096⟩] ⟨4184, true, 64, 3, true, false, 4096⟩ =
    "[region: r0+0, block: r0+88, data: r0+160-r0+224]         64 [USED] [MMAP] [block_3]" := by
  decide +kernel

/-- The end of a line, in characters: the size behind something that is no digit, the flags in words of
four characters, and the number. -/
theorem Line.exists_chars (shows : b.Line atlas line) : ∃ front state source : List Char,
    line.toList = front ++ ' ' :: (toString b.size).toList ++
        (" [".toList ++ state ++ "] [".toList ++ source ++ "] [block".toList) ++
        '_' :: (toString b.id).toList ++ [']'] ∧
      state.length = 4 ∧ source.length = 4 ∧
      (b.used = true ↔ state = "USED".toList) ∧ (b.fromBreak = true ↔ source = "HEAP".toList) := by
  obtain ⟨first, last, size, state, source, rfl, _, _, ⟨blanks, column, blank, _⟩, used, fromBreak⟩ :=
    shows
  have parted : ∃ front, "] ".toList ++ blanks = front ++ [' '] := by
    rcases List.eq_nil_or_concat blanks with rfl | ⟨before, c, rfl⟩
    · exact ⟨[']'], rfl⟩
    · refine ⟨"] ".toList ++ before, ?_⟩
      rw [blank c (by simp), List.concat_eq_append, List.append_assoc]
  obtain ⟨front, parted⟩ := parted
  refine ⟨s!"[region: {atlas.text b.region}, block: {atlas.text b.addr}, data: {first}-{last}".toList ++
    front, state.toList, source.toList, ?_, ?_, ?_, ?_, ?_⟩
  · have sized (rest : List Char) : (toString "] ").toList ++ (size.toList ++ rest) =
        front ++ ' ' :: (toString b.size).toList ++ rest := by
      rw [← List.append_assoc, column, ← List.append_assoc, List.append_cons, ← parted]
      rfl
    simp only [String.toList_append, List.append_assoc, sized]
    rfl
  · rcases used with ⟨_, rfl⟩ | ⟨_, rfl⟩ <;> rfl
  · rcases fromBreak with ⟨_, rfl⟩ | ⟨_, rfl⟩ <;> rfl
  · rcases used with ⟨e, rfl⟩ | ⟨e, rfl⟩ <;> simp [e]
  · rcases fromBreak with ⟨e, rfl⟩ | ⟨e, rfl⟩ <;> simp [e]

/-- A line shows one size, one number and one choice of the flags. -/
theorem Line.unique (shows : b.Line atlas line) (shows' : b'.Line atlas line) :
    b.size = b'.size ∧ b.id = b'.id ∧ b.used = b'.used ∧ b.fromBreak = b'.fromBreak := by
  obtain ⟨front, state, source, chars, long, long₂, used, fromBreak⟩ := shows.exists_chars
  obtain ⟨front', state', source', chars', long', long₂', used', fromBreak'⟩ := shows'.exists_chars
  have whole := List.append_cancel_right (chars.symm.trans chars')
  obtain ⟨ids, rest⟩ := number_unique (by decide) (by decide) whole
  obtain ⟨sized, flags⟩ := List.append_inj' rest (by simp [long, long', long₂, long₂'])
  obtain ⟨sizes, _⟩ := number_unique (by decide) (by decide) sized
  obtain ⟨states, sources⟩ :=
    List.append_inj' (List.append_cancel_right flags) (by rw [long₂, long₂'])
  have states := List.append_cancel_left (List.append_cancel_right states)
  refine ⟨sizes, ids, ?_, ?_⟩
  · rw [Bool.eq_iff_iff, used, used', states]
  · rw [Bool.eq_iff_iff, fromBreak, fromBreak', sources]

end Block

end RegionHeap
