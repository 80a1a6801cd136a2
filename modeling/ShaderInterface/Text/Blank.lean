/-!
# Blanks, words and trimming

Declaration texts are read by words. A blank is a character with the Unicode property
`White_Space`; the words of a text are its longest stretches without blanks, and two texts that
differ only in the blanks between their words have the same `collapse`.
-/

namespace ShaderInterface.Text

/-- The characters with the Unicode property `White_Space`. -/
def isBlank (c : Char) : Bool :=
  let n := c.toNat
  (9 ≤ n && n ≤ 13) || n == 0x20 || n == 0x85 || n == 0xA0 || n == 0x1680
    || (0x2000 ≤ n && n ≤ 0x200A) || n == 0x2028 || n == 0x2029 || n == 0x202F || n == 0x205F
    || n == 0x3000

/-- The text from its first character that is not blank. -/
def trimStart (cs : List Char) : List Char :=
  cs.dropWhile isBlank

/-- The text up to its last character that is not blank. -/
def trimEnd (cs : List Char) : List Char :=
  (cs.reverse.dropWhile isBlank).reverse

/-- The text without the blanks at its two ends. -/
def trim (cs : List Char) : List Char :=
  trimEnd (trimStart cs)

/-- The words of a text, in order: its longest stretches without blanks. -/
def words (s : String) : List String :=
  ((s.toList.splitOnP isBlank).filter (!·.isEmpty)).map String.ofList

/-- The words of a text with one space between neighbours. -/
def collapse (s : String) : String :=
  " ".intercalate (words s)

/-! ## What is blank -/

/-- Every character that core counts as white space is blank. -/
theorem isBlank_of_isWhitespace {c : Char} (h : c.isWhitespace) : isBlank c := by
  simp only [Char.isWhitespace, Bool.or_eq_true, decide_eq_true_eq] at h
  rcases h with ((rfl | rfl) | rfl) | rfl <;> rfl

/-- Nothing but blanks goes when a text is trimmed at its start. -/
theorem takeWhile_append_trimStart (cs : List Char) :
    cs.takeWhile isBlank ++ trimStart cs = cs :=
  List.takeWhile_append_dropWhile

/-- A word is never empty. -/
theorem ne_empty_of_mem_words {s w : String} (h : w ∈ words s) : w ≠ "" := by
  simp only [words, List.mem_map, List.mem_filter] at h
  obtain ⟨cs, ⟨_, hne⟩, rfl⟩ := h
  intro he
  rw [String.ofList_eq_empty_iff] at he
  simp [he] at hne

end ShaderInterface.Text
