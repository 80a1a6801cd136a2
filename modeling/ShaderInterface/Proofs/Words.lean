import Mathlib.Data.List.Basic
import Mathlib.Data.List.Induction
import ShaderInterface.Proofs.Spans
import ShaderInterface.Text.Blank

/-!
# Words of a text

The words of a text are non-empty and have no blanks in them, and every other character of the text
stands in one of them. A text is read by its words, and `collapse_inj` says that two texts have the
same words exactly if they are equal when the blanks between their words are collapsed.
-/

namespace ShaderInterface.Text

/-! ## Characters of words -/

/-- What is not a separator stands in one of the parts, and nothing else does. -/
theorem mem_splitOnP_iff {α : Type} {p : α → Bool} {xs : List α} {a : α} :
    (∃ part ∈ xs.splitOnP p, a ∈ part) ↔ a ∈ xs ∧ p a = false := by
  induction xs with
  | nil => simp
  | cons x xs ih =>
    rw [List.splitOnP_cons_eq_if_modifyHead]
    by_cases hx : p x
    · rw [if_pos hx, List.exists_mem_cons_iff, ih, List.mem_cons]
      constructor
      · rintro (h | ⟨ha, hpa⟩)
        · contradiction
        · exact ⟨.inr ha, hpa⟩
      · rintro ⟨rfl | ha, hpa⟩
        · exact absurd hx (Bool.eq_false_iff.1 hpa)
        · exact .inr ⟨ha, hpa⟩
    · obtain ⟨part, parts, hparts⟩ := List.exists_cons_of_ne_nil (List.splitOnP_ne_nil p xs)
      rw [hparts, List.exists_mem_cons_iff] at ih
      rw [if_neg hx, hparts, List.modifyHead_cons, List.exists_mem_cons_iff, List.mem_cons,
        List.mem_cons, or_assoc, ih]
      constructor
      · rintro (rfl | ⟨ha, hpa⟩)
        · exact ⟨.inl rfl, Bool.eq_false_iff.2 hx⟩
        · exact ⟨.inr ha, hpa⟩
      · rintro ⟨rfl | ha, hpa⟩
        · exact .inl rfl
        · exact .inr ⟨ha, hpa⟩

/-- A character stands in a word of a text if it stands in the text and is not blank. -/
theorem exists_mem_words_iff {s : String} {c : Char} :
    (∃ w ∈ words s, c ∈ w.toList) ↔ c ∈ s.toList ∧ isBlank c = false := by
  rw [← mem_splitOnP_iff]
  constructor
  · rintro ⟨w, hw, hc⟩
    obtain ⟨part, hpart, rfl⟩ := List.mem_map.1 hw
    exact ⟨part, (List.mem_filter.1 hpart).1, by rwa [String.toList_ofList] at hc⟩
  · rintro ⟨part, hpart, hc⟩
    have hne : (!part.isEmpty) = true := by
      cases part with
      | nil => contradiction
      | cons => rfl
    refine ⟨String.ofList part, List.mem_map_of_mem (List.mem_filter.2 ⟨hpart, hne⟩), ?_⟩
    rwa [String.toList_ofList]

/-- What the words of a text are: they hold some characters, and no blank. -/
structure IsWord (w : String) : Prop where
  ne_empty : w ≠ ""
  not_isBlank : ∀ c ∈ w.toList, isBlank c = false

/-- The words of a text are words. -/
theorem isWord_of_mem_words {s w : String} (hw : w ∈ words s) : IsWord w :=
  ⟨ne_empty_of_mem_words hw, fun _ hc => (exists_mem_words_iff.1 ⟨w, hw, hc⟩).2⟩

/-- A word holds a character. -/
theorem IsWord.isEmpty_toList {w : String} (hw : IsWord w) : w.toList.isEmpty = false := by
  rw [List.isEmpty_eq_false_iff, Ne, String.toList_eq_nil_iff]
  exact hw.ne_empty

/-- A text that begins with a word has words. -/
theorem words_append_ne_nil {w : String} (hw : IsWord w) (s : String) : words (w ++ s) ≠ [] := by
  have hne : w.toList ≠ [] := List.isEmpty_eq_false_iff.1 hw.isEmpty_toList
  obtain ⟨c, hc⟩ := List.exists_mem_of_ne_nil _ hne
  have hmem : c ∈ (w ++ s).toList := by
    rw [String.toList_append]
    exact List.mem_append_left _ hc
  obtain ⟨v, hv, -⟩ := exists_mem_words_iff.2 ⟨hmem, hw.not_isBlank c hc⟩
  exact List.ne_nil_of_mem hv

/-! ## Texts with the same words -/

/-- A word is the only word of the text that it is. -/
theorem words_of_isWord {w : String} (hw : IsWord w) : words w = [w] := by
  rw [words, List.splitOnP_eq_singleton hw.not_isBlank]
  simp [hw.isEmpty_toList]

/-- A word stands in front of a space, and the other words stand behind the space. -/
theorem words_append_space {w : String} (hw : IsWord w) (s : String) :
    words (w ++ (" " ++ s)) = w :: words s := by
  have hsplit : (w ++ (" " ++ s)).toList.splitOnP isBlank
      = w.toList :: s.toList.splitOnP isBlank := by
    have htext : (w ++ (" " ++ s)).toList = w.toList ++ ' ' :: s.toList := by simp
    rw [htext, List.splitOnP_append_cons_of_forall_mem hw.not_isBlank ' ' rfl]
  rw [words, hsplit, List.filter_cons_of_pos (by simp [hw.isEmpty_toList]), List.map_cons,
    String.ofList_toList]
  rfl

section

variable {ws : List String} (hws : ∀ w ∈ ws, IsWord w)

include hws

/-- Words with one space between neighbours are read as these words. -/
theorem words_intercalate : words (" ".intercalate ws) = ws := by
  induction ws with
  | nil =>
    rw [String.intercalate_nil]
    rfl
  | cons w ws ih =>
    rw [List.forall_mem_cons] at hws
    cases ws with
    | nil =>
      rw [String.intercalate_singleton]
      exact words_of_isWord hws.1
    | cons v ws =>
      rw [String.intercalate_cons_cons, String.append_assoc, words_append_space hws.1, ih hws.2]

/-- The only blanks between words with one space between neighbours are the spaces. -/
theorem eq_space_of_mem_intercalate {c : Char} (hc : c ∈ (" ".intercalate ws).toList)
    (hblank : isBlank c) : c = ' ' := by
  have hword : ∀ w, IsWord w → c ∉ w.toList := by
    intro w hw hmem
    exact absurd hblank (Bool.eq_false_iff.1 (hw.not_isBlank c hmem))
  induction ws with
  | nil =>
    rw [String.intercalate_nil] at hc
    contradiction
  | cons w ws ih =>
    rw [List.forall_mem_cons] at hws
    cases ws with
    | nil =>
      rw [String.intercalate_singleton] at hc
      exact absurd hc (hword w hws.1)
    | cons v ws =>
      rw [String.intercalate_cons_cons, String.toList_append, String.toList_append, List.mem_append,
        List.mem_append] at hc
      obtain (hc | hc) | hc := hc
      · exact absurd hc (hword w hws.1)
      · exact List.mem_singleton.1 hc
      · exact ih hws.2 hc

/-- No blank stands in front of words. -/
theorem not_isBlank_of_mem_head?_intercalate {c : Char}
    (hc : c ∈ (" ".intercalate ws).toList.head?) : isBlank c = false := by
  cases ws with
  | nil =>
    rw [String.intercalate_nil] at hc
    contradiction
  | cons w ws =>
    have hw := hws w List.mem_cons_self
    obtain ⟨rest, hrest⟩ : ∃ rest, (" ".intercalate (w :: ws)).toList = w.toList ++ rest := by
      cases ws with
      | nil => exact ⟨[], by rw [String.intercalate_singleton, List.append_nil]⟩
      | cons v ws =>
        refine ⟨(" " ++ " ".intercalate (v :: ws)).toList, ?_⟩
        rw [String.intercalate_cons_cons, String.append_assoc, String.toList_append]
    have hne : w.toList ≠ [] := List.isEmpty_eq_false_iff.1 hw.isEmpty_toList
    rw [hrest, List.head?_append_of_ne_nil _ hne] at hc
    exact hw.not_isBlank c (List.mem_of_mem_head? hc)

/-- No blank stands behind words. -/
theorem not_isBlank_of_mem_getLast?_intercalate {c : Char}
    (hc : c ∈ (" ".intercalate ws).toList.getLast?) : isBlank c = false := by
  induction ws with
  | nil =>
    rw [String.intercalate_nil] at hc
    contradiction
  | cons w ws ih =>
    rw [List.forall_mem_cons] at hws
    cases ws with
    | nil =>
      rw [String.intercalate_singleton] at hc
      exact hws.1.not_isBlank c (List.mem_of_mem_getLast? hc)
    | cons v ws =>
      have hne : (" ".intercalate (v :: ws)).toList ≠ [] := by
        intro hnil
        have hwords := words_intercalate hws.2
        rw [String.toList_eq_nil_iff.1 hnil] at hwords
        contradiction
      rw [String.intercalate_cons_cons, String.toList_append,
        List.getLast?_append_of_ne_nil _ hne] at hc
      exact ih hws.2 hc

end

/-- Collapsing the blanks of a text leaves its words as they are. -/
theorem words_collapse (s : String) : words (collapse s) = words s :=
  words_intercalate fun _ => isWord_of_mem_words

/-- Two texts are equal up to the blanks between their words if they have the same words. -/
theorem collapse_inj {s t : String} : collapse s = collapse t ↔ words s = words t := by
  constructor
  · intro h
    rw [← words_collapse s, h, words_collapse]
  · intro h
    rw [collapse, collapse, h]

/-! ## Blanks at the ends -/

/-- A blank parts the words before it from those behind it. -/
theorem words_append_blank {c : Char} (hc : isBlank c) (xs ys : List Char) :
    words (String.ofList (xs ++ c :: ys)) =
      words (String.ofList xs) ++ words (String.ofList ys) := by
  simp only [words, String.toList_ofList]
  rw [List.splitOnP_append_cons xs ys hc, List.filter_append, List.map_append]

/-- The empty text has no words. -/
theorem words_ofList_nil : words (String.ofList []) = [] := rfl

/-- Blanks in front of a text do not change its words. -/
theorem words_trimStart (cs : List Char) :
    words (String.ofList (trimStart cs)) = words (String.ofList cs) := by
  induction cs with
  | nil => rfl
  | cons c cs ih =>
    by_cases hc : isBlank c
    · have hdrop : trimStart (c :: cs) = trimStart cs := List.dropWhile_cons_of_pos hc
      have hwords := words_append_blank hc [] cs
      rw [words_ofList_nil, List.nil_append, List.nil_append] at hwords
      rw [hdrop, ih, hwords]
    · rw [trimStart, List.dropWhile_cons_of_neg hc]

/-- Blanks behind a text do not change its words. -/
theorem words_trimEnd (cs : List Char) :
    words (String.ofList (trimEnd cs)) = words (String.ofList cs) := by
  induction cs using List.reverseRecOn with
  | nil => rfl
  | append_singleton cs c ih =>
    by_cases hc : isBlank c
    · have hdrop : trimEnd (cs ++ [c]) = trimEnd cs := by
        rw [trimEnd, List.reverse_concat, List.dropWhile_cons_of_pos hc, trimEnd]
      rw [hdrop, ih, words_append_blank hc, words_ofList_nil, List.append_nil]
    · rw [trimEnd, List.reverse_concat, List.dropWhile_cons_of_neg hc, List.reverse_cons,
        List.reverse_reverse]

/-- A text without the blanks at its ends has the same words. -/
theorem words_trim (cs : List Char) :
    words (String.ofList (trim cs)) = words (String.ofList cs) := by
  rw [trim, words_trimEnd, words_trimStart]

/-- Nothing is left of a text without the blanks at its ends if all of it is blank. -/
theorem trim_eq_nil_iff {cs : List Char} : trim cs = [] ↔ ∀ c ∈ cs, isBlank c := by
  rw [trim, trimEnd, List.reverse_eq_nil_iff, List.dropWhile_eq_nil_iff]
  constructor
  · intro h
    have hstart : trimStart cs = [] := by
      by_contra hne
      obtain ⟨c, rest, hc⟩ := List.exists_cons_of_ne_nil hne
      have hhead : ¬ isBlank c := by
        have hmem : c ∈ (cs.dropWhile isBlank).head? := by
          rw [← trimStart, hc]
          rfl
        exact not_of_mem_head?_dropWhile hmem
      exact hhead (h c (by simp [hc]))
    exact List.dropWhile_eq_nil_iff.1 hstart
  · intro h c hc
    rw [trimStart, List.dropWhile_eq_nil_iff.2 h] at hc
    contradiction

/-- A text is what is left of it without the blanks at its ends, and these blanks. -/
theorem exists_eq_append_trim (cs : List Char) : ∃ front back, cs = front ++ (trim cs ++ back) ∧
    (∀ c ∈ front, isBlank c) ∧ ∀ c ∈ back, isBlank c := by
  have hback : trimEnd (trimStart cs) ++ ((trimStart cs).reverse.takeWhile isBlank).reverse =
      trimStart cs := by
    rw [trimEnd, ← List.reverse_append, List.takeWhile_append_dropWhile, List.reverse_reverse]
  refine ⟨cs.takeWhile isBlank, ((trimStart cs).reverse.takeWhile isBlank).reverse, ?_, ?_, ?_⟩
  · rw [trim, hback, takeWhile_append_trimStart]
  · exact fun c hc => List.mem_takeWhile_imp hc
  · exact fun c hc => List.mem_takeWhile_imp (List.mem_reverse.1 hc)

/-- What is left of a text between blanks. -/
theorem trim_append {front cs back : List Char} (hfront : ∀ c ∈ front, isBlank c)
    (hcs : ∀ c ∈ cs, isBlank c = false) (hback : ∀ c ∈ back, isBlank c) :
    trim (front ++ (cs ++ back)) = cs := by
  cases hne : cs with
  | nil =>
    rw [List.nil_append, trim_eq_nil_iff, List.forall_mem_append]
    exact ⟨hfront, hback⟩
  | cons c rest =>
    rw [← hne]
    have hstart : trimStart (front ++ (cs ++ back)) = cs ++ back := by
      refine dropWhile_append_eq hfront fun d hd => ?_
      rw [hne] at hd
      obtain rfl := Option.mem_some.1 hd
      exact Bool.eq_false_iff.1 (hcs _ (hne ▸ List.mem_cons_self))
    have hend : (cs ++ back).reverse.dropWhile isBlank = cs.reverse := by
      rw [List.reverse_append]
      refine dropWhile_append_eq (fun d hd => hback d (List.mem_reverse.1 hd)) fun d hd => ?_
      exact Bool.eq_false_iff.1 (hcs d (List.mem_reverse.1 (List.mem_of_mem_head? hd)))
    rw [trim, hstart, trimEnd, hend, List.reverse_reverse]

end ShaderInterface.Text
