/-!
# Identifiers

An identifier of the shading language: an ASCII letter or underscore, then ASCII letters, digits
and underscores.
-/

namespace ShaderInterface.Text

/-- A character that can begin an identifier. -/
def isNameStart (c : Char) : Bool :=
  c.isAlpha || c == '_'

/-- A character that can continue an identifier. -/
def isNamePart (c : Char) : Bool :=
  c.isAlphanum || c == '_'

/-- One character that begins an identifier, then only characters that continue one. -/
def isIdentifier (s : String) : Bool :=
  match s.toList with
  | [] => false
  | c :: cs => isNameStart c && cs.all isNamePart

/-- What begins an identifier also continues one. -/
theorem isNamePart_of_isNameStart {c : Char} (h : isNameStart c) : isNamePart c := by
  simp only [isNameStart, isNamePart, Char.isAlphanum, Bool.or_eq_true] at h ⊢
  exact h.imp_left Or.inl

/-- What continues an identifier lies between the digits and the lower letters of ASCII. -/
theorem toNat_of_isNamePart {c : Char} (h : isNamePart c) : 48 ≤ c.toNat ∧ c.toNat ≤ 122 := by
  delta isNamePart Char.isAlphanum Char.isAlpha Char.isUpper Char.isLower Char.isDigit at h
  simp only [Bool.or_eq_true, Bool.and_eq_true, decide_eq_true_eq, beq_iff_eq, ge_iff_le,
    UInt32.le_iff_toNat_le, Char.toNat_val, Char.reduceToNat] at h
  obtain ((h | h) | h) | rfl := h
  · omega
  · omega
  · omega
  · decide

/-- Every character of an identifier continues one. -/
theorem all_isNamePart_of_isIdentifier {s : String} (h : isIdentifier s) :
    s.toList.all isNamePart := by
  unfold isIdentifier at h
  split at h
  · simp at h
  · next c cs hs =>
    simp only [Bool.and_eq_true] at h
    simp [hs, isNamePart_of_isNameStart h.1, h.2]

/-- A character that does not continue an identifier is in none. -/
theorem notMem_of_isIdentifier {s : String} (h : isIdentifier s) {c : Char}
    (hc : isNamePart c = false) : c ∉ s.toList := by
  intro hmem
  have hpart := List.all_eq_true.1 (all_isNamePart_of_isIdentifier h) c hmem
  rw [hc] at hpart
  contradiction

end ShaderInterface.Text
