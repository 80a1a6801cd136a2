import ShaderInterface.Proofs.Qualifiers
import ShaderInterface.Text.Numeral

/-!
# Numerals and their values

A numeral is a non-empty run of digits, and its value is what the digits say, however many zeros
lead it (`Text.IsNumeral`). Main statement: `Text.readNumeral_eq_some_iff`, by which exactly the
numerals of a value within the bound are read.
-/

namespace ShaderInterface.Text

/-- The text is a run of digits that has the given value. -/
structure IsNumeral (cs : List Char) (n : Nat) : Prop where
  ne_nil : cs ≠ []
  isDigit : ∀ c ∈ cs, c.isDigit
  value : Nat.ofDigitChars 10 cs 0 = n

/-- The value only grows from digit to digit. -/
theorem le_ofDigitChars (cs : List Char) (n : Nat) : n ≤ Nat.ofDigitChars 10 cs n := by
  induction cs generalizing n with
  | nil => exact Nat.le_refl n
  | cons c cs ih =>
    rw [Nat.ofDigitChars_cons]
    have hrest := ih (10 * n + (c.toNat - '0'.toNat))
    omega

/-- Digits are read if the value behind them is within the bound, since then it is so all along. -/
theorem readDigits_eq_some_iff {max n v : Nat} {cs : List Char} (hn : n ≤ max) :
    readDigits max n cs = some v ↔
      (∀ c ∈ cs, c.isDigit) ∧ Nat.ofDigitChars 10 cs n = v ∧ v ≤ max := by
  induction cs generalizing n with
  | nil =>
    rw [readDigits, Option.some.injEq, and_iff_right (List.forall_mem_nil _)]
    constructor
    · rintro rfl
      exact ⟨rfl, hn⟩
    · exact fun h => h.1
  | cons c cs ih =>
    rw [Nat.ofDigitChars_cons, List.forall_mem_cons, readDigits]
    have hgrows := le_ofDigitChars cs (10 * n + (c.toNat - '0'.toNat))
    by_cases hc : c.isDigit
    · by_cases hm : 10 * n + (c.toNat - '0'.toNat) ≤ max
      · simp only [hc, hm, ih hm, true_and, decide_true, Bool.and_self, if_true]
      · simp only [hm, decide_false, Bool.and_false, Bool.false_eq_true, if_false]
        refine iff_of_false (by simp) ?_
        rintro ⟨-, hv, hmax⟩
        omega
    · simp [hc]

/-- A numeral is read if it is a run of digits of a value within the bound. -/
theorem readNumeral_eq_some_iff {max n : Nat} {cs : List Char} :
    readNumeral max cs = some n ↔ IsNumeral cs n ∧ n ≤ max := by
  unfold readNumeral
  cases cs with
  | nil =>
    refine iff_of_false (by simp) ?_
    rintro ⟨h, -⟩
    exact h.ne_nil rfl
  | cons c cs =>
    rw [List.isEmpty_cons, if_neg Bool.false_ne_true, readDigits_eq_some_iff (Nat.zero_le max)]
    constructor
    · rintro ⟨hdigits, hvalue, hmax⟩
      exact ⟨⟨List.cons_ne_nil c cs, hdigits, hvalue⟩, hmax⟩
    · rintro ⟨⟨-, hdigits, hvalue⟩, hmax⟩
      exact ⟨hdigits, hvalue, hmax⟩

/-- A number is written as a numeral. -/
theorem isNumeral_toString (n : Nat) : IsNumeral (toString n).toList n := by
  constructor
  case ne_nil =>
    rw [Nat.toString_eq_repr, Nat.toList_repr]
    exact Nat.toDigits_ne_nil
  case isDigit => exact fun _ => isDigit_of_mem_toString
  case value => rw [Nat.toString_eq_repr, Nat.toList_repr, Nat.ofDigitChars_ten_toDigits]

end ShaderInterface.Text
