/-!
# Bounded decimal numerals

A numeral is a non-empty run of ASCII digits, leading zeros allowed. It is read up to a bound: the
value only grows from digit to digit, so reading stops at the first digit that takes it past the
bound.
-/

namespace ShaderInterface.Text

/-- The value of `cs` read as further digits behind a number of value `n`, while it is at most
`max`. -/
def readDigits (max n : Nat) : List Char → Option Nat
  | [] => some n
  | c :: cs =>
    let m := 10 * n + (c.toNat - '0'.toNat)
    if c.isDigit && m ≤ max then readDigits max m cs else none

/-- The value of a non-empty run of ASCII digits, if it is at most `max`. -/
def readNumeral (max : Nat) (cs : List Char) : Option Nat :=
  if cs.isEmpty then none else readDigits max 0 cs

/-- A value that was read is within the bound. -/
theorem readDigits_le {max n v : Nat} {cs : List Char} (hn : n ≤ max)
    (h : readDigits max n cs = some v) : v ≤ max := by
  induction cs generalizing n with
  | nil =>
    simp only [readDigits, Option.some.injEq] at h
    exact h ▸ hn
  | cons c cs ih =>
    simp only [readDigits] at h
    split at h
    · next hc =>
      simp only [Bool.and_eq_true, decide_eq_true_eq] at hc
      exact ih hc.2 h
    · simp at h

/-- A numeral that was read is within the bound. -/
theorem readNumeral_le {max v : Nat} {cs : List Char} (h : readNumeral max cs = some v) :
    v ≤ max := by
  unfold readNumeral at h
  split at h
  · simp at h
  · exact readDigits_le (Nat.zero_le max) h

end ShaderInterface.Text
