/-!
# Rounding up to a multiple

Every offset and size in a uniform buffer is rounded up to a multiple of an alignment.
`roundUp_le_iff` says that the result is the least multiple that is large enough.
-/

namespace ShaderInterface

/-- The least multiple of `align` that is not below `n`. -/
def roundUp (n align : Nat) : Nat :=
  (n + align - 1) / align * align

/-- The result is a multiple. -/
theorem dvd_roundUp (n align : Nat) : align ∣ roundUp n align :=
  ⟨(n + align - 1) / align, Nat.mul_comm _ _⟩

/-- The result is large enough. -/
theorem le_roundUp {align : Nat} (h : 0 < align) (n : Nat) : n ≤ roundUp n align := by
  have hdiv := Nat.div_add_mod (n + align - 1) align
  have hmod := Nat.mod_lt (n + align - 1) h
  rw [roundUp, Nat.mul_comm]
  omega

/-- The result is below every multiple that is not below `n`. -/
theorem roundUp_le_iff {align m : Nat} (h : 0 < align) (hm : align ∣ m) (n : Nat) :
    roundUp n align ≤ m ↔ n ≤ m := by
  refine ⟨fun hle => Nat.le_trans (le_roundUp h n) hle, fun hle => ?_⟩
  obtain ⟨k, rfl⟩ := hm
  rw [roundUp, Nat.mul_comm]
  refine Nat.mul_le_mul_left align (Nat.le_of_lt_succ ((Nat.div_lt_iff_lt_mul h).2 ?_))
  rw [Nat.succ_mul, Nat.mul_comm k align]
  omega

end ShaderInterface
