/-!
# Cutting a list between two neighbours

`spanNeighbours r b xs` cuts `xs` in front of its first element whose left neighbour does not
relate to it by `r`; the left neighbour of the first element is `b`. With it one reads text whose
end shows only in two characters together, such as a comment that ends in `*/`. Main statement:
the two parts make up the whole.
-/

namespace ShaderInterface.Text

variable {α : Type}

/-- Continues a cut after the elements of `taken`, which stand in reverse order. -/
def spanNeighboursFrom (r : α → α → Bool) (taken : List α) (b : α) : List α → List α × List α
  | [] => (taken.reverse, [])
  | x :: xs => if r b x then spanNeighboursFrom r (x :: taken) x xs else (taken.reverse, x :: xs)

/-- Cuts in front of the first element that `r` does not relate to its left neighbour. -/
def spanNeighbours (r : α → α → Bool) (b : α) (xs : List α) : List α × List α :=
  spanNeighboursFrom r [] b xs

/-- What was taken before stands in front of the first part. -/
theorem spanNeighboursFrom_eq (r : α → α → Bool) (taken : List α) (b : α) (xs : List α) :
    spanNeighboursFrom r taken b xs =
      (taken.reverse ++ (spanNeighbours r b xs).1, (spanNeighbours r b xs).2) := by
  induction xs generalizing taken b with
  | nil => simp [spanNeighbours, spanNeighboursFrom]
  | cons x xs ih =>
    unfold spanNeighbours spanNeighboursFrom
    split
    · rw [ih, ih [x]]
      simp
    · simp

/-- Nothing is cut in an empty list. -/
@[simp]
theorem spanNeighbours_nil (r : α → α → Bool) (b : α) : spanNeighbours r b [] = ([], []) := rfl

/-- An element that relates to its left neighbour is taken, and becomes the left neighbour. -/
theorem spanNeighbours_cons_pos {r : α → α → Bool} {b x : α} (h : r b x) (xs : List α) :
    spanNeighbours r b (x :: xs) =
      (x :: (spanNeighbours r x xs).1, (spanNeighbours r x xs).2) := by
  rw [spanNeighbours, spanNeighboursFrom, if_pos h, spanNeighboursFrom_eq]
  simp

/-- An element that does not relate to its left neighbour begins the second part. -/
theorem spanNeighbours_cons_neg {r : α → α → Bool} {b x : α} (h : ¬ r b x) (xs : List α) :
    spanNeighbours r b (x :: xs) = ([], x :: xs) := by
  rw [spanNeighbours, spanNeighboursFrom, if_neg h]
  simp

/-- The two parts of a cut make up the whole. -/
theorem spanNeighbours_append (r : α → α → Bool) (b : α) (xs : List α) :
    (spanNeighbours r b xs).1 ++ (spanNeighbours r b xs).2 = xs := by
  induction xs generalizing b with
  | nil => rfl
  | cons x xs ih =>
    by_cases h : r b x
    · simp [spanNeighbours_cons_pos h, ih]
    · simp [spanNeighbours_cons_neg h]

end ShaderInterface.Text
