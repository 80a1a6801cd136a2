import Mathlib.Data.List.Chain
import Mathlib.Data.List.TakeWhile
import ShaderInterface.Text.Neighbours

/-!
# Where a stretch of text ends

Text is read in stretches that run as far as they can. A stretch is known by what it holds and by
what stands behind it: `takeWhile_append_eq` says so where each character is looked at alone, and
`spanNeighbours_append_eq` where two neighbours are looked at together.
-/

namespace ShaderInterface.Text

variable {α : Type} {p : α → Bool} {r : α → α → Bool} {xs ys : List α}

/-! ## Single characters -/

/-- A stretch of characters with a property ends in front of the first without it. -/
theorem takeWhile_append_eq (hxs : ∀ x ∈ xs, p x) (hys : ∀ y ∈ ys.head?, ¬ p y) :
    (xs ++ ys).takeWhile p = xs := by
  rw [List.takeWhile_append_of_pos hxs]
  cases ys with
  | nil => exact List.append_nil xs
  | cons y ys =>
    have hy : ¬ p y := hys y rfl
    rw [List.takeWhile_cons_of_neg hy, List.append_nil]

/-- Behind a stretch of characters with a property stands the first without it. -/
theorem dropWhile_append_eq (hxs : ∀ x ∈ xs, p x) (hys : ∀ y ∈ ys.head?, ¬ p y) :
    (xs ++ ys).dropWhile p = ys := by
  rw [List.dropWhile_append_of_pos hxs]
  cases ys with
  | nil => rfl
  | cons y ys =>
    have hy : ¬ p y := hys y rfl
    rw [List.dropWhile_cons_of_neg hy]

/-- The first character that is left does not have the property. -/
theorem not_of_mem_head?_dropWhile {y : α} (h : y ∈ (xs.dropWhile p).head?) : ¬ p y := by
  have hhead := List.head?_dropWhile_not p xs
  rw [Option.mem_def.1 h] at hhead
  exact Bool.eq_false_iff.1 hhead

/-! ## Neighbours -/

/-- A stretch of related neighbours ends in front of the first that are not related. -/
theorem spanNeighbours_append_eq {b : α} (hxs : (b :: xs).IsChain (r · ·))
    (hys : ∀ y ∈ ys.head?, ∀ x ∈ (b :: xs).getLast?, ¬ r x y) :
    spanNeighbours r b (xs ++ ys) = (xs, ys) := by
  induction xs generalizing b with
  | nil =>
    cases ys with
    | nil => rfl
    | cons y ys =>
      have hy : ¬ r b y := hys y rfl b rfl
      exact spanNeighbours_cons_neg hy ys
  | cons x xs ih =>
    obtain ⟨hx, hxs⟩ := List.isChain_cons_cons.1 hxs
    rw [List.cons_append, spanNeighbours_cons_pos hx]
    rw [List.getLast?_cons_cons] at hys
    rw [ih hxs hys]

/-- The neighbours of the first part are related. -/
theorem isChain_spanNeighbours (r : α → α → Bool) (b : α) (xs : List α) :
    (b :: (spanNeighbours r b xs).1).IsChain (r · ·) := by
  induction xs generalizing b with
  | nil => exact List.isChain_singleton b
  | cons x xs ih =>
    by_cases h : r b x
    · rw [spanNeighbours_cons_pos h]
      exact List.isChain_cons_cons.2 ⟨h, ih x⟩
    · rw [spanNeighbours_cons_neg h]
      exact List.isChain_singleton b

/-- The two parts meet where two neighbours are not related. -/
theorem not_rel_spanNeighbours (r : α → α → Bool) (b : α) (xs : List α) :
    ∀ y ∈ (spanNeighbours r b xs).2.head?,
      ∀ x ∈ (b :: (spanNeighbours r b xs).1).getLast?, ¬ r x y := by
  induction xs generalizing b with
  | nil => nofun
  | cons x xs ih =>
    by_cases h : r b x
    · rw [spanNeighbours_cons_pos h, List.getLast?_cons_cons]
      exact ih x
    · rw [spanNeighbours_cons_neg h]
      intro y hy z hz
      obtain rfl := Option.mem_some.1 hy
      obtain rfl := Option.mem_some.1 hz
      exact h

end ShaderInterface.Text
