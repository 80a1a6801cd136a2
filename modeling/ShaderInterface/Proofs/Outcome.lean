import Mathlib.Control.Monad.Basic
import Mathlib.Data.List.Forall2

/-!
# Outcomes of steps in a row

When a computation made of steps that can fail succeeds, read off from its steps.
-/

namespace ShaderInterface.Outcome

variable {ε α β : Type}

section

variable {x : Except ε α} {b : β}

/-- Two steps in a row succeed if the first succeeds and the second does with its result. -/
theorem bind_eq_ok_iff {f : α → Except ε β} : x >>= f = .ok b ↔ ∃ a, x = .ok a ∧ f a = .ok b := by
  cases x with
  | error e => simp [bind, Except.bind]
  | ok a => simp [bind, Except.bind]

/-- A result is changed only if there is one. -/
theorem map_eq_ok_iff {f : α → β} : x.map f = .ok b ↔ ∃ a, x = .ok a ∧ f a = b := by
  cases x with
  | error e => simp [Except.map]
  | ok a => simp [Except.map]

/-- Two outcomes are changed to the same if they have the same cause, or results that are. -/
theorem map_eq_map_iff {f : α → β} {y : Except ε α} :
    x.map f = y.map f ↔
      (∃ e, x = .error e ∧ y = .error e) ∨ ∃ a a', x = .ok a ∧ y = .ok a' ∧ f a = f a' := by
  cases x with
  | error e => cases y <;> simp [Except.map, eq_comm]
  | ok a => cases y <;> simp [Except.map]

end

/-! ## The same step for all elements of a list -/

variable {f : α → Except ε β}

/-- A step for each element succeeds with the results of the single steps. -/
theorem mapM_eq_ok_iff {xs : List α} {ys : List β} :
    xs.mapM f = .ok ys ↔ List.Forall₂ (fun x y => f x = .ok y) xs ys := by
  induction xs generalizing ys with
  | nil =>
    show Except.ok [] = .ok ys ↔ _
    rw [List.forall₂_nil_left_iff, Except.ok.injEq, eq_comm]
  | cons x xs ih =>
    simp only [List.mapM_cons, bind_eq_ok_iff, List.forall₂_cons_left_iff, ih]
    constructor
    · rintro ⟨y, hy, ys', hys, h⟩
      exact ⟨y, ys', hy, hys, (Except.ok.inj h).symm⟩
    · rintro ⟨y, ys', hy, hys, rfl⟩
      exact ⟨y, hy, ys', hys, rfl⟩

/-- A step for each element succeeds if it does for every single one. -/
theorem exists_mapM_eq_ok_iff {xs : List α} :
    (∃ ys, xs.mapM f = .ok ys) ↔ ∀ x ∈ xs, ∃ y, f x = .ok y := by
  induction xs with
  | nil => exact iff_of_true ⟨[], rfl⟩ nofun
  | cons x xs ih =>
    simp only [List.mapM_cons, bind_eq_ok_iff, List.forall_mem_cons, ← ih]
    constructor
    · rintro ⟨-, y, hy, ys, hys, -⟩
      exact ⟨⟨y, hy⟩, ys, hys⟩
    · rintro ⟨⟨y, hy⟩, ys, hys⟩
      exact ⟨y :: ys, y, hy, ys, hys, rfl⟩

/-- The results of a step for each element are those of the single steps. -/
theorem mem_iff_of_mapM_eq_ok {xs : List α} {ys : List β} (h : xs.mapM f = .ok ys) {y : β} :
    y ∈ ys ↔ ∃ x ∈ xs, f x = .ok y := by
  induction mapM_eq_ok_iff.1 h with
  | nil => exact iff_of_false List.not_mem_nil nofun
  | cons hxy hrest ih =>
    rw [List.mem_cons, List.exists_mem_cons_iff, ih (mapM_eq_ok_iff.2 hrest), hxy, Except.ok.injEq,
      eq_comm]

/-- In whatever order the elements come, each has the same result. -/
theorem exists_mapM_of_perm {xs xs' : List α} {ys : List β} (hperm : xs.Perm xs')
    (h : xs.mapM f = .ok ys) : ∃ ys', xs'.mapM f = .ok ys' ∧ (xs.zip ys).Perm (xs'.zip ys') := by
  simp only [mapM_eq_ok_iff] at h ⊢
  induction hperm generalizing ys with
  | nil => exact ⟨ys, h, .rfl⟩
  | cons x _ ih =>
    obtain ⟨y, ys, hy, hys, rfl⟩ := List.forall₂_cons_left_iff.1 h
    obtain ⟨ys', hys', hzip⟩ := ih hys
    exact ⟨y :: ys', .cons hy hys', hzip.cons (x, y)⟩
  | swap x x' xs =>
    obtain ⟨y', rest, hy', hrest, rfl⟩ := List.forall₂_cons_left_iff.1 h
    obtain ⟨y, ys, hy, hys, rfl⟩ := List.forall₂_cons_left_iff.1 hrest
    exact ⟨y :: y' :: ys, .cons hy (.cons hy' hys), .swap (x, y) (x', y') (xs.zip ys)⟩
  | trans _ _ ih ih' =>
    obtain ⟨ys', hys', hzip⟩ := ih h
    obtain ⟨ys'', hys'', hzip'⟩ := ih' hys'
    exact ⟨ys'', hys'', hzip.trans hzip'⟩

/-! ## Steps that change a state -/

/-- Steps in a row succeed if each fits the state at the beginning and no step keeps a later one
from fitting: a step succeeds where it fits, and behind it fit those that fitted before and are
apart from it. -/
theorem exists_foldlM_eq_ok_iff {σ : Type} {step : σ → α → Except ε σ} {fits : σ → α → Prop}
    {apart : α → α → Prop} (hfits : ∀ s x, (∃ s', step s x = .ok s') ↔ fits s x)
    (hapart : ∀ s x s', step s x = .ok s' → ∀ y, fits s' y ↔ fits s y ∧ apart x y)
    (xs : List α) (s : σ) :
    (∃ s', xs.foldlM step s = .ok s') ↔ (∀ x ∈ xs, fits s x) ∧ xs.Pairwise apart := by
  induction xs generalizing s with
  | nil => exact iff_of_true ⟨s, rfl⟩ ⟨nofun, .nil⟩
  | cons x xs ih =>
    simp only [List.foldlM_cons, bind_eq_ok_iff, List.forall_mem_cons, List.pairwise_cons]
    constructor
    · rintro ⟨out, s', hx, hout⟩
      obtain ⟨hxs, hpairs⟩ := (ih _).1 ⟨out, hout⟩
      exact ⟨⟨(hfits s x).1 ⟨s', hx⟩, fun y hy => ((hapart s x s' hx y).1 (hxs y hy)).1⟩,
        fun y hy => ((hapart s x s' hx y).1 (hxs y hy)).2, hpairs⟩
    · rintro ⟨⟨hx, hxs⟩, happart, hpairs⟩
      obtain ⟨s', hx⟩ := (hfits s x).2 hx
      obtain ⟨out, hout⟩ := (ih s').2
        ⟨fun y hy => (hapart s x s' hx y).2 ⟨hxs y hy, happart y hy⟩, hpairs⟩
      exact ⟨out, s', hx, hout⟩

/-- What every step keeps, steps in a row keep. -/
theorem invariant_of_foldlM_eq_ok {σ : Type} {step : σ → α → Except ε σ} {invariant : σ → Prop}
    (hstep : ∀ s x s', invariant s → step s x = .ok s' → invariant s') {xs : List α} {s s' : σ}
    (hs : invariant s) (h : xs.foldlM step s = .ok s') : invariant s' := by
  induction xs generalizing s with
  | nil =>
    obtain rfl := Except.ok.inj h
    exact hs
  | cons x xs ih =>
    rw [List.foldlM_cons, bind_eq_ok_iff] at h
    obtain ⟨between, hx, hxs⟩ := h
    exact ih (hstep s x between hs hx) hxs

/-! ## Where steps fail -/

/-- Two steps in a row fail if the first fails or the second does with its result. -/
theorem bind_eq_error_iff {x : Except ε α} {cause : ε} :
    x >>= f = .error cause ↔ x = .error cause ∨ ∃ a, x = .ok a ∧ f a = .error cause := by
  cases x with
  | error e => simp [bind, Except.bind]
  | ok a => simp [bind, Except.bind]

/-- A change of the result does not fail. -/
theorem map_eq_error_iff {x : Except ε α} {g : α → β} {cause : ε} :
    x.map g = .error cause ↔ x = .error cause := by
  cases x with
  | error e => simp [Except.map]
  | ok a => simp [Except.map]

/-- A step for each element fails with the first element for which the step fails. -/
theorem mapM_eq_error_iff {xs : List α} {cause : ε} :
    xs.mapM f = .error cause ↔ ∃ front x behind, xs = front ++ x :: behind ∧
      (∀ y ∈ front, ∃ b, f y = .ok b) ∧ f x = .error cause := by
  induction xs with
  | nil => exact iff_of_false (fun h => by contradiction) (by simp)
  | cons x xs ih =>
    rw [List.mapM_cons, bind_eq_error_iff]
    constructor
    · rintro (hx | ⟨y, hy, h⟩)
      · exact ⟨[], x, xs, rfl, List.forall_mem_nil _, hx⟩
      · rcases bind_eq_error_iff.1 h with hxs | ⟨ys, -, hpure⟩
        · obtain ⟨front, z, behind, rfl, hfront, hz⟩ := ih.1 hxs
          exact ⟨x :: front, z, behind, rfl, List.forall_mem_cons.2 ⟨⟨y, hy⟩, hfront⟩, hz⟩
        · contradiction
    · rintro ⟨_ | ⟨w, front⟩, z, behind, heq, hfront, hz⟩
      · obtain ⟨rfl, rfl⟩ := List.cons.inj heq
        exact .inl hz
      · obtain ⟨rfl, rfl⟩ := List.cons.inj heq
        obtain ⟨⟨y, hy⟩, hfront⟩ := List.forall_mem_cons.1 hfront
        exact .inr ⟨y, hy, bind_eq_error_iff.2 (.inl (ih.2 ⟨front, z, behind, rfl, hfront, hz⟩))⟩

/-- Steps that change a state fail at one, behind those in front of it that do not. -/
theorem exists_of_foldlM_eq_error {σ : Type} {step : σ → α → Except ε σ} {xs : List α} {s : σ}
    {cause : ε} (h : xs.foldlM step s = .error cause) :
    ∃ front x behind s', xs = front ++ x :: behind ∧ front.foldlM step s = .ok s' ∧
      step s' x = .error cause := by
  induction xs generalizing s with
  | nil => contradiction
  | cons x xs ih =>
    rw [List.foldlM_cons, bind_eq_error_iff] at h
    rcases h with hx | ⟨t, ht, h⟩
    · exact ⟨[], x, xs, s, rfl, rfl, hx⟩
    · obtain ⟨front, y, behind, s', rfl, hfront, hy⟩ := ih h
      refine ⟨x :: front, y, behind, s', rfl, ?_, hy⟩
      rw [List.foldlM_cons, ht]
      exact hfront

/-- Steps that change a state fail exactly so. -/
theorem foldlM_eq_error_iff {σ : Type} {step : σ → α → Except ε σ} {xs : List α} {s : σ}
    {cause : ε} :
    xs.foldlM step s = .error cause ↔ ∃ front x behind s', xs = front ++ x :: behind ∧
      front.foldlM step s = .ok s' ∧ step s' x = .error cause := by
  refine ⟨exists_of_foldlM_eq_error, ?_⟩
  rintro ⟨front, x, behind, s', rfl, hfront, hx⟩
  have hbehind : (x :: behind).foldlM step s' = .error cause := by
    rw [List.foldlM_cons]
    exact bind_eq_error_iff.2 (.inl hx)
  rw [List.foldlM_append]
  exact bind_eq_error_iff.2 (.inr ⟨s', hfront, hbehind⟩)

/-! ## Results and causes that are changed alike -/

section

variable {ε ε' α α' β β' : Type} {e : ε → ε'}

/-- The outcome with its result or its cause changed. -/
def bimap (g : α → α') (e : ε → ε') : Except ε α → Except ε' α'
  | .ok a => .ok (g a)
  | .error cause => .error (e cause)

/-- Two steps in a row change alike if both do. -/
theorem bind_bimap {g : α → α'} {g' : β → β'} {f : α → Except ε β} {f' : α' → Except ε' β'}
    (h : ∀ a, f' (g a) = bimap g' e (f a)) (x : Except ε α) :
    bimap g e x >>= f' = bimap g' e (x >>= f) := by
  cases x with
  | error cause => rfl
  | ok a => exact h a

/-- A step for each element changes alike if it does for single elements. -/
theorem mapM_bimap {k : α → α'} {g : β → β'} {f : α → Except ε β} {f' : α' → Except ε' β'}
    (h : ∀ a, f' (k a) = bimap g e (f a)) (xs : List α) :
    (xs.map k).mapM f' = bimap (List.map g) e (xs.mapM f) := by
  induction xs with
  | nil => rfl
  | cons x xs ih =>
    rw [List.map_cons, List.mapM_cons, List.mapM_cons, h, ih]
    refine bind_bimap (fun y => ?_) (f x)
    cases xs.mapM f with
    | error cause => rfl
    | ok ys => rfl

/-- Steps that change a state change alike if single steps do. -/
theorem foldlM_bimap {σ σ' : Type} {k : α → α'} {g : σ → σ'} {step : σ → α → Except ε σ}
    {step' : σ' → α' → Except ε' σ'} (h : ∀ s a, step' (g s) (k a) = bimap g e (step s a))
    (xs : List α) (s : σ) :
    (xs.map k).foldlM step' (g s) = bimap g e (xs.foldlM step s) := by
  induction xs generalizing s with
  | nil => rfl
  | cons x xs ih =>
    rw [List.map_cons, List.foldlM_cons, List.foldlM_cons, h]
    exact bind_bimap ih (step s x)

end

end ShaderInterface.Outcome
