import Mathlib.Algebra.BigOperators.Group.List.Basic
import Mathlib.Algebra.Order.Ring.Int

/-!
# Shedding from the front of a list

Weighted items are taken off the front of a list until what is left weighs no more than a
bound. `shed` is what goes and `kept` what stays.
-/

namespace ProtonDrive.Shedding

variable {α : Type} (size : α → ℤ) (bound : ℤ)

def weight (xs : List α) : ℤ := (xs.map size).sum

def shed : List α → List α
  | [] => []
  | x :: xs => if weight size (x :: xs) ≤ bound then [] else x :: shed xs

def kept : List α → List α
  | [] => []
  | x :: xs => if weight size (x :: xs) ≤ bound then x :: xs else kept xs

@[simp] theorem weight_cons (x : α) (xs : List α) :
    weight size (x :: xs) = size x + weight size xs := by simp [weight]

theorem weight_perm {xs ys : List α} (h : xs.Perm ys) : weight size xs = weight size ys :=
  (h.map size).sum_eq

theorem shed_append_kept (xs : List α) : shed size bound xs ++ kept size bound xs = xs := by
  induction xs with
  | nil => rfl
  | cons x xs ih =>
    simp only [shed, kept]
    split_ifs with h
    · rfl
    · rw [List.cons_append, ih]

theorem weight_kept_le (hb : 0 ≤ bound) (xs : List α) :
    weight size (kept size bound xs) ≤ bound := by
  induction xs with
  | nil => simpa [kept, weight] using hb
  | cons x xs ih =>
    simp only [kept]
    split_ifs with h
    · exact h
    · exact ih

/-- The last item to go had to: with it the rest was too heavy. -/
theorem lt_of_shed_concat {xs zs : List α} {x : α} (h : shed size bound xs = zs ++ [x]) :
    bound < size x + weight size (kept size bound xs) := by
  induction xs generalizing zs with
  | nil => simp [shed] at h
  | cons y xs ih =>
    simp only [shed, kept] at h ⊢
    split_ifs at h ⊢ with hy
    · simp at h
    · cases zs with
      | cons z zs => exact ih (List.cons.inj h).2
      | nil =>
        obtain ⟨rfl, hnil⟩ := List.cons.inj h
        have hk : kept size bound xs = xs := by
          simpa [hnil] using shed_append_kept size bound xs
        rw [hk, ← weight_cons]
        exact lt_of_not_ge hy

/-- What goes from a sorted list comes before what stays. -/
theorem rel_shed_kept {R : α → α → Prop} {xs : List α} (h : xs.Pairwise R) {a b : α}
    (ha : a ∈ shed size bound xs) (hb : b ∈ kept size bound xs) : R a b := by
  rw [← shed_append_kept size bound xs] at h
  exact (List.pairwise_append.mp h).2.2 a ha b hb

end ProtonDrive.Shedding
