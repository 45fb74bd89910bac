import Mathlib.Tactic

namespace CsoLabs.Foundation.Inversions

variable {α : Type*} {xs : List α}

theorem length_lt_two (h : ∀ x y ys, xs = x :: y :: ys → False) : xs.length < 2 := by
  match xs, h with
  | [], _ => exact Nat.zero_lt_two
  | [x], _ => exact Nat.one_lt_two
  | x :: y :: ys, h => exact absurd rfl (h x y ys)

variable [LinearOrder α]

def inversions : List α → ℕ
  | [] => 0
  | x :: xs => xs.countP (· < x) + inversions xs

def descents : List α → ℕ
  | x :: y :: xs => (if y < x then 1 else 0) + descents (y :: xs)
  | _ => 0

def bubble : List α → List α
  | x :: y :: xs => if y < x then y :: bubble (x :: xs) else x :: bubble (y :: xs)
  | xs => xs

theorem bubble_perm (xs : List α) : (bubble xs).Perm xs := by
  induction xs using bubble.induct with
  | case1 x y xs hlt ih =>
    rw [bubble, if_pos hlt]
    exact (ih.cons y).trans (.swap x y xs)
  | case2 x y xs hlt ih =>
    rw [bubble, if_neg hlt]
    exact ih.cons x
  | case3 xs h => rw [bubble]; exact h

theorem length_bubble (xs : List α) : (bubble xs).length = xs.length := (bubble_perm xs).length_eq

theorem inversions_swap {x y : α} (hlt : y < x) :
    inversions (x :: y :: xs) = inversions (y :: x :: xs) + 1 := by
  simp only [inversions, List.countP_cons, decide_eq_true hlt, decide_eq_false hlt.asymm, if_true,
    Bool.false_eq_true, if_false]
  omega

theorem inversions_bubble_le (xs : List α) : inversions (bubble xs) ≤ inversions xs := by
  induction xs using bubble.induct with
  | case1 x y xs hlt ih =>
    rw [bubble, if_pos hlt, inversions_swap hlt, inversions, (bubble_perm (x :: xs)).countP_eq,
      inversions.eq_2 y]
    omega
  | case2 x y xs hlt ih =>
    rw [bubble, if_neg hlt, inversions, (bubble_perm (y :: xs)).countP_eq, inversions.eq_2 x]
    omega
  | case3 xs h => rw [bubble]; exact h

/-- A pass over a list that is not yet in order takes away an inversion. -/
theorem inversions_bubble_lt (hxs : descents xs ≠ 0) : inversions (bubble xs) < inversions xs := by
  induction xs using bubble.induct with
  | case1 x y xs hlt ih =>
    have hle := inversions_bubble_le (x :: xs)
    rw [bubble, if_pos hlt, inversions_swap hlt, inversions, (bubble_perm (x :: xs)).countP_eq,
      inversions.eq_2 y]
    omega
  | case2 x y xs hlt ih =>
    rw [descents, if_neg hlt, Nat.zero_add] at hxs
    have hrec := ih hxs
    rw [bubble, if_neg hlt, inversions, (bubble_perm (y :: xs)).countP_eq, inversions.eq_2 x]
    omega
  | case3 xs h => exact absurd (descents.eq_2 xs h) hxs

theorem pairwise_of_descents_eq_zero (h : descents xs = 0) : xs.Pairwise (· ≤ ·) := by
  rw [← List.isChain_iff_pairwise]
  induction xs using descents.induct with
  | case1 x y xs ih =>
    rw [descents] at h
    have hle : ¬ y < x := fun hlt ↦ by rw [if_pos hlt] at h; omega
    exact .cons_cons (not_lt.mp hle) (ih (by omega))
  | case2 xs hshort =>
    have hlen := length_lt_two hshort
    match xs, hlen with
    | [], _ => exact .nil
    | [x], _ => exact .singleton x

theorem bubble_eq_self (h : descents xs = 0) : bubble xs = xs := by
  induction xs using bubble.induct with
  | case1 x y xs hlt ih =>
    rw [descents, if_pos hlt] at h
    omega
  | case2 x y xs hlt ih =>
    rw [descents, if_neg hlt, Nat.zero_add] at h
    rw [bubble, if_neg hlt, ih h]
  | case3 xs h' => rw [bubble]; exact h'

end CsoLabs.Foundation.Inversions
