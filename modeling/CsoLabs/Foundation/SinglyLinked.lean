import Mathlib.Tactic

namespace CsoLabs.Foundation

variable {α : Type*}

/-- `xs` are the nodes from `p` to the end of a null-terminated singly linked list. -/
def Chain (next : α → Option α) (null : α) : α → List α → Prop
  | p, [] => p = null
  | p, x :: xs => p = x ∧ x ≠ null ∧ ∃ q, next x = some q ∧ Chain next null q xs

namespace Chain

variable {next next' : α → Option α} {null p q x y : α} {xs ys : List α}

theorem congr (h : Chain next null p xs) (hn : ∀ x ∈ xs, next' x = next x) :
    Chain next' null p xs := by
  induction xs generalizing p with
  | nil => exact h
  | cons x xs ih =>
    obtain ⟨rfl, hx, q, hq, hxs⟩ := h
    exact ⟨rfl, hx, q, (hn p (by simp)).trans hq, ih hxs fun y hy ↦ hn y (by simp [hy])⟩

theorem ne_null (h : Chain next null p xs) (hx : x ∈ xs) : x ≠ null := by
  induction xs generalizing p with
  | nil => simp at hx
  | cons y xs ih =>
    obtain ⟨rfl, hy, q, -, hxs⟩ := h
    rcases List.mem_cons.mp hx with rfl | hx
    · exact hy
    · exact ih hxs hx

theorem unique (h : Chain next null p xs) (h' : Chain next null p ys) : xs = ys := by
  induction xs generalizing p ys with
  | nil =>
    cases ys with
    | nil => rfl
    | cons y ys => exact absurd (h'.1.symm.trans h) h'.2.1
  | cons x xs ih =>
    obtain ⟨rfl, hx, q, hq, hxs⟩ := h
    cases ys with
    | nil => exact absurd h' hx
    | cons y ys =>
      obtain ⟨rfl, -, q', hq', hys⟩ := h'
      obtain rfl : q = q' := Option.some.inj (hq.symm.trans hq')
      rw [ih hxs hys]

theorem tail_of_mem (h : Chain next null p xs) (hx : x ∈ xs) :
    ∃ l r, xs = l ++ x :: r ∧ Chain next null x (x :: r) := by
  induction xs generalizing p with
  | nil => simp at hx
  | cons y xs ih =>
    obtain ⟨rfl, hy, q, hq, hxs⟩ := h
    rcases List.mem_cons.mp hx with rfl | hx
    · exact ⟨[], xs, rfl, rfl, hy, q, hq, hxs⟩
    · obtain ⟨l, r, rfl, hr⟩ := ih hxs hx
      exact ⟨p :: l, r, rfl, hr⟩

theorem nodup (h : Chain next null p xs) : xs.Nodup := by
  induction xs generalizing p with
  | nil => exact List.nodup_nil
  | cons x xs ih =>
    obtain ⟨rfl, hx, q, hq, hxs⟩ := h
    refine List.nodup_cons.mpr ⟨fun hp ↦ ?_, ih hxs⟩
    obtain ⟨l, r, rfl, hr⟩ := hxs.tail_of_mem hp
    have hall : Chain next null p (p :: (l ++ p :: r)) := ⟨rfl, hx, q, hq, hxs⟩
    have := congrArg List.length (hr.unique hall)
    simp only [List.length_cons, List.length_append] at this
    omega

theorem concat (h : Chain next null p (xs ++ [x])) (hy : y ≠ null)
    (hn : ∀ z ∈ xs, next' z = next z) (hx : next' x = some y) (hy' : next' y = some null) :
    Chain next' null p (xs ++ [x] ++ [y]) := by
  induction xs generalizing p with
  | nil =>
    obtain ⟨rfl, hp, -⟩ := h
    exact ⟨rfl, hp, y, hx, rfl, hy, null, hy', rfl⟩
  | cons z xs ih =>
    obtain ⟨rfl, hp, q, hq, hxs⟩ := h
    exact ⟨rfl, hp, q, (hn p (by simp)).trans hq, ih hxs fun w hw ↦ hn w (by simp [hw])⟩

theorem next_of_append (h : Chain next null p (xs ++ x :: ys)) :
    x ≠ null ∧ ∃ q, next x = some q ∧ Chain next null q ys := by
  induction xs generalizing p with
  | nil =>
    obtain ⟨rfl, hp, hys⟩ := h
    exact ⟨hp, hys⟩
  | cons z xs ih =>
    obtain ⟨-, -, q, -, hxs⟩ := h
    exact ih hxs

theorem unlink (h : Chain next null p (xs ++ x :: y :: ys)) (hx : next' x = next y)
    (hn : ∀ z ∈ xs ++ ys, next' z = next z) : Chain next' null p (xs ++ x :: ys) := by
  induction xs generalizing p with
  | nil =>
    obtain ⟨rfl, hp, q, -, rfl, -, r, hr, hys⟩ := h
    exact ⟨rfl, hp, r, hx.trans hr, hys.congr hn⟩
  | cons z xs ih =>
    obtain ⟨rfl, hp, q, hq, hxs⟩ := h
    exact ⟨rfl, hp, q, (hn p (by simp)).trans hq, ih hxs fun w hw ↦ hn w (List.mem_cons_of_mem p hw)⟩

end Chain
end CsoLabs.Foundation
