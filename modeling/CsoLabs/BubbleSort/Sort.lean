import CsoLabs.Foundation.CArray
import CsoLabs.Foundation.CInt
import CsoLabs.Foundation.Inversions

namespace CsoLabs.BubbleSort

open Foundation CInt CArray Inversions

def swap (arr : List ℤ) (p1 p2 : ℤ) : Option (List ℤ) := do
  let temp ← load arr p1
  let x ← load arr p2
  let arr ← store arr p1 x
  store arr p2 temp

/-- The loop that swaps; running out of `fuel` stands for a loop that does not end. -/
def swapLoop (n : ℤ) : ℕ → ℤ → List ℤ → Option (List ℤ)
  | 0, _, _ => none
  | fuel + 1, i, arr => do
    let last ← int (n - 1)
    if i < last then
      let x ← load arr i
      let y ← load arr (i + 1)
      let arr ← if x > y then swap arr i (i + 1) else some arr
      let i ← int (i + 1)
      swapLoop n fuel i arr
    else some arr

def countLoop (n : ℤ) (arr : List ℤ) : ℕ → ℤ → ℤ → Option ℤ
  | 0, _, _ => none
  | fuel + 1, i, mistakes => do
    let last ← int (n - 1)
    if i < last then
      let x ← load arr i
      let y ← load arr (i + 1)
      let mistakes ← if x > y then int (mistakes + 1) else some mistakes
      let i ← int (i + 1)
      countLoop n arr fuel i mistakes
    else some mistakes

/-- `bubbleSort passes arr n` is `none` if the outer loop takes more than `passes` turns. -/
def bubbleSort : ℕ → List ℤ → ℤ → Option (List ℤ)
  | 0, _, _ => none
  | passes + 1, arr, n => do
    let arr ← swapLoop n (n.toNat + 1) 0 arr
    let mistakes ← countLoop n arr (n.toNat + 1) 0 0
    if mistakes = 0 then some arr else bubbleSort passes arr n

variable {l xs : List ℤ} {x y n : ℤ} {fuel : ℕ}

theorem swap_spec :
    swap (l ++ x :: y :: xs) l.length (l.length + 1) = some (l ++ y :: x :: xs) := by
  rw [swap, load_append, load_append_succ]
  simp only [Option.bind_eq_bind, Option.bind_some]
  rw [store_append, Option.bind_some, store_append_succ]

theorem swapLoop_turn (hn : n = l.length + (x :: y :: xs).length) (hfits : n < 2147483648) :
    swapLoop n (fuel + 1) l.length (l ++ x :: y :: xs) =
      if y < x then swapLoop n fuel (l ++ [y]).length (l ++ [y] ++ x :: xs)
      else swapLoop n fuel (l ++ [x]).length (l ++ [x] ++ y :: xs) := by
  simp only [List.length_cons, Nat.cast_add, Nat.cast_one] at hn
  rw [swapLoop, int_of_bounds (by omega) (by omega), Option.bind_eq_bind, Option.bind_some,
    if_pos (by omega), load_append, load_append_succ,
    int_of_bounds (by omega) (by omega)]
  simp only [Option.bind_eq_bind, Option.bind_some, List.length_append, List.length_singleton,
    Nat.cast_add_one, List.append_assoc, List.singleton_append]
  split_ifs with hlt
  · rw [swap_spec, Option.bind_some]
  · rfl

theorem swapLoop_end (hn : n = l.length + xs.length) (hfits : n < 2147483648)
    (hxs : xs.length < 2) : swapLoop n (fuel + 1) l.length (l ++ xs) = some (l ++ xs) := by
  rw [swapLoop, int_of_bounds (by omega) (by omega), Option.bind_eq_bind, Option.bind_some,
    if_neg (by omega)]

theorem swapLoop_spec (hn : n = l.length + xs.length) (hfits : n < 2147483648)
    (hfuel : xs.length < fuel) : swapLoop n fuel l.length (l ++ xs) = some (l ++ bubble xs) := by
  obtain ⟨fuel, rfl⟩ := Nat.exists_eq_succ_of_ne_zero (Nat.ne_of_gt (Nat.zero_lt_of_lt hfuel))
  induction xs using bubble.induct generalizing l fuel with
  | case1 x y xs hlt ih =>
    simp only [List.length_cons] at hn hfuel ih
    obtain ⟨fuel, rfl⟩ : ∃ k, fuel = k + 1 := ⟨fuel - 1, by omega⟩
    rw [Nat.succ_eq_add_one, swapLoop_turn (by simpa using hn) hfits, if_pos hlt,
      ih (by simp; omega) _ (by omega), bubble, if_pos hlt, List.append_assoc,
      List.singleton_append]
  | case2 x y xs hlt ih =>
    simp only [List.length_cons] at hn hfuel ih
    obtain ⟨fuel, rfl⟩ : ∃ k, fuel = k + 1 := ⟨fuel - 1, by omega⟩
    rw [Nat.succ_eq_add_one, swapLoop_turn (by simpa using hn) hfits, if_neg hlt,
      ih (by simp; omega) _ (by omega), bubble, if_neg hlt, List.append_assoc,
      List.singleton_append]
  | case3 xs hshort =>
    rw [Nat.succ_eq_add_one, swapLoop_end hn hfits (length_lt_two hshort), bubble.eq_2 xs hshort]

theorem countLoop_turn {mistakes : ℤ} (hn : n = l.length + (x :: y :: xs).length)
    (hfits : n < 2147483648) (hl : 0 ≤ mistakes) (hu : mistakes ≤ l.length) :
    countLoop n (l ++ x :: y :: xs) (fuel + 1) l.length mistakes =
      countLoop n (l ++ [x] ++ y :: xs) fuel (l ++ [x]).length
        (mistakes + if y < x then 1 else 0) := by
  simp only [List.length_cons, Nat.cast_add, Nat.cast_one] at hn
  rw [countLoop, int_of_bounds (by omega) (by omega), Option.bind_eq_bind, Option.bind_some,
    if_pos (by omega), load_append, load_append_succ,
    int_of_bounds (by omega) (by omega), int_of_bounds (by omega) (by omega)]
  simp only [Option.bind_some, List.length_append, List.length_singleton, Nat.cast_add_one,
    List.append_assoc, List.singleton_append]
  split_ifs with hlt
  · rfl
  · rw [Int.add_zero]

theorem countLoop_spec {mistakes : ℤ} (hn : n = l.length + xs.length) (hfits : n < 2147483648)
    (hl : 0 ≤ mistakes) (hu : mistakes ≤ l.length) (hfuel : xs.length < fuel) :
    countLoop n (l ++ xs) fuel l.length mistakes = some (mistakes + descents xs) := by
  obtain ⟨fuel, rfl⟩ := Nat.exists_eq_succ_of_ne_zero (Nat.ne_of_gt (Nat.zero_lt_of_lt hfuel))
  induction xs using descents.induct generalizing l fuel mistakes with
  | case1 x y xs ih =>
    simp only [List.length_cons] at hn hfuel ih
    obtain ⟨fuel, rfl⟩ : ∃ k, fuel = k + 1 := ⟨fuel - 1, by omega⟩
    rw [Nat.succ_eq_add_one, countLoop_turn (by simpa using hn) hfits hl hu,
      ih (by simp; omega) (by split_ifs <;> omega) (by simp; split_ifs <;> omega) _ (by omega),
      descents]
    push_cast
    rw [Int.add_assoc]
  | case2 xs hshort =>
    have hlen := length_lt_two hshort
    rw [countLoop, int_of_bounds (by omega) (by omega), Option.bind_eq_bind, Option.bind_some,
      if_neg (by omega), descents.eq_2 xs hshort, Nat.cast_zero, Int.add_zero]

theorem bubbleSort_turn {passes : ℕ} (hlen : xs.length < 2147483648) :
    bubbleSort (passes + 1) xs xs.length =
      if descents (bubble xs) = 0 then some (bubble xs)
      else bubbleSort passes (bubble xs) (bubble xs).length := by
  have hswap : swapLoop xs.length (xs.length + 1) ([] : List ℤ).length ([] ++ xs) =
      some ([] ++ bubble xs) := swapLoop_spec (by simp) (by omega) (by omega)
  have hcount : countLoop xs.length ([] ++ bubble xs) (xs.length + 1) ([] : List ℤ).length 0 =
      some (0 + (descents (bubble xs) : ℤ)) :=
    countLoop_spec (by simp [length_bubble]) (by omega) le_rfl (by simp) (by simp [length_bubble])
  rw [List.nil_append, List.nil_append, List.length_nil, Nat.cast_zero] at hswap
  rw [List.nil_append, List.length_nil, Nat.cast_zero, zero_add] at hcount
  rw [bubbleSort, Int.toNat_natCast, hswap, Option.bind_eq_bind, Option.bind_some, hcount,
    Option.bind_eq_bind, Option.bind_some, length_bubble]
  simp only [Nat.cast_eq_zero]

/-- A turn after which the loop goes on has taken an inversion away. -/
theorem bubbleSort_spec {passes : ℕ} (hlen : xs.length < 2147483648)
    (hpasses : inversions xs < passes) :
    ∃ b, bubbleSort passes xs xs.length = some b ∧ b.Pairwise (· ≤ ·) ∧ b.Perm xs := by
  induction passes generalizing xs with
  | zero => exact absurd hpasses (Nat.not_lt_zero _)
  | succ passes ih =>
    rw [bubbleSort_turn hlen]
    split_ifs with hdone
    · exact ⟨bubble xs, rfl, pairwise_of_descents_eq_zero hdone, bubble_perm xs⟩
    · have hxs : descents xs ≠ 0 := fun h ↦ hdone (by rw [bubble_eq_self h, h])
      have hlt := inversions_bubble_lt hxs
      obtain ⟨b, hb, hsorted, hperm⟩ := ih (by rwa [length_bubble]) (by omega)
      exact ⟨b, hb, hsorted, hperm.trans (bubble_perm xs)⟩

/-- The loop ends, and with it no access was out of bounds and no `int` overflowed. -/
theorem bubbleSort_sorts {arr : List ℤ} (hlen : arr.length < 2 ^ 31) :
    ∃ passes b, bubbleSort passes arr arr.length = some b ∧ b.Pairwise (· ≤ ·) ∧ b.Perm arr :=
  ⟨inversions arr + 1, bubbleSort_spec hlen (Nat.lt_succ_self _)⟩

theorem bubbleSort_sorts_three : ∃ passes b, bubbleSort passes [3, 1, 2] 3 = some b ∧
    b.Pairwise (· ≤ ·) ∧ b.Perm [3, 1, 2] := bubbleSort_sorts (by decide)

end CsoLabs.BubbleSort
