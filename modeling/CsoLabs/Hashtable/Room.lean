import CsoLabs.Hashtable.Table
import Mathlib.NumberTheory.LucasPrimality
import Mathlib.Tactic.ReduceModChar

namespace CsoLabs.Hashtable

def nextSize (size : ℤ) : ℤ := (getPrime (2 * size)).getD 0

theorem nextSize_spec {size : ℤ} (h : 2 * size < 2 ^ 31) :
    getPrime (2 * size) = some (nextSize size) ∧ 2 * size ≤ nextSize size ∧
      nextSize size < 2 ^ 31 := by
  obtain ⟨p, hp, hle, hlt⟩ := getPrime_eq h
  rw [nextSize, hp]
  exact ⟨rfl, hle, hlt⟩

theorem nextSize_le {size : ℤ} {p : ℕ} (hp : p.Prime) (hlt : p < 2 ^ 31) (h : 2 * size ≤ p) :
    nextSize size ≤ p := by
  have hlt' : (p : ℤ) < 2 ^ 31 := by exact_mod_cast hlt
  exact getPrime_le hp hlt h (nextSize_spec (by omega)).1

/-- How many of the sizes from `size` on are above all hash codes and can still be doubled. -/
def room (size : ℤ) : ℕ :=
  if h : 0 < size ∧ 2 * size < 2 ^ 31 then
    (if BIG_PRIME < size then 1 else 0) + room (nextSize size)
  else 0
termination_by (2 ^ 31 - size).toNat
decreasing_by
  have := (nextSize_spec h.2).2.1
  omega

variable {size : ℤ}

theorem room_early (hpos : 0 < size) (h : size ≤ BIG_PRIME) : room size = room (nextSize size) := by
  have hB : BIG_PRIME = 1560007 := rfl
  rw [room, dif_pos ⟨hpos, by omega⟩, if_neg (by omega), zero_add]

theorem room_late (h : BIG_PRIME < size) (hdouble : 2 * size < 2 ^ 31) :
    room size = room (nextSize size) + 1 := by
  have hB : BIG_PRIME = 1560007 := rfl
  rw [room, dif_pos ⟨by omega, hdouble⟩, if_pos h, add_comm]

theorem room_eq_zero (h : 2 ^ 31 ≤ 2 * size) : room size = 0 := by
  rw [room, dif_neg (by omega)]

theorem room_le {n : ℕ} (hpos : 0 < size) (h : 2 ^ 31 ≤ size * 2 ^ (n + 1)) : room size ≤ n := by
  induction n generalizing size with
  | zero => exact (room_eq_zero (by omega)).le
  | succ n ih =>
    rcases lt_or_ge (2 * size) (2 ^ 31) with hdouble | hbig
    · have hnext := (nextSize_spec hdouble).2.1
      have hrec : room (nextSize size) ≤ n := by
        refine ih (by omega) ?_
        have hp : (0 : ℤ) < 2 ^ (n + 1) := by positivity
        calc (2 : ℤ) ^ 31 ≤ size * 2 ^ (n + 2) := h
          _ = 2 * size * 2 ^ (n + 1) := by ring
          _ ≤ nextSize size * 2 ^ (n + 1) := Int.mul_le_mul_of_nonneg_right hnext hp.le
      rcases lt_or_ge BIG_PRIME size with hlate | hearly
      · rw [room_late hlate hdouble]
        omega
      · rw [room_early hpos hearly]
        omega
    · rw [room_eq_zero hbig]
      exact Nat.zero_le _

/-- Nine or ten: the sizes above 1560007 are doubled at most ten times below 2^30. -/
theorem room_le_ten (hpos : 0 < size) : room size ≤ 10 := by
  have hB : BIG_PRIME = 1560007 := rfl
  induction size using room.induct with
  | case1 size h ih =>
    rcases lt_or_ge BIG_PRIME size with hlate | hearly
    · exact room_le hpos (by omega)
    · rw [room_early hpos hearly]
      exact ih (by have := (nextSize_spec h.2).2.1; omega)
  | case2 size h => exact (room_eq_zero (by omega)).trans_le (Nat.zero_le _)

theorem le_room {p : ℕ} {ps : List ℕ} (hlate : BIG_PRIME < size) (hle : size ≤ p)
    (hchain : (p :: ps).IsChain fun a b ↦ 2 * a ≤ b) (hprime : ∀ q ∈ ps, q.Prime)
    (hlt : ∀ q ∈ p :: ps, 2 * q < 2 ^ 31) : (p :: ps).length ≤ room size := by
  have hB : BIG_PRIME = 1560007 := rfl
  induction ps generalizing p size with
  | nil =>
    have hp := hlt p (by simp)
    rw [room_late hlate (by omega)]
    simp
  | cons q ps ih =>
    have hp := hlt p (by simp)
    have hq := hlt q (by simp)
    obtain ⟨hpq, hchain⟩ := List.isChain_cons_cons.mp hchain
    have hdouble : 2 * size < 2 ^ 31 := by omega
    have hnext := (nextSize_spec hdouble).2.1
    have hnext' := nextSize_le (hprime q (by simp)) (by omega) (by omega : 2 * size ≤ q)
    rw [room_late hlate hdouble, List.length_cons]
    exact Nat.add_le_add_right (ih (by omega) hnext' hchain (fun r hr ↦ hprime r (by simp [hr]))
      fun r hr ↦ hlt r (by simp [hr])) 1

/-- Lucas' test with the base 3, for the prime factors `qs` of `p - 1`. -/
theorem prime_of_three_pow {p : ℕ} (qs : List ℕ) (k : ℕ) (hprime : ∀ q ∈ qs, q.Prime)
    (hfactors : p - 1 ∣ qs.prod ^ k) (hone : (3 : ZMod p) ^ (p - 1) = 1)
    (hne : ∀ q ∈ qs, (3 : ZMod p) ^ ((p - 1) / q) ≠ 1) : p.Prime := by
  apply lucas_primality p 3 hone
  intro q hq hd
  have hprod : q ∣ qs.prod := hq.dvd_of_dvd_pow (hd.trans hfactors)
  obtain ⟨r, hr, hqr⟩ := (hq.prime.dvd_prod_iff).mp hprod
  obtain rfl := (Nat.prime_dvd_prime_iff_eq hq (hprime r hr)).mp hqr
  exact hne q hr

theorem prime_469762049 : Nat.Prime 469762049 := by
  apply prime_of_three_pow [2, 7] 26 (by norm_num) (by norm_num) (by reduce_mod_char)
  simp only [List.forall_mem_cons, List.not_mem_nil, false_imp_iff, implies_true, and_true]
  constructor
  all_goals
    norm_num
    reduce_mod_char
    decide

theorem prime_998244353 : Nat.Prime 998244353 := by
  apply prime_of_three_pow [2, 7, 17] 23 (by norm_num) (by norm_num) (by reduce_mod_char)
  simp only [List.forall_mem_cons, List.not_mem_nil, false_imp_iff, implies_true, and_true]
  refine ⟨?_, ?_, ?_⟩
  all_goals
    norm_num
    reduce_mod_char
    decide

theorem nine_le_room (hpos : 0 < size) (hle : size ≤ BIG_PRIME) : 9 ≤ room size := by
  have hB : BIG_PRIME = 1560007 := rfl
  induction size using room.induct with
  | case1 size h ih =>
    have hnext := (nextSize_spec h.2).2.1
    rw [room_early hpos hle]
    rcases lt_or_ge BIG_PRIME (nextSize size) with hlate | hearly
    · have hfirst : nextSize size ≤ (3120017 : ℕ) :=
        nextSize_le (by norm_num) (by norm_num) (by omega)
      have hprime : ∀ q ∈ [6240041, 12480089, 24960179, 49920359, 99840743, 199681511,
          469762049, 998244353], q.Prime := by
        simp only [List.forall_mem_cons, List.not_mem_nil, false_imp_iff, implies_true, and_true]
        exact ⟨by norm_num, by norm_num, by norm_num, by norm_num, by norm_num, by norm_num,
          prime_469762049, prime_998244353⟩
      exact le_room hlate hfirst (by simp) hprime (by simp)
    · exact ih (by omega) hearly
  | case2 size h => exact absurd ⟨hpos, by omega⟩ h

end CsoLabs.Hashtable
