import CsoLabs.Sieve.Model
import Mathlib.Data.Nat.Prime.Basic

namespace CsoLabs.Sieve

open Foundation CInt CArray

variable {arr sieve sieve' : List ℤ} {S T : Set ℕ} {n p i k fuel : ℕ}

structure Marked (S : Set ℕ) (arr sieve : List ℤ) : Prop where
  length : sieve.length = arr.length
  zero : ∀ k ∈ S, k < arr.length → sieve[k]? = some 0
  same : ∀ k ∉ S, sieve[k]? = arr[k]?

theorem Marked.refl (hS : ∀ k ∈ S, arr.length ≤ k) : Marked S arr arr :=
  ⟨rfl, fun k hk hlt ↦ absurd (hS k hk) hlt.not_ge, fun _ _ ↦ rfl⟩

theorem Marked.set (hk : k < arr.length) : Marked {k} arr (arr.set k 0) := by
  refine ⟨List.length_set, fun m hm _ ↦ ?_, fun m hm ↦ List.getElem?_set_ne (Ne.symm hm)⟩
  rw [Set.mem_singleton_iff.mp hm, List.getElem?_set_self hk]

theorem Marked.trans (h : Marked S arr sieve) (h' : Marked T sieve sieve') :
    Marked (S ∪ T) arr sieve' := by
  refine ⟨h'.length.trans h.length, fun k hk hlt ↦ ?_, fun k hk ↦ ?_⟩
  · by_cases hT : k ∈ T
    · exact h'.zero k hT (hlt.trans_eq h.length.symm)
    · rw [h'.same k hT]
      exact h.zero k (hk.resolve_right hT) hlt
  · rw [h'.same k fun hT ↦ hk (.inr hT), h.same k fun hS ↦ hk (.inl hS)]

def multiples (p i : ℕ) : Set ℕ := {k | ∃ j, i ≤ j ∧ k = j * p}

theorem multiples_succ : multiples p i = {i * p} ∪ multiples p (i + 1) := by
  ext k
  constructor
  · intro hk
    obtain ⟨j, hj, rfl⟩ := hk
    rcases hj.eq_or_lt with rfl | hlt
    · exact .inl rfl
    · exact .inr ⟨j, hlt, rfl⟩
  · intro hk
    rcases hk with rfl | ⟨j, hj, rfl⟩
    · exact ⟨i, le_rfl, rfl⟩
    · exact ⟨j, Nat.le_of_succ_le hj, rfl⟩

def products (i : ℕ) : Set ℕ := {k | ∃ p, i ≤ p ∧ k ∈ multiples p 2}

theorem products_succ : products i = multiples i 2 ∪ products (i + 1) := by
  ext k
  constructor
  · intro hk
    obtain ⟨p, hp, hk⟩ := hk
    rcases hp.eq_or_lt with rfl | hlt
    · exact .inl hk
    · exact .inr ⟨p, hlt, hk⟩
  · intro hk
    rcases hk with hk | ⟨p, hp, hk⟩
    · exact ⟨i, le_rfl, hk⟩
    · exact ⟨p, Nat.le_of_succ_le hp, hk⟩

theorem le_of_mem_multiples (hk : k ∈ multiples p i) : i * p ≤ k := by
  obtain ⟨j, hj, rfl⟩ := hk
  exact Nat.mul_le_mul_right p hj

theorem le_of_mem_products (hk : k ∈ products i) : i ≤ k := by
  obtain ⟨p, hp, j, hj, rfl⟩ := hk
  nlinarith

theorem mem_products_two (hk : 2 ≤ k) : k ∈ products 2 ↔ ¬ k.Prime := by
  rw [Nat.not_prime_iff_exists_dvd_lt hk]
  constructor
  · intro h
    obtain ⟨p, hp, j, hj, rfl⟩ := h
    exact ⟨p, Nat.dvd_mul_left p j, hp, by nlinarith⟩
  · intro h
    obtain ⟨p, ⟨j, rfl⟩, hp, hlt⟩ := h
    refine ⟨p, hp, j, ?_, Nat.mul_comm p j⟩
    by_contra hj
    have : p * j ≤ p * 1 := Nat.mul_le_mul_left p (by omega)
    omega

theorem initializeLoop_spec (hlen : arr.length = n) (hn : n < 2147483648) (hi : i ≤ n)
    (hfuel : n < fuel + i) (hdone : ∀ k < i, arr[k]? = some 1) :
    ∃ sieve, initializeLoop n fuel i arr = some sieve ∧ sieve.length = n ∧
      ∀ k < n, sieve[k]? = some 1 := by
  induction fuel generalizing i arr with
  | zero => omega
  | succ fuel ih =>
    rw [initializeLoop]
    by_cases hlt : i < n
    · rw [if_pos (by omega), store_natCast (by omega), int_of_bounds (by omega) (by omega)]
      simp only [Option.bind_eq_bind, Option.bind_some]
      have hdone' : ∀ k < i + 1, (arr.set i 1)[k]? = some 1 := by
        intro k hk
        rcases (Nat.le_of_lt_succ hk).lt_or_eq with hki | rfl
        · rw [List.getElem?_set_ne hki.ne', hdone k hki]
        · exact List.getElem?_set_self (by omega)
      obtain ⟨sieve, hsieve, hspec⟩ := ih (by rw [List.length_set, hlen]) hlt (by omega) hdone'
      exact ⟨sieve, by exact_mod_cast hsieve, hspec⟩
    · rw [if_neg (by omega)]
      exact ⟨arr, rfl, hlen, fun k hk ↦ hdone k (by omega)⟩

/-- The products grow by `p` at a time, so the one that ends the loop is below `n + p`. -/
theorem markLoop_spec (hp : 2 ≤ p) (hpn : p < n) (hn : n ≤ 1073741824) (hlen : arr.length = n)
    (hin : i ≤ n) (hprev : i * p < n + p) (hfuel : n < fuel + i) :
    ∃ sieve, markLoop n p fuel i arr = some sieve ∧ Marked (multiples p i) arr sieve := by
  induction fuel generalizing i arr with
  | zero => omega
  | succ fuel ih =>
    rw [markLoop]
    by_cases hlt : i < n
    · rw [if_pos (by omega), ← Nat.cast_mul, int_of_bounds (by omega) (by omega),
        Option.bind_eq_bind, Option.bind_some]
      by_cases hprod : i * p < n
      · rw [if_pos (by omega), store_natCast (by omega), int_of_bounds (by omega) (by omega)]
        simp only [Option.bind_eq_bind, Option.bind_some]
        have hnext : (i + 1) * p < n + p := by rw [Nat.add_mul, Nat.one_mul]; omega
        obtain ⟨sieve, hsieve, hmarked⟩ : ∃ sieve,
            markLoop n p fuel (i + 1 : ℕ) (arr.set (i * p) 0) = some sieve ∧
              Marked (multiples p (i + 1)) (arr.set (i * p) 0) sieve :=
          ih (by rw [List.length_set, hlen]) hlt hnext (by omega)
        refine ⟨sieve, by exact_mod_cast hsieve, ?_⟩
        rw [multiples_succ]
        exact (Marked.set (by omega)).trans hmarked
      · rw [if_neg (by omega)]
        refine ⟨arr, rfl, .refl fun k hk ↦ ?_⟩
        have := le_of_mem_multiples hk
        omega
    · rw [if_neg (by omega)]
      refine ⟨arr, rfl, .refl fun k hk ↦ ?_⟩
      have hik := le_of_mem_multiples hk
      have : i * 1 ≤ i * p := Nat.mul_le_mul_left i (by omega)
      omega

theorem markMultiples_spec (hp : 2 ≤ p) (hpn : p < n) (hn : n ≤ 1073741824)
    (hlen : arr.length = n) :
    ∃ sieve, markMultiples arr n p = some sieve ∧ Marked (multiples p 2) arr sieve := by
  rw [markMultiples, Int.toNat_natCast]
  exact markLoop_spec (i := 2) hp hpn hn hlen (by omega) (by omega) (by omega)

theorem sievesLoop_spec (hi : 2 ≤ i) (hn : n ≤ 1073741824) (hlen : arr.length = n)
    (hfuel : n < fuel + i) (hfuel' : 0 < fuel) :
    ∃ sieve, sievesLoop n fuel i arr = some sieve ∧ Marked (products i) arr sieve := by
  induction fuel generalizing i arr with
  | zero => exact absurd hfuel' (Nat.not_lt_zero 0)
  | succ fuel ih =>
    rw [sievesLoop]
    by_cases hlt : i < n
    · obtain ⟨sieve, hsieve, hmarked⟩ := markMultiples_spec hi hlt hn hlen
      obtain ⟨sieve', hsieve', hmarked'⟩ := ih (Nat.le_succ_of_le hi) (hmarked.length.trans hlen)
        (by omega) (by omega)
      rw [if_pos (by omega), hsieve, Option.bind_eq_bind, Option.bind_some,
        int_of_bounds (by omega) (by omega)]
      refine ⟨sieve', by exact_mod_cast hsieve', ?_⟩
      rw [products_succ]
      exact hmarked.trans hmarked'
    · rw [if_neg (by omega)]
      refine ⟨arr, rfl, .refl fun k hk ↦ ?_⟩
      have := le_of_mem_products hk
      omega

theorem primeNumberSieves_spec (hlen : arr.length = n) (hn : n ≤ 1073741824) :
    ∃ sieve, primeNumberSieves arr n = some sieve ∧ sieve.length = n ∧
      ∀ k < n, 2 ≤ k → sieve[k]? = some (if k.Prime then 1 else 0) := by
  obtain ⟨ones, hones, hlen', hone⟩ : ∃ ones, initializeLoop n (n + 1) ((0 : ℕ) : ℤ) arr =
      some ones ∧ ones.length = n ∧ ∀ k < n, ones[k]? = some 1 :=
    initializeLoop_spec hlen (by omega) (Nat.zero_le n) (by omega)
      fun k hk ↦ absurd hk (Nat.not_lt_zero k)
  obtain ⟨sieve, hsieve, hmarked⟩ : ∃ sieve, sievesLoop n (n + 1) ((2 : ℕ) : ℤ) ones =
      some sieve ∧ Marked (products 2) ones sieve :=
    sievesLoop_spec le_rfl hn hlen' (by omega) (Nat.succ_pos n)
  refine ⟨sieve, ?_, hmarked.length.trans hlen', fun k hk hk₂ ↦ ?_⟩
  · rw [primeNumberSieves, initializeArray, Int.toNat_natCast]
    rw [Nat.cast_zero] at hones
    rw [hones, Option.bind_eq_bind, Option.bind_some]
    exact hsieve
  · by_cases hprime : k.Prime
    · have hk' : k ∉ products 2 := fun h ↦ (mem_products_two hk₂).mp h hprime
      rw [if_pos hprime, hmarked.same k hk', hone k hk]
    · rw [if_neg hprime]
      exact hmarked.zero k ((mem_products_two hk₂).mpr hprime) (hk.trans_eq hlen'.symm)

/-- Whatever was in the array, the sieve is exact from index 2 on. -/
theorem primeNumberSieves_exact {arr : List ℤ} (hlen : arr.length ≤ 2 ^ 30) :
    ∃ sieve, primeNumberSieves arr arr.length = some sieve ∧ sieve.length = arr.length ∧
      ∀ k (hk : k < sieve.length), 2 ≤ k → (sieve[k] ≠ 0 ↔ k.Prime) := by
  obtain ⟨sieve, hsieve, hlen', hspec⟩ := primeNumberSieves_spec rfl hlen
  refine ⟨sieve, hsieve, hlen', fun k hk hk₂ ↦ ?_⟩
  have helem := hspec k (hk.trans_eq hlen') hk₂
  rw [List.getElem?_eq_getElem hk, Option.some.injEq] at helem
  rw [helem]
  split_ifs with hprime
  · exact iff_of_true Int.one_ne_zero hprime
  · exact iff_of_false (not_not.mpr rfl) hprime

theorem primeNumberSieves_exact_six : ∃ sieve, primeNumberSieves [7, 7, 7, 7, 7, 7] 6 = some sieve ∧
    sieve.length = 6 ∧ ∀ k (hk : k < sieve.length), 2 ≤ k → (sieve[k] ≠ 0 ↔ k.Prime) :=
  primeNumberSieves_exact (by decide)

section Divisor

variable {divisor : ℤ}

theorem divisorLoop_turn (hn : n < 1073741824) (hi : 2 ≤ i) (hin : i < n)
    (hspec : ∀ k < n + 1, 2 ≤ k → sieve[k]? = some (if k.Prime then 1 else 0)) :
    divisorLoop n sieve (fuel + 1) i divisor =
      if i.Prime ∧ i ∣ n then some (i : ℤ)
      else divisorLoop n sieve fuel (i + 1 : ℕ) divisor := by
  have hdvd : (n : ℤ).tmod i = 0 ↔ i ∣ n :=
    ⟨fun h ↦ Int.natCast_dvd_natCast.mp (Int.dvd_of_tmod_eq_zero h),
      fun h ↦ Int.tmod_eq_zero_of_dvd (Int.natCast_dvd_natCast.mpr h)⟩
  have hone : (if i.Prime then (1 : ℤ) else 0) = 1 ↔ i.Prime := by simp
  rw [divisorLoop, if_pos (by omega), load_natCast, hspec i (by omega) hi, Option.bind_eq_bind,
    Option.bind_some, int_of_bounds (by omega) (by omega), Option.bind_some]
  simp only [hone, hdvd, Nat.cast_add_one]

/-- The scan stops at the least factor, which is a prime, and at no smaller prime. -/
theorem divisorLoop_composite (hn : n < 1073741824) (hcomp : n.minFac < n) (hi : 2 ≤ i)
    (hle : i ≤ n.minFac) (hfuel : n < fuel + i)
    (hspec : ∀ k < n + 1, 2 ≤ k → sieve[k]? = some (if k.Prime then 1 else 0)) :
    divisorLoop n sieve fuel i divisor = some (n.minFac : ℤ) := by
  induction fuel generalizing i with
  | zero => omega
  | succ fuel ih =>
    rw [divisorLoop_turn hn hi (by omega) hspec]
    split_ifs with hdiv
    · rw [le_antisymm hle (Nat.minFac_le_of_dvd hi hdiv.2)]
    · have hne : i ≠ n.minFac := by
        intro h
        subst h
        exact hdiv ⟨Nat.minFac_prime (by omega), n.minFac_dvd⟩
      exact ih (by omega) (by omega) (by omega)

theorem divisorLoop_prime (hn : n < 1073741824) (hprime : n.Prime) (hi : 2 ≤ i) (hin : i ≤ n)
    (hfuel : n < fuel + i)
    (hspec : ∀ k < n + 1, 2 ≤ k → sieve[k]? = some (if k.Prime then 1 else 0)) :
    divisorLoop n sieve fuel i divisor = some divisor := by
  induction fuel generalizing i with
  | zero => omega
  | succ fuel ih =>
    by_cases hlt : i < n
    · rw [divisorLoop_turn hn hi hlt hspec, if_neg]
      · exact ih (by omega) hlt (by omega)
      · intro hdiv
        rcases (Nat.dvd_prime hprime).mp hdiv.2 with h | h <;> omega
    · rw [divisorLoop, if_neg (by omega)]

/-- The result and `*divisor`, for any contents of the memory from `malloc`. -/
theorem findSmallestDivisor_spec (garbage : ℕ → ℤ) {n : ℕ} (hl : 2 ≤ n) (hu : n < 2 ^ 30)
    (divisor : ℤ) : ∃ ret d, findSmallestDivisor garbage n divisor = some (ret, d) ∧
      (ret ≠ 0 ↔ ¬ n.Prime) ∧ (ret ≠ 0 → d = (n.minFac : ℤ)) := by
  obtain ⟨sieve, hsieve, -, hspec⟩ : ∃ sieve,
      primeNumberSieves ((List.range (n + 1)).map garbage) (n + 1 : ℕ) = some sieve ∧
        sieve.length = n + 1 ∧
        ∀ k < n + 1, 2 ≤ k → sieve[k]? = some (if k.Prime then 1 else 0) :=
    primeNumberSieves_spec (by simp) (by omega)
  have hscan : divisorLoop n sieve (n + 1) (2 : ℕ) divisor =
      some (if n.Prime then divisor else (n.minFac : ℤ)) := by
    split_ifs with hprime
    · exact divisorLoop_prime hu hprime le_rfl hl (by omega) hspec
    · exact divisorLoop_composite hu ((Nat.not_prime_iff_minFac_lt hl).mp hprime) le_rfl
        (Nat.minFac_prime (by omega)).two_le (by omega) hspec
  refine ⟨if n.Prime then 0 else 1, if n.Prime then divisor else n.minFac, ?_, ?_, ?_⟩
  · have hsize : (n : ℤ) + 1 = (n + 1 : ℕ) := by push_cast; rfl
    rw [findSmallestDivisor, int_of_bounds (by omega) (by omega), Option.bind_eq_bind,
      Option.bind_some, hsize, Int.toNat_natCast, hsieve, Option.bind_eq_bind, Option.bind_some,
      Int.toNat_natCast]
    rw [Nat.cast_ofNat] at hscan
    rw [hscan, Option.bind_some, load_natCast, hspec n (by omega) hl, Option.bind_some]
    by_cases hprime : n.Prime <;> simp [hprime]
  · by_cases hprime : n.Prime <;> simp [hprime]
  · by_cases hprime : n.Prime <;> simp [hprime]

theorem findSmallestDivisor_twentyOne : ∃ ret d,
    findSmallestDivisor (fun _ ↦ -1) 21 0 = some (ret, d) ∧
      (ret ≠ 0 ↔ ¬ Nat.Prime 21) ∧ (ret ≠ 0 → d = (Nat.minFac 21 : ℤ)) :=
  findSmallestDivisor_spec (fun _ ↦ -1) (n := 21) (by decide) (by decide) 0

end Divisor
end CsoLabs.Sieve
