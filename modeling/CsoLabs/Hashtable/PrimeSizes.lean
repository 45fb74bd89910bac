import CsoLabs.Hashtable.Hash

namespace CsoLabs.Hashtable

open Foundation CInt

variable {n q : ℤ} {fuel : ℕ}

/-- Once the trial division has passed, no odd number from where it began divides. -/
theorem isPrimeLoop_sound {i j : ℤ} (hi : i % 2 = 1) (h : isPrimeLoop n fuel i = some true)
    (hj : j % 2 = 1) (hij : i ≤ j) (hjn : j < n) : n.tmod j ≠ 0 := by
  induction fuel generalizing i with
  | zero => cases h
  | succ fuel ih =>
    rw [isPrimeLoop, if_pos (hij.trans_lt hjn)] at h
    split_ifs at h with hdvd
    · cases h
    · obtain ⟨k, hk, h⟩ := Option.bind_eq_some_iff.mp h
      obtain ⟨-, rfl⟩ := checked_eq_some.mp hk
      by_cases heq : i = j
      · rwa [← heq]
      · exact ih (by omega) h (by omega)

theorem isPrime_sound {k : ℕ} (hk : 2 ≤ k) (h : isPrime k = some true) : k.Prime := by
  by_contra hk'
  have hp := Nat.minFac_prime (show k ≠ 1 by omega)
  have hle : k.minFac ^ 2 ≤ k := Nat.minFac_sq_le_self (by omega) hk'
  have hlt : 2 * k.minFac ≤ k := by nlinarith [hp.two_le]
  have hmod : (k : ℤ).tmod (k.minFac : ℤ) = 0 :=
    Int.tmod_eq_zero_of_dvd (Int.natCast_dvd_natCast.mpr k.minFac_dvd)
  have hbig : 3 < k := by
    by_contra hsmall
    obtain rfl | rfl : k = 2 ∨ k = 3 := by omega
    · exact hk' Nat.prime_two
    · exact hk' Nat.prime_three
  rw [isPrime, if_neg (by omega)] at h
  split_ifs at h with heven
  · cases h
  · rcases hp.eq_two_or_odd with htwo | hodd
    · rw [htwo] at hmod
      exact heven hmod
    · refine isPrimeLoop_sound (by decide) h (show (k.minFac : ℤ) % 2 = 1 by omega) ?_
        (by omega) hmod
      have := hp.two_le
      omega

theorem getPrimeLoop_isPrime (h : getPrimeLoop fuel n = some q) : isPrime q = some true := by
  induction fuel generalizing n with
  | zero => cases h
  | succ fuel ih =>
    obtain ⟨b, hb, h⟩ := Option.bind_eq_some_iff.mp h
    cases b with
    | true =>
      obtain rfl : n = q := by simpa using h
      exact hb
    | false =>
      obtain ⟨m, -, h⟩ := Option.bind_eq_some_iff.mp h
      exact ih h

/-- The search for a prime ends, within the range of `int`, at the first one. -/
theorem getPrime_isLeast {min : ℤ} (hl : 2 ≤ min) (hu : min < 2 ^ 31) :
    ∃ p : ℕ, getPrime min = some (p : ℤ) ∧ IsLeast {q : ℕ | q.Prime ∧ min ≤ q} p := by
  obtain ⟨p, hp, hle, hlt⟩ := getPrime_eq hu
  obtain ⟨p, rfl⟩ := Int.eq_ofNat_of_zero_le (show 0 ≤ p by omega)
  refine ⟨p, hp, ⟨isPrime_sound (by omega) (getPrimeLoop_isPrime hp), hle⟩, fun q hq ↦ ?_⟩
  by_cases hq' : q < 2 ^ 31
  · have := getPrime_le hq.1 hq' hq.2 hp
    omega
  · omega

theorem getPrime_isLeast_eight : ∃ p : ℕ, getPrime 8 = some (p : ℤ) ∧
    IsLeast {q : ℕ | q.Prime ∧ (8 : ℤ) ≤ q} p :=
  getPrime_isLeast (by decide) (by decide)

end CsoLabs.Hashtable
