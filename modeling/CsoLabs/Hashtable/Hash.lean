import CsoLabs.Foundation.CInt
import CsoLabs.Foundation.CString
import Mathlib.NumberTheory.LucasLehmer

namespace CsoLabs.Hashtable

open Foundation CInt

def BIG_PRIME : ℤ := 1560007

def madd (a b : ℤ) : Option ℤ := do
  let s ← int (a + b)
  if s > BIG_PRIME then int (s - BIG_PRIME) else some s

def mmul (a b : ℤ) : Option ℤ := do
  let p ← int (a * b)
  return p.tmod BIG_PRIME

def hashcodeLoop : List Int8 → ℤ → ℤ → Option ℤ
  | [], _, p => some p
  | c :: s, i, p => do
    let m ← mmul p 256
    let p ← madd m c.toInt
    let i ← int (i + 1)
    hashcodeLoop s i p

def hashcode (s : CString) : Option ℤ := hashcodeLoop s.chars 0 0

def isPrimeLoop (n : ℤ) : ℕ → ℤ → Option Bool
  | 0, _ => none
  | fuel + 1, i =>
    if i < n then
      if n.tmod i = 0 then some false
      else do
        let i ← int (i + 2)
        isPrimeLoop n fuel i
    else some true

def isPrime (n : ℤ) : Option Bool :=
  if n ≤ 3 then some true
  else if n.tmod 2 = 0 then some false
  else isPrimeLoop n n.toNat 3

def getPrimeLoop : ℕ → ℤ → Option ℤ
  | 0, _ => none
  | fuel + 1, n => do
    if ← isPrime n then some n
    else do
      let n ← int (n + 1)
      getPrimeLoop fuel n

/-- The search ends at the largest `int`, which is a prime, at the latest. -/
def getPrime (min : ℤ) : Option ℤ := getPrimeLoop (2 ^ 31 - min).toNat min

theorem madd_eq {a b : ℤ} (ha : 0 ≤ a) (ha' : a < BIG_PRIME) (hb : 0 ≤ b) (hb' : b ≤ 127) :
    ∃ s, madd a b = some s ∧ 0 ≤ s ∧ s ≤ BIG_PRIME := by
  unfold BIG_PRIME at ha'
  have hs : int (a + b) = some (a + b) := int_of_bounds (by omega) (by omega)
  rw [madd, hs]
  simp only [Option.bind_eq_bind, Option.bind_some]
  unfold BIG_PRIME
  split_ifs with h
  · exact ⟨_, int_of_bounds (by omega) (by omega), by omega, by omega⟩
  · exact ⟨_, rfl, by omega, by omega⟩

theorem mmul_256 {a : ℤ} (ha : 0 ≤ a) (ha' : a ≤ BIG_PRIME) :
    ∃ p, mmul a 256 = some p ∧ 0 ≤ p ∧ p < BIG_PRIME := by
  unfold BIG_PRIME at ha'
  have hp : int (a * 256) = some (a * 256) := int_of_bounds (by omega) (by omega)
  refine ⟨(a * 256).tmod BIG_PRIME, by rw [mmul, hp]; rfl, Int.tmod_nonneg _ (by omega), ?_⟩
  exact Int.tmod_lt_of_pos _ (by decide)

theorem hashcodeLoop_eq {s : List Int8} {i p : ℤ} (hs : ∀ c ∈ s, 0 < c) (hi : 0 ≤ i)
    (hlen : i + s.length < 2 ^ 31) (hp : 0 ≤ p) (hp' : p ≤ BIG_PRIME) :
    ∃ h, hashcodeLoop s i p = some h ∧ 0 ≤ h ∧ h ≤ BIG_PRIME := by
  induction s generalizing i p with
  | nil => exact ⟨p, rfl, hp, hp'⟩
  | cons c s ih =>
    simp only [List.length_cons, Nat.cast_add, Nat.cast_one] at hlen
    obtain ⟨m, hm, hm₀, hm₁⟩ := mmul_256 hp hp'
    have hc : 0 < c.toInt := by simpa using Int8.lt_iff_toInt_lt.mp (hs c (by simp))
    obtain ⟨q, hq, hq₀, hq₁⟩ := madd_eq hm₀ hm₁ hc.le (CString.toInt_bounds c).2
    have hi' : int (i + 1) = some (i + 1) := int_of_bounds (by omega) (by omega)
    obtain ⟨h, hh, hh'⟩ := ih (i := i + 1) (fun d hd ↦ hs d (by simp [hd])) (by omega) (by omega)
      hq₀ hq₁
    refine ⟨h, ?_, hh'⟩
    simp only [hashcodeLoop, hm, hq, hi', Option.bind_eq_bind, Option.bind_some, hh]

theorem hashcode_eq {s : CString} (hs : s.Ascii) (hlen : s.chars.length < 2 ^ 31) :
    ∃ h, hashcode s = some h ∧ 0 ≤ h ∧ h ≤ BIG_PRIME :=
  hashcodeLoop_eq hs le_rfl (by rw [zero_add]; exact_mod_cast hlen) le_rfl (by decide)

theorem hashcodeLoop_length {s : List Int8} {i p h : ℤ} (hi : i < 2 ^ 31)
    (hr : hashcodeLoop s i p = some h) : i + s.length < 2 ^ 31 := by
  induction s generalizing i p with
  | nil => simpa using hi
  | cons c s ih =>
    rw [hashcodeLoop] at hr
    obtain ⟨m, -, hr⟩ := Option.bind_eq_some_iff.mp hr
    obtain ⟨q, -, hr⟩ := Option.bind_eq_some_iff.mp hr
    obtain ⟨j, hj, hr⟩ := Option.bind_eq_some_iff.mp hr
    obtain ⟨hfits, rfl⟩ := checked_eq_some.mp hj
    have := ih (by have := fits_int.mp hfits; omega) hr
    rw [List.length_cons]
    push_cast
    omega

theorem hashcode_length {s : CString} {h : ℤ} (hr : hashcode s = some h) :
    s.chars.length < 2 ^ 31 := by
  have := hashcodeLoop_length (by norm_num) hr
  rw [zero_add] at this
  exact_mod_cast this

theorem hashcode_nonneg {s : CString} {h : ℤ} (hs : s.Ascii) (hr : hashcode s = some h) :
    0 ≤ h := by
  obtain ⟨h', hh', hpos, -⟩ := hashcode_eq hs (hashcode_length hr)
  rwa [Option.some.inj (hr.symm.trans hh')]

theorem isPrimeLoop_eq {n i : ℤ} (hn : n < 2 ^ 31) (hodd : n % 2 = 1) (hiodd : i % 2 = 1)
    (hi : 3 ≤ i) (hin : i ≤ n) {k : ℕ} (hk : n - i < k) :
    ∃ b, isPrimeLoop n k i = some b ∧
      ((∀ j, 3 ≤ j → j < n → n.tmod j ≠ 0) → b = true) := by
  induction k generalizing i with
  | zero => omega
  | succ k ih =>
    rw [isPrimeLoop]
    split_ifs with hlt hdvd
    · exact ⟨false, rfl, fun h ↦ absurd hdvd (h i hi hlt)⟩
    · have hi' : int (i + 2) = some (i + 2) := int_of_bounds (by omega) (by omega)
      rw [hi']
      exact ih (by omega) (by omega) (by omega) (by omega)
    · exact ⟨true, rfl, fun _ ↦ rfl⟩

theorem isPrime_eq {n : ℤ} (hn : n < 2 ^ 31) : ∃ b, isPrime n = some b ∧
    ((∀ j, 2 ≤ j → j < n → n.tmod j ≠ 0) → b = true) := by
  rw [isPrime]
  split_ifs with hsmall heven
  · exact ⟨true, rfl, fun _ ↦ rfl⟩
  · exact ⟨false, rfl, fun h ↦ absurd heven (h 2 le_rfl (by omega))⟩
  · rw [Int.tmod_eq_emod_of_nonneg (by omega)] at heven
    obtain ⟨b, hb, hprime⟩ := isPrimeLoop_eq (i := 3) (k := n.toNat) hn (by omega) (by decide)
      le_rfl (by omega) (by omega)
    exact ⟨b, hb, fun h ↦ hprime fun j hj ↦ h j (by omega)⟩

theorem isPrime_of_prime {p : ℕ} (hp : p.Prime) (hlt : p < 2 ^ 31) : isPrime p = some true := by
  obtain ⟨b, hb, hprime⟩ := isPrime_eq (n := p) (by exact_mod_cast hlt)
  rw [hb, hprime fun j hj hj' h ↦ ?_]
  have hdvd : j.toNat ∣ p := by
    have hz : j ∣ (p : ℤ) := Int.dvd_of_tmod_eq_zero h
    rw [← Int.toNat_of_nonneg (show 0 ≤ j by omega)] at hz
    exact_mod_cast hz
  rcases (Nat.dvd_prime hp).mp hdvd with h₁ | h₁ <;> omega

theorem isPrime_maxInt : isPrime (2 ^ 31 - 1) = some true := by
  have hp : (mersenne 31).Prime := lucas_lehmer_sufficiency _ (by simp) (by norm_num)
  exact_mod_cast isPrime_of_prime hp (by decide)

theorem getPrime_turn {n : ℤ} (h : n < 2 ^ 31) : getPrime n =
    (isPrime n).bind fun b ↦ if b then some n else (int (n + 1)).bind getPrime := by
  obtain ⟨fuel, hfuel⟩ : ∃ fuel, (2 ^ 31 - n).toNat = fuel + 1 := ⟨(2 ^ 31 - n).toNat - 1, by omega⟩
  rw [getPrime, hfuel, getPrimeLoop]
  refine congrArg (Option.bind _) (funext fun b ↦ ?_)
  split_ifs
  · rfl
  · rcases hn : int (n + 1) with _ | m
    · rfl
    · obtain ⟨-, rfl⟩ := checked_eq_some.mp hn
      have : (2 ^ 31 - (n + 1)).toNat = fuel := by omega
      simp only [Option.bind_eq_bind, Option.bind_some, getPrime, this]

theorem getPrime_eq {n : ℤ} (h : n < 2 ^ 31) :
    ∃ p, getPrime n = some p ∧ n ≤ p ∧ p < 2 ^ 31 := by
  have hloop : ∀ (fuel : ℕ) (n : ℤ), n < 2 ^ 31 → 2 ^ 31 - n = fuel →
      ∃ p, getPrimeLoop fuel n = some p ∧ n ≤ p ∧ p < 2 ^ 31 := by
    intro fuel
    induction fuel with
    | zero => intro n hn hf; omega
    | succ fuel ih =>
      intro n hn hf
      obtain ⟨b, hb, -⟩ := isPrime_eq hn
      rw [getPrimeLoop, hb]
      cases b with
      | true => exact ⟨n, rfl, le_rfl, hn⟩
      | false =>
        have hlast : n + 1 < 2 ^ 31 := by
          by_contra hge
          obtain rfl : n = 2 ^ 31 - 1 := by omega
          rw [isPrime_maxInt] at hb
          cases hb
        have hbig : 3 < n := by
          by_contra hle
          rw [isPrime, if_pos (by omega)] at hb
          cases hb
        have hn' : int (n + 1) = some (n + 1) := int_of_bounds (by omega) (by omega)
        obtain ⟨p, hp, hle, hlt⟩ := ih (n + 1) hlast (by omega)
        refine ⟨p, ?_, by omega, hlt⟩
        simpa [hn'] using hp
  exact hloop _ n h (by omega)

theorem getPrime_le {n q : ℤ} {p : ℕ} (hp : p.Prime) (hlt : p < 2 ^ 31) (hn : n ≤ p)
    (h : getPrime n = some q) : q ≤ p := by
  have hloop : ∀ (fuel : ℕ) (n : ℤ), n ≤ p → getPrimeLoop fuel n = some q → q ≤ p := by
    intro fuel
    induction fuel with
    | zero => exact fun n _ h ↦ by cases h
    | succ fuel ih =>
      intro n hn h
      obtain ⟨b, hb, h⟩ := Option.bind_eq_some_iff.mp h
      cases b with
      | true =>
        obtain rfl : n = q := by simpa using h
        exact hn
      | false =>
        have hne : n ≠ p := by
          rintro rfl
          rw [isPrime_of_prime hp hlt] at hb
          cases hb
        obtain ⟨m, hm, h⟩ := Option.bind_eq_some_iff.mp h
        obtain ⟨-, rfl⟩ := checked_eq_some.mp hm
        exact ih (n + 1) (by omega) h
  exact hloop _ n hn h

end CsoLabs.Hashtable
