import CsoLabs.Hashtable.Table
import CsoLabs.Rkgrep.RollingHash

namespace CsoLabs.Hashtable

open Foundation CInt
open Rkgrep (polynomial polynomial_append)

/-- What `mmul` makes of the hash of `w`, had no char of it been negative. -/
def carry (w : List Int8) : ℤ := 256 * polynomial w % BIG_PRIME

def Dips (w : List Int8) (c : Int8) : Prop := carry w + c.toInt < 0

def Lifts (w : List Int8) (c : Int8) : Prop :=
  BIG_PRIME ≤ carry w + c.toInt ∨ carry w = 0 ∧ 0 ≤ c.toInt

def Recovers (s : List Int8) : Prop :=
  ∀ w c, w ++ [c] <+: s → Dips w c →
    ∃ w' c', w' ++ [c'] <+: s ∧ w.length < w'.length ∧ Lifts w' c'

/-- `p` is the hash of `w`, which is negative if a dip has not been made up for. -/
structure IsHashcode (w : List Int8) (p : ℤ) : Prop where
  congr : p ≡ polynomial w [ZMOD BIG_PRIME]
  lower : -(BIG_PRIME + 128) < p
  upper : p ≤ BIG_PRIME
  sign : 0 ≤ p ↔ Recovers w

def HashesInto (key : CString) : Prop :=
  ∃ h, hashcode key = some h ∧ 0 ≤ h ∧ h ≤ BIG_PRIME ∧
    h ≡ polynomial key.chars [ZMOD BIG_PRIME] ∧
    ∀ t : Htable, 1 ≤ t.size → ∃ slot, slotOf t h = some slot ∧ 0 ≤ slot ∧ slot < t.size

variable {w s : List Int8} {c : Int8} {p i : ℤ}

theorem carry_bounds (w : List Int8) : 0 ≤ carry w ∧ carry w < BIG_PRIME :=
  ⟨Int.emod_nonneg _ (by decide), Int.emod_lt_of_pos _ (by decide)⟩

theorem not_dips_of_lifts (h : Lifts w c) : ¬ Dips w c := by
  intro hd
  have hc := carry_bounds w
  rcases h with h | ⟨h, hc0⟩
  · have hp : (0 : ℤ) < BIG_PRIME := by decide
    exact absurd hd (by unfold Dips; omega)
  · exact absurd hd (by unfold Dips; omega)

theorem recovers_nil : Recovers [] := by
  intro w c h
  have := h.length_le
  simp at this

theorem recovers_concat : Recovers (w ++ [c]) ↔ Lifts w c ∨ Recovers w ∧ ¬ Dips w c := by
  constructor
  · intro h
    by_cases hl : Lifts w c
    · exact .inl hl
    refine .inr ⟨fun v d hv hd ↦ ?_, fun hd ↦ ?_⟩
    · obtain ⟨v', d', hv', hlt, hl'⟩ := h v d (hv.trans (List.prefix_append _ _)) hd
      rcases List.prefix_concat_iff.mp hv' with heq | hv'
      · obtain ⟨rfl, hcd⟩ := List.append_inj' heq rfl
        obtain rfl := List.singleton_inj.mp hcd
        exact absurd hl' hl
      · exact ⟨v', d', hv', hlt, hl'⟩
    · obtain ⟨v', d', hv', hlt, -⟩ := h w c List.prefix_rfl hd
      have := hv'.length_le
      simp only [List.length_append, List.length_singleton] at this
      omega
  · intro h v d hv hd
    rcases List.prefix_concat_iff.mp hv with heq | hv
    · obtain ⟨rfl, hcd⟩ := List.append_inj' heq rfl
      obtain rfl := List.singleton_inj.mp hcd
      rcases h with hl | ⟨-, hn⟩
      · exact absurd hd (not_dips_of_lifts hl)
      · exact absurd hd hn
    · rcases h with hl | ⟨hr, -⟩
      · have := hv.length_le
        simp only [List.length_append, List.length_singleton] at this
        exact ⟨w, c, List.prefix_rfl, by omega, hl⟩
      · obtain ⟨v', d', hv', hlt, hl⟩ := hr v d hv hd
        exact ⟨v', d', hv'.trans (List.prefix_append _ _), hlt, hl⟩

theorem polynomial_concat (w : List Int8) (c : Int8) :
    polynomial (w ++ [c]) = 256 * polynomial w + c.toInt := by
  rw [polynomial_append]
  simp [polynomial]
  ring

theorem tmod_of_congr (hp : p ≡ polynomial w [ZMOD BIG_PRIME]) :
    (p * 256).tmod BIG_PRIME =
      if 0 ≤ p then carry w else if carry w = 0 then 0 else carry w - BIG_PRIME := by
  have hcongr : p * 256 % BIG_PRIME = carry w := by
    rw [carry, mul_comm]
    exact hp.mul_left 256
  split_ifs with h h0
  · rw [Int.tmod_eq_emod_of_nonneg (by omega), hcongr]
  · rw [← hcongr] at h0
    exact Int.tmod_eq_zero_of_dvd (Int.dvd_of_emod_eq_zero h0)
  · have hneg : ¬ (0 ≤ p * 256 ∨ BIG_PRIME ∣ p * 256) := by
      rintro (hp | hd)
      · omega
      · exact h0 (hcongr.symm.trans (Int.emod_eq_zero_of_dvd hd))
    rw [Int.tmod_eq_emod, if_neg hneg, hcongr]
    rfl

theorem tmod_modEq_bigPrime (x : ℤ) : x.tmod BIG_PRIME ≡ x [ZMOD BIG_PRIME] := by
  have h := Int.mul_tdiv_add_tmod x BIG_PRIME
  exact Int.modEq_iff_dvd.mpr ⟨x.tdiv BIG_PRIME, by omega⟩

theorem IsHashcode.nil : IsHashcode [] 0 :=
  ⟨Int.ModEq.refl 0, by decide, by decide, iff_of_true le_rfl recovers_nil⟩

theorem IsHashcode.concat (H : IsHashcode w p) (c : Int8) :
    ∃ m q, mmul p 256 = some m ∧ madd m c.toInt = some q ∧ IsHashcode (w ++ [c]) q := by
  have hlow := H.lower
  have hup := H.upper
  have hc := CString.toInt_bounds c
  have hb := carry_bounds w
  have hB : BIG_PRIME = 1560007 := rfl
  have hm : mmul p 256 = some ((p * 256).tmod BIG_PRIME) := by
    rw [mmul, int_of_bounds (by omega) (by omega)]
    rfl
  have hcongr : (p * 256).tmod BIG_PRIME + c.toInt ≡ polynomial (w ++ [c]) [ZMOD BIG_PRIME] := by
    rw [polynomial_concat]
    refine ((tmod_modEq_bigPrime _).trans ?_).add_right _
    rw [mul_comm]
    exact H.congr.mul_left 256
  have hsum := tmod_of_congr H.congr
  generalize (p * 256).tmod BIG_PRIME = m at *
  have hmb : -BIG_PRIME < m ∧ m < BIG_PRIME := by
    rw [hsum]
    split_ifs <;> omega
  have hsign : (0 ≤ m + c.toInt) ↔ Recovers (w ++ [c]) := by
    rw [recovers_concat, ← H.sign, Lifts, Dips, hsum]
    split_ifs <;> omega
  have hadd : madd m c.toInt =
      some (m + c.toInt - if m + c.toInt > BIG_PRIME then BIG_PRIME else 0) := by
    rw [madd, int_of_bounds (by omega) (by omega), Option.bind_eq_bind, Option.bind_some]
    split_ifs
    · exact int_of_bounds (by omega) (by omega)
    · rw [sub_zero]
  refine ⟨m, _, hm, hadd, ?_⟩
  split_ifs with h
  · refine ⟨(Int.modEq_iff_dvd.mpr ⟨1, by ring⟩).trans hcongr, by omega, by omega, ?_⟩
    rw [← hsign]
    omega
  · rw [sub_zero]
    exact ⟨hcongr, by omega, by omega, hsign⟩

theorem hashcodeLoop_isHashcode (H : IsHashcode w p) (hi : 0 ≤ i) (hlen : i + s.length < 2 ^ 31) :
    ∃ h, hashcodeLoop s i p = some h ∧ IsHashcode (w ++ s) h := by
  induction s generalizing w i p with
  | nil => exact ⟨p, rfl, by rwa [List.append_nil]⟩
  | cons c s ih =>
    rw [List.length_cons, Nat.cast_succ] at hlen
    obtain ⟨m, q, hm, hq, H'⟩ := H.concat c
    have hi' : int (i + 1) = some (i + 1) := int_of_bounds (by omega) (by omega)
    obtain ⟨h, hh, H''⟩ := ih (i := i + 1) H' (by omega) (by omega)
    refine ⟨h, ?_, by rwa [List.append_assoc] at H''⟩
    simp only [hashcodeLoop, hm, hq, hi', Option.bind_eq_bind, Option.bind_some, hh]

theorem recovers_of_nonneg (hs : ∀ c ∈ s, 0 ≤ c.toInt) : Recovers s := by
  intro w c hw hd
  have hc := hs c (hw.subset (by simp))
  have hb := carry_bounds w
  exact absurd hd (by unfold Dips; omega)

/-- The hash is good for every table exactly when the key is short enough for the counter and no
char has taken the hash below 0 for good. -/
theorem hashesInto_iff (key : CString) :
    HashesInto key ↔ key.chars.length < 2 ^ 31 ∧ Recovers key.chars := by
  constructor
  · rintro ⟨h, hh, h0, -⟩
    have hlen := hashcode_length hh
    obtain ⟨h', hh', H⟩ := hashcodeLoop_isHashcode IsHashcode.nil le_rfl
      (by rw [zero_add]; exact_mod_cast hlen)
    obtain rfl : h = h' := Option.some.inj (hh.symm.trans hh')
    exact ⟨hlen, H.sign.mp h0⟩
  · rintro ⟨hlen, hr⟩
    obtain ⟨h, hh, H⟩ := hashcodeLoop_isHashcode (s := key.chars) IsHashcode.nil le_rfl
      (by rw [zero_add]; exact_mod_cast hlen)
    have h0 := H.sign.mpr hr
    refine ⟨h, hh, h0, H.upper, H.congr, fun t ht ↦ ⟨h.tmod t.size, if_neg (by omega), ?_⟩⟩
    exact ⟨Int.tmod_nonneg _ h0, Int.tmod_lt_of_pos _ (by omega)⟩

theorem negative_char_misses_table : ¬ HashesInto ⟨[-1], by simp⟩ := by
  rintro ⟨h, hh, h0, -⟩
  have hneg : hashcode ⟨[-1], by simp⟩ = some (-1) := by decide
  obtain rfl : h = -1 := Option.some.inj (hh.symm.trans hneg)
  exact absurd h0 (by decide)

end CsoLabs.Hashtable
