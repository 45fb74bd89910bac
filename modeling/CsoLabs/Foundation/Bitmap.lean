import Mathlib.Tactic

namespace CsoLabs.Foundation.Bitmap

/-- Bit `p` of an array of bytes, the leftmost bit of a byte being its first one. -/
def bit (buf : List (BitVec 8)) (p : ℕ) : Bool := (buf.getD (p / 8) 0).getLsbD (7 - p % 8)

def withBit (b : BitVec 8) (k : ℕ) : BitVec 8 :=
  (b.signExtend 32 ||| 0x80#32 >>> k).truncate 8

variable {buf : List (BitVec 8)} {p q : ℕ}

theorem getLsbD_withBit (b : BitVec 8) {k j : ℕ} (hk : k < 8) (hj : j < 8) :
    (withBit b k).getLsbD j = (b.getLsbD j || decide (j = 7 - k)) := by
  have hshift : (0x80#32 >>> k).getLsbD j = decide (j = 7 - k) := by
    have hpow : (0x80#32).getLsbD (k + j) = decide (k + j = 7) :=
      BitVec.getLsbD_twoPow (w := 32) 7 (k + j) |>.trans (by simp; omega)
    rw [BitVec.getLsbD_ushiftRight, hpow]
    exact decide_eq_decide.mpr (by omega)
  have hsign : (b.signExtend 32).getLsbD j = b.getLsbD j := by
    rw [BitVec.getLsbD_signExtend, if_pos hj]
    simp only [decide_eq_true (by omega : j < 32), Bool.true_and]
  rw [withBit, BitVec.truncate_eq_setWidth, BitVec.getLsbD_setWidth, BitVec.getLsbD_or, hsign,
    hshift,
    decide_eq_true hj, Bool.true_and]

theorem bit_eq (hp : p / 8 < buf.length) : bit buf p = buf[p / 8].getLsbD (7 - p % 8) := by
  rw [bit, List.getD_eq_getElem?_getD, List.getElem?_eq_getElem hp, Option.getD_some]

theorem bit_set (hq : q / 8 < buf.length) :
    bit (buf.set (q / 8) (withBit buf[q / 8] (q % 8))) p = (bit buf p || decide (p = q)) := by
  by_cases hpq : p / 8 = q / 8
  · have hp : p / 8 < buf.length := hpq ▸ hq
    rw [bit_eq (by rwa [List.length_set]), bit_eq hp]
    simp only [hpq, List.getElem_set_self]
    rw [getLsbD_withBit _ (Nat.mod_lt _ (by omega)) (by omega)]
    congr 1
    exact decide_eq_decide.mpr (by omega)
  · have hne : p ≠ q := fun h ↦ hpq (h ▸ rfl)
    rw [bit, bit, List.getD_eq_getElem?_getD, List.getElem?_set_ne (Ne.symm hpq),
      decide_eq_false hne, Bool.or_false, List.getD_eq_getElem?_getD]

theorem bit_replicate (n : ℕ) : bit (List.replicate n 0) p = false := by
  have hzero : (List.replicate n (0 : BitVec 8)).getD (p / 8) 0 = 0 := by
    rw [List.getD_eq_getElem?_getD, List.getElem?_replicate]
    split_ifs <;> rfl
  rw [bit, hzero]
  exact BitVec.getLsbD_zero

theorem eq_of_bit_eq {buf' : List (BitVec 8)} (hlen : buf.length = buf'.length)
    (h : ∀ p, bit buf p = bit buf' p) : buf = buf' := by
  apply List.ext_getElem hlen
  intro k hk hk'
  apply BitVec.eq_of_getLsbD_eq
  intro j hj
  have hdiv : (8 * k + (7 - j)) / 8 = k := by omega
  have hmod : 7 - (8 * k + (7 - j)) % 8 = j := by omega
  have hbit := h (8 * k + (7 - j))
  rw [bit_eq (by omega), bit_eq (by omega)] at hbit
  simpa only [hdiv, hmod] using hbit

theorem mask_ne_zero (b : BitVec 8) (k : ℕ) :
    b.signExtend 32 &&& 0x1#32 <<< (7 - k) ≠ 0 ↔ b.getLsbD (7 - k) = true := by
  have hne : BitVec.twoPow 32 (7 - k) ≠ 0 := by
    intro h
    have hbit := congrArg (fun v ↦ v.getLsbD (7 - k)) h
    simp only [BitVec.getLsbD_twoPow, BitVec.ofNat_eq_ofNat, BitVec.getLsbD_zero] at hbit
    simp at hbit
    omega
  have hsign : (b.signExtend 32).getLsbD (7 - k) = b.getLsbD (7 - k) := by
    rw [BitVec.getLsbD_signExtend, if_pos (by omega)]
    simp only [decide_eq_true (by omega : 7 - k < 32), Bool.true_and]
  rw [← BitVec.twoPow_eq, BitVec.and_twoPow, hsign]
  split_ifs with hb
  · exact ⟨fun _ ↦ hb, fun _ ↦ hne⟩
  · exact ⟨fun h ↦ absurd rfl h, fun h ↦ absurd h hb⟩

end CsoLabs.Foundation.Bitmap
