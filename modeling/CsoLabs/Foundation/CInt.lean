import Mathlib.Tactic

namespace CsoLabs.Foundation.CInt

def Fits (w : ℕ) (x : ℤ) : Prop := -2 ^ (w - 1) ≤ x ∧ x < 2 ^ (w - 1)

instance (w : ℕ) (x : ℤ) : Decidable (Fits w x) := inferInstanceAs (Decidable (_ ∧ _))

/-- A signed result outside its type is undefined behaviour, here `none`. -/
def checked (w : ℕ) (x : ℤ) : Option ℤ := if Fits w x then some x else none

def wrapSigned (w : ℕ) (x : ℤ) : ℤ := x.bmod (2 ^ w)

def wrapUnsigned (w : ℕ) (x : ℤ) : ℕ := (x % 2 ^ w).toNat

abbrev int (x : ℤ) : Option ℤ := checked 32 x
abbrev longLong (x : ℤ) : Option ℤ := checked 64 x

theorem checked_of_fits {w : ℕ} {x : ℤ} (h : Fits w x) : checked w x = some x := if_pos h

theorem checked_eq_some {w : ℕ} {x y : ℤ} : checked w x = some y ↔ Fits w x ∧ x = y := by
  unfold checked
  split_ifs with h <;> simp [h]

theorem checked_eq_none {w : ℕ} {x : ℤ} : checked w x = none ↔ ¬ Fits w x := by
  unfold checked
  split_ifs with h <;> simp [h]

theorem fits_int {x : ℤ} : Fits 32 x ↔ -2147483648 ≤ x ∧ x < 2147483648 := by
  simp [Fits]

theorem fits_longLong {x : ℤ} :
    Fits 64 x ↔ -9223372036854775808 ≤ x ∧ x < 9223372036854775808 := by
  simp [Fits]

theorem int_of_bounds {x : ℤ} (hl : -2147483648 ≤ x) (hu : x < 2147483648) : int x = some x :=
  checked_of_fits (fits_int.mpr ⟨hl, hu⟩)

theorem int_eq_none {x : ℤ} (h : x < -2147483648 ∨ 2147483648 ≤ x) : int x = none :=
  checked_eq_none.mpr fun hf ↦ by have := fits_int.mp hf; omega

theorem longLong_of_bounds {x : ℤ} (hl : -9223372036854775808 ≤ x)
    (hu : x < 9223372036854775808) : longLong x = some x :=
  checked_of_fits (fits_longLong.mpr ⟨hl, hu⟩)

theorem wrapSigned_of_fits {w : ℕ} (hw : 0 < w) {x : ℤ} (h : Fits w x) : wrapSigned w x = x := by
  obtain ⟨k, rfl⟩ : ∃ k, w = k + 1 := ⟨w - 1, by omega⟩
  obtain ⟨hl, hu⟩ := h
  simp only [Nat.add_sub_cancel] at hl hu
  unfold wrapSigned
  rw [Int.bmod_eq_iff (by positivity)]
  have hp : ((2 ^ (k + 1) : ℕ) : ℤ) = 2 * 2 ^ k := by push_cast; ring
  rw [hp]
  refine ⟨by omega, by omega, by simp⟩

theorem fits_wrapSigned (x : ℤ) : Fits 32 (wrapSigned 32 x) := by
  unfold wrapSigned
  have hl := Int.le_bmod (x := x) (m := 2 ^ 32) (by decide)
  have hu := Int.bmod_lt (x := x) (m := 2 ^ 32) (by decide)
  exact fits_int.mpr ⟨by omega, by omega⟩

theorem wrapSigned_le {w : ℕ} {x : ℤ} (h : 0 ≤ x) : wrapSigned w x ≤ x := by
  obtain ⟨n, rfl⟩ := Int.eq_ofNat_of_zero_le h
  have hmod : ((n : ℤ) % (2 ^ w : ℕ)) ≤ n := by exact_mod_cast Nat.mod_le n (2 ^ w)
  rw [wrapSigned, Int.bmod_def]
  split_ifs <;> omega

theorem wrapUnsigned_of_lt {w : ℕ} {x : ℤ} (hl : 0 ≤ x) (hu : x < 2 ^ w) :
    wrapUnsigned w x = x.toNat := by
  rw [wrapUnsigned, Int.emod_eq_of_lt hl hu]

end CsoLabs.Foundation.CInt
