import CsoLabs.Foundation.CString
import Mathlib.Data.List.Lex

namespace CsoLabs.Foundation.CString

def uchars (s : CString) : List ℤ := s.chars.map uchar

theorem uchars_injective : Function.Injective uchars := fun _ _ h ↦
  ext (List.map_injective_iff.mpr uchar_injective h)

/-- Strings in the order of `strcmp`. -/
instance linearOrder : LinearOrder CString where
  le s t := s.uchars ≤ t.uchars
  lt s t := s.uchars < t.uchars
  le_refl s := le_refl s.uchars
  le_trans s t u := le_trans (a := s.uchars)
  le_antisymm _ _ h h' := uchars_injective (le_antisymm h h')
  le_total s t := le_total s.uchars t.uchars
  lt_iff_le_not_ge s t := lt_iff_le_not_ge (a := s.uchars)
  toDecidableLE s t := inferInstanceAs (Decidable (s.uchars ≤ t.uchars))
  toDecidableLT s t := inferInstanceAs (Decidable (s.uchars < t.uchars))
  toDecidableEq := inferInstance

theorem uchar_pos {c : Int8} (hc : c ≠ 0) : 0 < uchar c := by
  have h : uchar c ≠ 0 := fun h ↦ hc (uchar_injective (h.trans (by decide : (0 : ℤ) = uchar 0)))
  have : 0 ≤ uchar c := Int.natCast_nonneg _
  omega

theorem strcmpLoop_neg {s t : List Int8} (ht : ∀ c ∈ t, c ≠ 0) :
    strcmpLoop s t < 0 ↔ s.map uchar < t.map uchar := by
  induction s generalizing t with
  | nil =>
    cases t with
    | nil => simp [strcmpLoop]
    | cons d t => simpa [strcmpLoop] using uchar_pos (ht d (by simp))
  | cons c s ih =>
    cases t with
    | nil =>
      have : 0 ≤ uchar c := Int.natCast_nonneg _
      simpa [strcmpLoop] using this
    | cons d t =>
      rw [strcmpLoop, List.map_cons, List.map_cons, List.cons_lt_cons_iff]
      split_ifs with hcd
      · subst hcd
        rw [ih fun e he ↦ ht e (by simp [he])]
        simp
      · have : uchar c ≠ uchar d := fun h ↦ hcd (uchar_injective h)
        simp only [this, false_and, or_false]
        omega

theorem strcmpLoop_swap (s t : List Int8) : strcmpLoop t s = -strcmpLoop s t := by
  induction s generalizing t with
  | nil => cases t <;> simp [strcmpLoop]
  | cons c s ih =>
    cases t with
    | nil => simp [strcmpLoop]
    | cons d t =>
      rw [strcmpLoop, strcmpLoop]
      by_cases hcd : c = d
      · rw [if_pos hcd, if_pos hcd.symm, ih]
      · rw [if_neg hcd, if_neg (Ne.symm hcd)]
        omega

theorem strcmp_neg {s t : CString} : s.strcmp t < 0 ↔ s < t := strcmpLoop_neg t.nonNul

theorem strcmp_pos {s t : CString} : 0 < s.strcmp t ↔ t < s := by
  rw [← strcmp_neg, strcmp, strcmp, strcmpLoop_swap s.chars t.chars]
  omega

end CsoLabs.Foundation.CString
