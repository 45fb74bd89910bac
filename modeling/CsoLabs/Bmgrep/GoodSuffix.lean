import CsoLabs.Bmgrep.Search

namespace CsoLabs.Bmgrep

open Foundation CInt CArray CString

/-- The part of the pattern behind position `j` occurs again at `k`, where positions below 0 match
any char, and with another char than the one at `j` in front of it. -/
structure Reoccurs (pattern : CString) (j : ℕ) (k : ℤ) : Prop where
  le : k ≤ j
  suffix : ∀ m : ℕ, j + 1 + m < pattern.chars.length → 0 ≤ k + m →
    pattern.chars[j + 1 + m]? = pattern.chars[(k + m).toNat]?
  preceded : k ≤ 0 ∨ pattern.chars[(k - 1).toNat]? ≠ pattern.chars[j]?

/-- The table is the one of the good suffixes: 1 for the last position, and for any other the
distance to the greatest position where the suffix occurs again. -/
def GoodSuffix (pattern : CString) : Prop :=
  ∃ delta2, initDelta2 pattern = some delta2 ∧ delta2.length = pattern.chars.length ∧
    load delta2 (pattern.chars.length - 1) = some 1 ∧
    ∀ j : ℕ, j + 1 < pattern.chars.length → ∃ k : ℤ, IsGreatest {k | Reoccurs pattern j k} k ∧
      load delta2 j = some (pattern.chars.length - k)

variable {pattern : CString} {delta2 : List ℤ} {n i m : ℕ}

theorem initDelta2Loop_getElem (h : initDelta2Loop pattern n i = some delta2) :
    delta2.length = n ∧ ∀ m < n, ∃ r x, findRpr pattern (i + m : ℕ) = some r ∧
      int (strlen pattern - r) = some x ∧ delta2[m]? = some x := by
  induction n generalizing i delta2 with
  | zero =>
    obtain rfl := Option.some.inj h
    exact ⟨rfl, fun m hm ↦ absurd hm (Nat.not_lt_zero m)⟩
  | succ n ih =>
    simp only [initDelta2Loop, Option.bind_eq_bind, Option.bind_eq_some_iff] at h
    obtain ⟨r, hr, x, hx, rest, hrest, h⟩ := h
    obtain rfl := Option.some.inj h
    obtain ⟨hlen, hspec⟩ := ih (i := i + 1) (by exact_mod_cast hrest)
    refine ⟨by rw [List.length_cons, hlen], fun m hm ↦ ?_⟩
    cases m with
    | zero => exact ⟨r, x, hr, hx, rfl⟩
    | succ m =>
      obtain ⟨r', x', hr', hx', helem⟩ := hspec m (Nat.lt_of_succ_lt_succ hm)
      rw [Nat.add_assoc, Nat.add_comm 1] at hr'
      exact ⟨r', x', hr', hx', helem⟩

theorem findRpr_last (hlen : strlen pattern = pattern.chars.length) (hpos : 0 < pattern.chars.length) :
    findRpr pattern (pattern.chars.length - 1 : ℕ) = some 1 := by
  rw [findRpr, hlen, if_neg (by omega), if_pos (by omega)]

/-- `find_rpr` returns 1 for the last position, so the last element is right only in a pattern of
two chars. -/
theorem GoodSuffix.length (h : GoodSuffix pattern) : pattern.chars.length = 2 := by
  obtain ⟨delta2, hdelta2, hlen, hlast, -⟩ := h
  have hpos : 0 < pattern.chars.length := by
    by_contra hzero
    rw [load, if_neg (by omega)] at hlast
    cases hlast
  obtain ⟨hlen', hspec⟩ := initDelta2Loop_getElem (i := 0) hdelta2
  have hstr : strlen pattern = pattern.chars.length := by omega
  obtain ⟨r, x, hr, hx, helem⟩ := hspec (pattern.chars.length - 1) (by omega)
  rw [Nat.zero_add, findRpr_last hstr hpos] at hr
  obtain rfl := Option.some.inj hr
  obtain ⟨-, rfl⟩ := checked_eq_some.mp hx
  rw [← Nat.cast_pred hpos, load_natCast, helem, Option.some.injEq, hstr] at hlast
  omega

theorem initDelta2_two (hlen : pattern.chars.length = 2) :
    ∃ delta2, initDelta2 pattern = some delta2 ∧ delta2.length = pattern.chars.length ∧
      load delta2 0 = some 3 ∧ load delta2 (pattern.chars.length - 1) = some 1 := by
  obtain ⟨delta2, hdelta2, hlen'⟩ : ∃ d, initDelta2 pattern = some d ∧
      d.length = pattern.chars.length := initDelta2_spec (by omega)
  have hstr : strlen pattern = pattern.chars.length := strlen_eq (by omega)
  obtain ⟨-, hspec⟩ := initDelta2Loop_getElem (i := 0) hdelta2
  refine ⟨delta2, hdelta2, hlen', ?_, ?_⟩
  · obtain ⟨r, x, hr, hx, helem⟩ := hspec 0 (by omega)
    rw [Nat.zero_add, Nat.cast_zero, findRpr_zero (by omega) (by omega)] at hr
    obtain rfl := Option.some.inj hr
    obtain ⟨-, rfl⟩ := checked_eq_some.mp hx
    rw [← Nat.cast_zero, load_natCast, helem, hstr, hlen]
    rfl
  · obtain ⟨r, x, hr, hx, helem⟩ := hspec (pattern.chars.length - 1) (by omega)
    rw [Nat.zero_add, findRpr_last hstr (by omega)] at hr
    obtain rfl := Option.some.inj hr
    obtain ⟨-, rfl⟩ := checked_eq_some.mp hx
    rw [← Nat.cast_pred (by omega), load_natCast, helem, hstr, hlen]
    rfl

theorem reoccurs_zero_iff {k : ℤ} (hlen : pattern.chars.length = 2) : Reoccurs pattern 0 k ↔
    k < 0 ∨ k = 0 ∧ pattern.chars[1]? = pattern.chars[0]? := by
  constructor
  · intro h
    rcases h.le.lt_or_eq with hlt | rfl
    · exact .inl hlt
    · exact .inr ⟨rfl, h.suffix 0 (by omega) le_rfl⟩
  · intro h
    rcases h with hlt | ⟨rfl, heq⟩
    · exact ⟨hlt.le, fun m hm hk ↦ by omega, .inl hlt.le⟩
    · refine ⟨le_rfl, fun m hm _ ↦ ?_, .inl le_rfl⟩
      obtain rfl : m = 0 := by omega
      exact heq

/-- The table follows its definition for two different chars and for no other pattern. -/
theorem goodSuffix_iff (pattern : CString) :
    GoodSuffix pattern ↔ ∃ a b, pattern.chars = [a, b] ∧ a ≠ b := by
  constructor
  · intro h
    obtain ⟨a, b, hchars⟩ := List.length_eq_two.mp h.length
    refine ⟨a, b, hchars, fun hab ↦ ?_⟩
    subst hab
    have hlen := h.length
    obtain ⟨delta2, hdelta2, -, -, hspec⟩ := h
    obtain ⟨delta2', hdelta2', -, hfirst, -⟩ := initDelta2_two hlen
    obtain rfl := Option.some.inj (hdelta2.symm.trans hdelta2')
    obtain ⟨k, hk, hload⟩ := hspec 0 (by omega)
    have hzero : (0 : ℤ) ≤ k := hk.2 ((reoccurs_zero_iff hlen).mpr (.inr ⟨rfl, by rw [hchars]; rfl⟩))
    rw [Nat.cast_zero, hfirst, Option.some.injEq, hlen] at hload
    omega
  · intro h
    obtain ⟨a, b, hchars, hab⟩ := h
    have hlen : pattern.chars.length = 2 := by rw [hchars]; rfl
    obtain ⟨delta2, hdelta2, hlen', hfirst, hlast⟩ := initDelta2_two hlen
    refine ⟨delta2, hdelta2, hlen', hlast, fun j hj ↦ ?_⟩
    obtain rfl : j = 0 := by omega
    refine ⟨-1, ⟨(reoccurs_zero_iff hlen).mpr (.inl (by decide)), fun k hk ↦ ?_⟩, ?_⟩
    · rcases (reoccurs_zero_iff hlen).mp hk with hlt | ⟨-, heq⟩
      · omega
      · rw [hchars] at heq
        exact absurd (Option.some.inj heq).symm hab
    · rw [Nat.cast_zero, hfirst, hlen]
      rfl

def babb : CString := ⟨[98, 97, 98, 98], by simp⟩

theorem not_goodSuffix_babb : ¬ GoodSuffix babb := fun h ↦ absurd h.length (by decide)

end CsoLabs.Bmgrep
