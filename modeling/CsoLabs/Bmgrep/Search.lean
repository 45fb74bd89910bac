import CsoLabs.Bmgrep.Model
import CsoLabs.Foundation.Occurrences

namespace CsoLabs.Bmgrep

open Foundation CInt CArray CString Occurrences

variable {pattern doc : CString}

theorem strlen_eq {s : CString} (h : s.chars.length < 2147483648) : strlen s = s.chars.length :=
  wrapSigned_of_fits (by decide) (fits_int.mpr (by omega))

theorem initDelta1Loop_spec {tmp : List Int8} {patlen index : ℕ} {delta1 : List ℤ}
    (htmp : ∀ c ∈ tmp, 0 < c) (hlen : delta1.length = 128) (hu : index + tmp.length < 2147483648)
    (hp : patlen < 2147483648) :
    ∃ d, initDelta1Loop patlen tmp index delta1 = some d ∧ d.length = 128 := by
  induction tmp generalizing index delta1 with
  | nil => exact ⟨delta1, rfl, hlen⟩
  | cons c tmp ih =>
    rw [List.length_cons] at hu
    have hc : 0 < c.toInt := by simpa using Int8.lt_iff_toInt_lt.mp (htmp c (by simp))
    have hc' := (toInt_bounds c).2
    obtain ⟨d, hd⟩ := store_isSome (a := delta1) (i := c.toInt) hc.le (by omega)
      ((patlen : ℤ) - index - 1)
    obtain ⟨d', hd', hlen'⟩ : ∃ d',
        initDelta1Loop patlen tmp ((index + 1 : ℕ) : ℤ) d = some d' ∧ d'.length = 128 :=
      ih (fun e he ↦ htmp e (by simp [he])) ((length_store hd).trans hlen) (by omega)
    refine ⟨d', ?_, hlen'⟩
    rw [initDelta1Loop, int_of_bounds (by omega) (by omega)]
    simp only [Option.bind_eq_bind, Option.bind_some]
    rw [int_of_bounds (by omega) (by omega), int_of_bounds (by omega) (by omega)]
    simp only [Option.bind_some, hd]
    exact_mod_cast hd'

theorem initDelta1_spec (hp : pattern.Ascii) (hlen : pattern.chars.length < 2147483648) :
    ∃ d, initDelta1 pattern = some d := by
  obtain ⟨d, hd, -⟩ : ∃ d, initDelta1Loop pattern.chars.length pattern.chars ((0 : ℕ) : ℤ)
      (List.replicate 128 (-1)) = some d ∧ d.length = 128 :=
    initDelta1Loop_spec hp (by simp) (by omega) hlen
  exact ⟨_, by rw [initDelta1, strlen_eq hlen, ← Nat.cast_zero, hd]; rfl⟩

theorem initDelta1Loop_overflow {tmp : List Int8} {patlen : ℤ} {index : ℕ} {delta1 : List ℤ}
    (hi : index < 2147483648) (hlen : 2147483648 ≤ index + tmp.length) :
    initDelta1Loop patlen tmp index delta1 = none := by
  induction tmp generalizing index delta1 with
  | nil =>
    rw [List.length_nil] at hlen
    omega
  | cons c tmp ih =>
    rw [List.length_cons] at hlen
    rw [Option.eq_none_iff_forall_ne_some]
    intro d hd
    simp only [initDelta1Loop, Option.bind_eq_bind, Option.bind_eq_some_iff] at hd
    obtain ⟨x, -, y, -, d', -, index', hindex, hd⟩ := hd
    obtain ⟨hfits, rfl⟩ := checked_eq_some.mp hindex
    have hbound := fits_int.mp hfits
    have hrec : initDelta1Loop patlen tmp ((index + 1 : ℕ) : ℤ) d' = none :=
      ih (by omega) (by omega)
    rw [Nat.cast_add_one, hd] at hrec
    cases hrec

theorem initDelta1_overflow (hlen : 2147483648 ≤ pattern.chars.length) :
    initDelta1 pattern = none := by
  have hloop : initDelta1Loop (strlen pattern) pattern.chars ((0 : ℕ) : ℤ)
      (List.replicate 128 (-1)) = none := initDelta1Loop_overflow (by omega) (by omega)
  rw [Nat.cast_zero] at hloop
  rw [initDelta1, hloop]
  rfl

theorem findRprInner_spec {i k n : ℕ} {matchpos : ℤ} (hi : i < pattern.chars.length)
    (hk : k + n < pattern.chars.length) (hl : -1 ≤ matchpos)
    (hu : matchpos < pattern.chars.length) :
    ∃ m, findRprInner pattern i n k matchpos = some m ∧ -1 ≤ m ∧ m < pattern.chars.length := by
  induction n generalizing k matchpos with
  | zero => exact ⟨matchpos, rfl, hl, hu⟩
  | succ n ih =>
    rw [findRprInner, read_lt (by omega : k < pattern.chars.length), read_lt hi]
    simp only [Option.bind_eq_bind, Option.bind_some]
    rw [← Nat.cast_add_one]
    apply ih (by omega) <;> split_ifs <;> omega

theorem findRprOuter_spec {i n : ℕ} {j : ℤ} {matchpos : ℤ} (hj : j < i)
    (hi : i + n ≤ pattern.chars.length) (hl : -1 ≤ matchpos)
    (hu : matchpos < pattern.chars.length) :
    ∃ m, findRprOuter pattern j n i matchpos = some m ∧ -1 ≤ m ∧ m < pattern.chars.length := by
  induction n generalizing i matchpos with
  | zero => exact ⟨matchpos, rfl, hl, hu⟩
  | succ n ih =>
    obtain ⟨m, hm, hml, hmu⟩ : ∃ m, findRprInner pattern i j.toNat ((0 : ℕ) : ℤ) matchpos =
        some m ∧ -1 ≤ m ∧ m < pattern.chars.length :=
      findRprInner_spec (by omega) (by omega) hl hu
    rw [Nat.cast_zero] at hm
    rw [findRprOuter, hm, Option.bind_eq_bind, Option.bind_some, ← Nat.cast_add_one]
    exact ih (by push_cast; omega) (by omega) hml hmu

theorem findRpr_spec {j : ℕ} (hlen : pattern.chars.length < 2147483648)
    (hj : j < pattern.chars.length) :
    ∃ r, findRpr pattern j = some r ∧ -1 ≤ r ∧ r ≤ pattern.chars.length := by
  rw [findRpr, strlen_eq hlen, if_neg (by omega)]
  by_cases hlast : (j : ℤ) = pattern.chars.length - 1
  · exact ⟨1, if_pos hlast, by omega, by omega⟩
  · rw [if_neg hlast]
    have hn : ((pattern.chars.length : ℤ) - (j + 1)).toNat = pattern.chars.length - (j + 1) := by
      omega
    obtain ⟨m, hm, hl, hu⟩ : ∃ m, findRprOuter pattern j (pattern.chars.length - (j + 1))
        ((j + 1 : ℕ) : ℤ) (-1) = some m ∧ -1 ≤ m ∧ m < pattern.chars.length :=
      findRprOuter_spec (by push_cast; omega) (by omega) le_rfl (by omega)
    push_cast at hm
    exact ⟨m, by rw [hn, hm], hl, hu.le⟩

theorem initDelta2Loop_spec {n i : ℕ} (hlen : pattern.chars.length < 2147483647)
    (hi : i + n ≤ pattern.chars.length) :
    ∃ d, initDelta2Loop pattern n i = some d ∧ d.length = n := by
  induction n generalizing i with
  | zero => exact ⟨[], rfl, rfl⟩
  | succ n ih =>
    obtain ⟨d, hd, hdlen⟩ := ih (i := i + 1) (by omega)
    obtain ⟨r, hr, hl, hu⟩ : ∃ r, findRpr pattern i = some r ∧ -1 ≤ r ∧
        r ≤ pattern.chars.length := findRpr_spec (by omega) (by omega)
    push_cast at hd
    rw [initDelta2Loop, hr, strlen_eq (by omega)]
    simp only [Option.bind_eq_bind, Option.bind_some]
    rw [int_of_bounds (by omega) (by omega), hd]
    exact ⟨_, rfl, by simp [hdlen]⟩

theorem initDelta2_spec (hlen : pattern.chars.length < 2147483647) :
    ∃ d, initDelta2 pattern = some d ∧ d.length = pattern.chars.length := by
  obtain ⟨d, hd, hdlen⟩ := initDelta2Loop_spec (n := pattern.chars.length) (i := 0) hlen (by omega)
  exact ⟨d, by rw [initDelta2, strlen_eq (by omega), Int.toNat_natCast, ← Nat.cast_zero, hd], hdlen⟩

theorem findRpr_zero (hlen : pattern.chars.length < 2147483648)
    (hl : 1 < pattern.chars.length) : findRpr pattern 0 = some (-1) := by
  have houter : ∀ n i, findRprOuter pattern 0 n i (-1) = some (-1) := by
    intro n
    induction n with
    | zero => exact fun i ↦ rfl
    | succ n ih => exact fun i ↦ ih (i + 1)
  rw [findRpr, strlen_eq hlen, if_neg (by omega), if_neg (by omega), houter]

theorem initDelta2_overflow (hlen : pattern.chars.length = 2147483647) :
    initDelta2 pattern = none := by
  have hstr := strlen_eq (s := pattern) (by omega)
  obtain ⟨n, hn⟩ : ∃ n, (strlen pattern).toNat = n + 1 := ⟨2147483646, by omega⟩
  rw [initDelta2, hn, initDelta2Loop, findRpr_zero (by omega) (by omega), hstr, hlen]
  simp only [Option.bind_eq_bind, Option.bind_some]
  rw [int_eq_none (by omega)]
  rfl

/-- The first comparison is with the NUL of the pattern, and `delta2` has no element for it. -/
theorem boyerMooreLoop_none {delta1 delta2 : List ℤ} {fuel : ℕ} {nAligns : ℤ}
    (hlen : pattern.chars.length < 2147483648) (hp : pattern.chars ≠ [])
    (hdelta2 : delta2.length = pattern.chars.length)
    (hlt : (pattern.chars.length : ℤ) < strlen doc) :
    boyerMooreLoop pattern doc delta1 delta2 fuel pattern.chars.length nAligns = none := by
  cases fuel with
  | zero => rfl
  | succ fuel =>
    obtain ⟨m, hm⟩ : ∃ m, pattern.chars.length = m + 1 :=
      Nat.exists_eq_succ_of_ne_zero (List.length_pos_iff.mpr hp).ne'
    have hdoc : pattern.chars.length < doc.chars.length := by
      have := wrapSigned_le (w := 32) (Int.natCast_nonneg doc.chars.length)
      rw [strlen] at hlt
      omega
    have hc : doc.chars[pattern.chars.length] ≠ 0 := doc.nonNul _ (List.getElem_mem _)
    have hread : pattern.read (m + 1) = some 0 := by
      have := read_length pattern
      rw [hm] at this
      exact_mod_cast this
    have hstart : align pattern doc (m + 1) pattern.chars.length nAligns =
        (int (nAligns + 1)).map fun n ↦ ⟨false, pattern.chars.length, m + 1, n⟩ := by
      rw [align, hread, read_lt hdoc]
      simp only [Option.bind_eq_bind, Option.bind_some, if_neg hc]
      rw [Option.map_eq_bind]
      rfl
    have hload : load delta2 ((m : ℤ) + 1) = none := load_eq_none (by omega)
    rw [Option.eq_none_iff_forall_ne_some, boyerMooreLoop, if_pos hlt, strlen_eq hlen,
      Int.toNat_natCast, hm]
    rw [hm] at hstart
    rw [hstart]
    intro r hr
    simp only [Option.bind_eq_bind, Option.bind_eq_some_iff, Option.map_eq_some_iff] at hr
    obtain ⟨-, ⟨n, -, rfl⟩, hr⟩ := hr
    simp [hload] at hr

def SearchExact (pattern doc : CString) : Prop := ∀ nAligns, ∃ fuel n,
  boyerMoore fuel pattern doc nAligns = some (first (occurrences pattern.chars doc.chars), n)

theorem boyerMoore_eq_some {fuel : ℕ} {nAligns n r : ℤ} (hp : pattern.chars ≠ [])
    (h : boyerMoore fuel pattern doc nAligns = some (r, n)) :
    r = -1 ∧ pattern.chars.length < 2147483647 ∧ strlen doc ≤ pattern.chars.length := by
  simp only [boyerMoore, Option.bind_eq_bind, Option.bind_eq_some_iff] at h
  obtain ⟨delta1, hdelta1, delta2, hdelta2, h⟩ := h
  have hlen : pattern.chars.length < 2147483648 := by
    by_contra hge
    rw [initDelta1_overflow (by omega)] at hdelta1
    cases hdelta1
  have hlen' : pattern.chars.length < 2147483647 := by
    by_contra hge
    rw [initDelta2_overflow (by omega)] at hdelta2
    cases hdelta2
  have hdelta2len : delta2.length = pattern.chars.length := by
    obtain ⟨d, hd, hdlen⟩ := initDelta2_spec hlen'
    rw [← Option.some.inj (hd.symm.trans hdelta2), hdlen]
  have hle : strlen doc ≤ pattern.chars.length := by
    by_contra hgt
    rw [strlen_eq hlen, if_neg (by omega), boyerMooreLoop_none hlen hp hdelta2len (by omega)] at h
    cases h
  refine ⟨?_, hlen', hle⟩
  rw [strlen_eq hlen] at h
  split_ifs at h
  · exact (Prod.mk.inj (Option.some.inj h)).1.symm
  · cases fuel with
    | zero => cases h
    | succ fuel =>
      rw [boyerMooreLoop, if_neg (by omega)] at h
      exact (Prod.mk.inj (Option.some.inj h)).1.symm

theorem boyerMoore_short {nAligns : ℤ} (hascii : pattern.Ascii)
    (hlen : pattern.chars.length < 2147483647) (hle : strlen doc ≤ pattern.chars.length) :
    boyerMoore 1 pattern doc nAligns = some (-1, nAligns) := by
  have hlen' : pattern.chars.length < 2147483648 := by omega
  obtain ⟨delta1, hdelta1⟩ := initDelta1_spec hascii hlen'
  obtain ⟨delta2, hdelta2, -⟩ := initDelta2_spec hlen
  have hstop : ¬(pattern.chars.length : ℤ) < strlen doc := by omega
  rw [boyerMoore, hdelta1, hdelta2, strlen_eq hlen']
  by_cases hgt : (pattern.chars.length : ℤ) > strlen doc
  · simp [hgt]
  · simp [hgt, hstop, boyerMooreLoop]

/-- The search starts one position too far to the right, at the NUL of the pattern, so it gives an
answer only where it need not look at the document, and the answer is -1. -/
theorem searchExact_iff (hp : pattern.chars ≠ []) (hascii : pattern.Ascii) (doc : CString) :
    SearchExact pattern doc ↔ pattern.chars.length < 2147483647 ∧
      strlen doc ≤ pattern.chars.length ∧ ∀ i, ¬OccursAt pattern.chars doc.chars i := by
  have hfirst := @first_occurrences _ _ pattern.chars doc.chars hp
  constructor
  · intro h
    obtain ⟨fuel, n, hrun⟩ := h 0
    obtain ⟨hr, hlen, hle⟩ := boyerMoore_eq_some hp hrun
    refine ⟨hlen, hle, ?_⟩
    rcases hfirst with ⟨-, hno⟩ | ⟨i, hi, -⟩
    · exact hno
    · omega
  · rintro ⟨hlen, hle, hno⟩ nAligns
    rcases hfirst with ⟨hr, -⟩ | ⟨i, -, hocc, -⟩
    · exact ⟨1, nAligns, by rw [boyerMoore_short hascii hlen hle, hr]⟩
    · exact absurd hocc (hno i)

theorem searchExact_iff_strA : strA.chars ≠ [] ∧ strA.Ascii ∧
    (SearchExact strA strB ↔ strA.chars.length < 2147483647 ∧
      strlen strB ≤ strA.chars.length ∧ ∀ i, ¬OccursAt strA.chars strB.chars i) :=
  ⟨by decide, by decide, searchExact_iff (by decide) (by decide) strB⟩

theorem whole_document_not_found : ¬∀ pattern doc : CString, pattern.chars ≠ [] →
    pattern.Ascii → doc.Ascii → SearchExact pattern doc := by
  intro h
  obtain ⟨fuel, n, hrun⟩ := h strA strA (by decide) (by decide) (by decide) 0
  obtain ⟨hr, -⟩ := boyerMoore_eq_some (by decide) hrun
  exact absurd hr (by decide)

end CsoLabs.Bmgrep
