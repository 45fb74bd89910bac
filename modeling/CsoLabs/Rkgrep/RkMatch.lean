import CsoLabs.Foundation.Occurrences
import CsoLabs.Rkgrep.RollingHash

namespace CsoLabs.Rkgrep

open Foundation CInt CString Occurrences

theorem occursAt_cons {pat doc : List Int8} {p : Int8} {i : ℕ} (hi : i < doc.length) :
    OccursAt (p :: pat) doc i ↔ p = doc[i] ∧ OccursAt pat doc (i + 1) := by
  rw [OccursAt, List.drop_eq_getElem_cons hi, List.cons_prefix_cons, OccursAt]

theorem not_occursAt_end {pat doc : List Int8} {p : Int8} :
    ¬ OccursAt (p :: pat) doc doc.length := by
  simp [OccursAt]

theorem rkVerify_eq (doc : CString) (pat : List Int8) (hpat : ∀ c ∈ pat, c ≠ 0) (i : ℕ)
    (hi : i ≤ doc.chars.length) (found : Bool) :
    rkVerify doc pat i found =
      some (if pat = [] then found else decide (OccursAt pat doc.chars i)) := by
  induction pat generalizing i found with
  | nil => rfl
  | cons p pat ih =>
    rcases Nat.lt_or_eq_of_le hi with hlt | rfl
    · simp only [rkVerify, read_lt hlt, Option.bind_eq_bind, Option.bind_some, occursAt_cons hlt]
      by_cases hp : p = doc.chars[i]
      · have h := ih (fun c hc ↦ hpat c (List.mem_cons_of_mem p hc)) (i + 1) hlt true
        rw [if_pos hp]
        push_cast at h
        rw [h]
        by_cases hn : pat = []
        · simp [hn, hp, OccursAt]
        · simp [hn, hp]
      · simp [hp]
    · have hp := hpat p List.mem_cons_self
      simp [rkVerify, read_length, hp, not_occursAt_end]

theorem tally_eq {r : ℤ × ℤ} {i : ℕ} (hl : 0 ≤ r.1) (hu : r.1 < 2147483647) (found : Bool) :
    tally r i found = some (if found then record r i else r) := by
  cases found
  · rfl
  · simp [tally, record, int_of_bounds (show -2147483648 ≤ r.1 + 1 by omega) (by omega)]

def window (doc : CString) (m i : ℕ) : List Int8 := (doc.chars.drop i).take m

theorem window_cons {doc : CString} {m i : ℕ} (h : i < doc.chars.length) :
    window doc (m + 1) i = doc.chars[i] :: window doc m (i + 1) := by
  rw [window, List.drop_eq_getElem_cons h, List.take_succ_cons, window]

theorem window_snoc {doc : CString} {m i : ℕ} (h : i + m < doc.chars.length) :
    window doc (m + 1) i = window doc m i ++ [doc.chars[i + m]] := by
  have hlt : m < (doc.chars.drop i).length := by rw [List.length_drop]; omega
  rw [window, List.take_succ_eq_append_getElem hlt, List.getElem_drop, window]

theorem length_window {doc : CString} {m i : ℕ} (h : i + m ≤ doc.chars.length) :
    (window doc m i).length = m := by
  rw [window, List.length_take, List.length_drop]; omega

structure RollState (doc : CString) (m i : ℕ) (x : ℤ) : Prop where
  lower : 0 ≤ x
  upper : x < PRIME
  canonical : 0 < m → i + m ≤ doc.chars.length → x = polynomial (window doc m i) % PRIME

theorem read_toInt_nonneg {doc : CString} (hdoc : doc.Ascii) {i : ℕ}
    (hi : i ≤ doc.chars.length) : ∃ c, doc.read i = some c ∧ 0 ≤ c.toInt := by
  rcases Nat.lt_or_eq_of_le hi with hlt | rfl
  · exact ⟨_, read_lt hlt, (hdoc.toInt_pos (List.getElem_mem hlt)).le⟩
  · exact ⟨0, read_length doc, by decide⟩

theorem RollState.next {doc : CString} (hdoc : doc.Ascii) {m i : ℕ} {x : ℤ}
    (hx : RollState doc m i x) (hi : i + m ≤ doc.chars.length) :
    ∃ c d y, doc.read i = some c ∧ doc.read (i + m) = some d ∧
      rkhashNext x (256 ^ m % PRIME) c d = some y ∧ RollState doc m (i + 1) y := by
  have hp : (0 : ℤ) < PRIME := by decide
  obtain ⟨c, hc, hc0⟩ := read_toInt_nonneg hdoc (show i ≤ doc.chars.length by omega)
  obtain ⟨d, hd, hd0⟩ := read_toInt_nonneg hdoc hi
  have hn := rkhashNext_eq hx.lower hx.upper (Int.emod_nonneg (256 ^ m) hp.ne')
    (Int.emod_lt_of_pos (256 ^ m) hp) hc0 hd0
  refine ⟨c, d, _, hc, by exact_mod_cast hd, hn,
    Int.emod_nonneg _ hp.ne', Int.emod_lt_of_pos _ hp, fun hm him ↦ ?_⟩
  obtain ⟨k, rfl⟩ : ∃ k, m = k + 1 := ⟨m - 1, by omega⟩
  have hlt : i < doc.chars.length := by omega
  have hlt' : i + 1 + k < doc.chars.length := by omega
  have hce : c = doc.chars[i] := by
    rw [read_lt hlt, Option.some_inj] at hc; exact hc.symm
  have hde : d = doc.chars[i + 1 + k] := by
    rw [show i + (k + 1) = i + 1 + k by omega, read_lt hlt', Option.some_inj] at hd
    exact hd.symm
  have hs := rkhashNext_slide (w := window doc k (i + 1)) hc0 hd0
  have hw : doc.chars[i] :: window doc k (i + 1) = window doc (k + 1) i := (window_cons hlt).symm
  rw [length_window (by omega), hce, hw, ← hx.canonical hm hi, ← hce, hn, hde,
    ← window_snoc hlt', Option.some_inj] at hs
  rw [hde]
  exact hs

section Scan

variable {pattern doc : CString} {m : ℕ} {patternHash : ℤ}

/-- The scan from position `i` records exactly the occurrences among the remaining
`n` positions. The hash filter only has to let true matches through. -/
theorem rkLoop_eq (hne : pattern.chars ≠ []) (hdoc : doc.Ascii)
    (hm : m ≤ doc.chars.length) (hlen : doc.chars.length < 2147483648)
    (hroom : doc.chars.length - m + 1 < 2147483648)
    (hfilter : ∀ i x, i + m ≤ doc.chars.length → RollState doc m i x →
      OccursAt pattern.chars doc.chars i → patternHash = x)
    (n i fuel : ℕ) (x : ℤ) (r : ℤ × ℤ) (hn : i + n = doc.chars.length - m + 1) (hf : n < fuel)
    (hx : RollState doc m i x) (hl : 0 ≤ r.1) (hu : r.1 ≤ i) :
    rkLoop pattern doc m doc.chars.length patternHash (256 ^ m % PRIME) fuel i x r =
      some (((List.range' i n).filter
        (fun j ↦ OccursAt pattern.chars doc.chars j)).foldl record r) := by
  induction n generalizing i fuel x r with
  | zero =>
    obtain ⟨fuel, rfl⟩ : ∃ k, fuel = k + 1 := ⟨fuel - 1, by omega⟩
    have hlast : int ((doc.chars.length : ℤ) - m) = some ((doc.chars.length : ℤ) - m) :=
      int_of_bounds (by omega) (by omega)
    have hstop : ¬ ((i : ℤ) ≤ (doc.chars.length : ℤ) - m) := by omega
    simp [rkLoop, hlast, hstop]
  | succ n ih =>
    obtain ⟨fuel, rfl⟩ : ∃ k, fuel = k + 1 := ⟨fuel - 1, by omega⟩
    have hi : i + m ≤ doc.chars.length := by omega
    have hlast : int ((doc.chars.length : ℤ) - m) = some ((doc.chars.length : ℤ) - m) :=
      int_of_bounds (by omega) (by omega)
    have hgo : (i : ℤ) ≤ (doc.chars.length : ℤ) - m := by omega
    have hnext : int ((i : ℤ) + 1) = some ((i + 1 : ℕ) : ℤ) := by
      rw [int_of_bounds (by omega) (by omega)]; push_cast; rfl
    obtain ⟨c, d, y, hc, hd, hy, hroll⟩ := hx.next hdoc hi
    have hver := rkVerify_eq doc pattern.chars pattern.nonNul i (by omega) false
    rw [if_neg hne] at hver
    have htally := tally_eq (i := i) hl (by omega)
      (decide (OccursAt pattern.chars doc.chars i))
    have hstep : rkWindow pattern doc patternHash x i r =
        some (if OccursAt pattern.chars doc.chars i then record r i else r) := by
      unfold rkWindow
      by_cases hp : patternHash = x
      · rw [if_pos hp]
        simpa only [hver, Option.bind_eq_bind, Option.bind_some, decide_eq_true_eq] using htally
      · rw [if_neg hp, if_neg (fun ho ↦ hp (hfilter i x hi hx ho))]
    have hcount : 0 ≤ (if OccursAt pattern.chars doc.chars i then record r i else r).1 ∧
        (if OccursAt pattern.chars doc.chars i then record r i else r).1 ≤ (i + 1 : ℕ) := by
      split_ifs
      · simp only [record]
        omega
      · omega
    have hrec := ih (i + 1) fuel y _ (by omega) (by omega) hroll hcount.1 hcount.2
    simp only [rkLoop, hlast, Option.bind_eq_bind, Option.bind_some, if_pos hgo, hstep, hc, hd, hy,
      hnext, hrec, List.range'_succ, List.filter_cons, decide_eq_true_eq]
    by_cases ho : OccursAt pattern.chars doc.chars i <;> simp [ho]

end Scan

/-- What `rk_substring_match` returns: the tally of the pattern's occurrences. Only the
`int` value `m` of the pattern's length has to be usable; the pattern itself may be
longer than the document. -/
theorem rkSubstringMatch_eq (pattern doc : CString) (hne : pattern.chars ≠ [])
    (hdoc : doc.Ascii) (hd : doc.chars.length < 2147483648)
    (hm : pattern.chars.length % 2 ^ 32 < 2147483648)
    (hroom : doc.chars.length - pattern.chars.length % 2 ^ 32 + 1 < 2147483648) :
    rkSubstringMatch pattern doc =
      some ((occurrences pattern.chars doc.chars).foldl record (0, -1)) := by
  have hpos := List.length_pos_iff.mpr hne
  have hmle := Nat.mod_le pattern.chars.length (2 ^ 32)
  have hshort : ∀ i, OccursAt pattern.chars doc.chars i →
      pattern.chars.length % 2 ^ 32 = pattern.chars.length := by
    intro i hi
    have := hi.length_le hne
    exact Nat.mod_eq_of_lt (by omega)
  have hpl : wrapSigned 32 (strlength pattern) = (pattern.chars.length % 2 ^ 32 : ℕ) := by
    rw [strlength_eq]
    exact wrapSigned_of_fits (by decide) (fits_int.mpr (by omega))
  simp only [rkSubstringMatch, hpl, int_strlength hd]
  generalize pattern.chars.length % 2 ^ 32 = m at *
  split_ifs with hlt
  · rw [occurrences_eq_nil (by omega)]
    rfl
  · have hle : m ≤ doc.chars.length := by omega
    obtain ⟨x, hx, hxh⟩ := rkhashInit_eq pattern m hmle
    obtain ⟨y, hy, hyh⟩ := rkhashInit_eq doc m hle
    have hasc : ∀ c ∈ doc.chars.take m, 0 < c := fun c hc ↦ hdoc c (List.mem_of_mem_take hc)
    have hroll : RollState doc m 0 y :=
      ⟨hyh.nonneg hasc, hyh.upper, fun _ _ ↦ hyh.eq_emod hasc⟩
    have hfilter : ∀ i z, i + m ≤ doc.chars.length → RollState doc m i z →
        OccursAt pattern.chars doc.chars i → x = z := by
      intro i z hi hz ho
      have hml := hshort i ho
      have hpat : window doc m i = pattern.chars := by
        rw [hml]; exact (List.prefix_iff_eq_take.mp ho).symm
      rw [hml, List.take_length] at hxh
      have hpasc : ∀ c ∈ pattern.chars, 0 < c := by
        intro c hc
        rw [← hpat] at hc
        exact hdoc c (List.mem_of_mem_drop (List.mem_of_mem_take hc))
      rw [hxh.eq_emod hpasc, hz.canonical (by omega) hi, hpat]
    have hscan := rkLoop_eq hne hdoc hle hd hroom hfilter (doc.chars.length - m + 1) 0
      (((doc.chars.length : ℤ) - m).toNat + 2) y (0, -1) (by omega) (by omega) hroll le_rfl le_rfl
    simp only [hx, hy, Option.bind_eq_bind, Option.bind_some]
    rw [occurrences_eq_range hne (n := doc.chars.length - m + 1), List.range_eq_range']
    · exact hscan
    · intro i ho
      have := ho.length_le hne
      omega

/-- Rabin-Karp matching is exact. The result is never `none`, so no read passes the
document's NUL and no `long long` or `int` operation overflows. -/
theorem rk_substring_match_exact (pattern doc : CString) (hne : pattern.chars ≠ [])
    (hdoc : doc.Ascii) (hp : pattern.chars.length < 2 ^ 31) (hd : doc.chars.length < 2 ^ 31) :
    ∃ firstMatchInd : ℤ,
      rkSubstringMatch pattern doc =
        some ((((Finset.range doc.chars.length).filter
          (OccursAt pattern.chars doc.chars)).card : ℤ), firstMatchInd) ∧
      ((firstMatchInd = -1 ∧ ∀ i, ¬ OccursAt pattern.chars doc.chars i) ∨
        ∃ i : ℕ, firstMatchInd = i ∧ OccursAt pattern.chars doc.chars i ∧
          ∀ j, OccursAt pattern.chars doc.chars j → i ≤ j) := by
  have hpos := List.length_pos_iff.mpr hne
  have hmod : pattern.chars.length % 2 ^ 32 = pattern.chars.length := Nat.mod_eq_of_lt (by omega)
  refine ⟨first (occurrences pattern.chars doc.chars), ?_, first_occurrences hne⟩
  rw [rkSubstringMatch_eq pattern doc hne hdoc hd (by omega) (by omega), foldl_record,
    length_occurrences]
  simp

theorem rk_substring_match_exact_aba :
    ∃ firstMatchInd : ℤ,
      rkSubstringMatch ⟨[97], by simp⟩ ⟨[97, 98, 97], by simp⟩ = some (2, firstMatchInd) ∧
      ((firstMatchInd = -1 ∧ ∀ i, ¬ OccursAt [97] ([97, 98, 97] : List Int8) i) ∨
        ∃ i : ℕ, firstMatchInd = i ∧ OccursAt [97] ([97, 98, 97] : List Int8) i ∧
          ∀ j, OccursAt [97] ([97, 98, 97] : List Int8) j → i ≤ j) :=
  rk_substring_match_exact ⟨[97], by simp⟩ ⟨[97, 98, 97], by simp⟩ (by decide) (by decide)
    (by decide) (by decide)

end CsoLabs.Rkgrep
