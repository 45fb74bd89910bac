import CsoLabs.Rkgrep.RkMatch

namespace CsoLabs.Rkgrep

open Foundation CInt CString Occurrences

/-- The windows that the naive loop accepts: it gives up on any match that ends with
the document's last char. -/
def NaiveAccepts (pat doc : List Int8) (i : ℕ) : Prop :=
  OccursAt pat doc i ∧ i + pat.length < doc.length

instance (pat doc : List Int8) : DecidablePred (NaiveAccepts pat doc) :=
  fun _ ↦ inferInstanceAs (Decidable (_ ∧ _))

theorem naiveAccepts_cons {pat doc : List Int8} {p : Int8} {i : ℕ} (hi : i < doc.length) :
    NaiveAccepts (p :: pat) doc i ↔ p = doc[i] ∧ NaiveAccepts pat doc (i + 1) := by
  rw [NaiveAccepts, occursAt_cons hi, NaiveAccepts, List.length_cons, and_assoc]
  simp only [add_assoc, add_comm 1]

theorem naiveInner_eq (doc : CString) (pat : List Int8) (hpat : ∀ c ∈ pat, c ≠ 0) (i : ℕ)
    (hi : i ≤ doc.chars.length) (found : Bool) :
    naiveInner doc pat i found =
      some (if pat = [] then found else decide (NaiveAccepts pat doc.chars i)) := by
  induction pat generalizing i found with
  | nil => rfl
  | cons p pat ih =>
    rcases Nat.lt_or_eq_of_le hi with hlt | rfl
    · obtain ⟨d, hd⟩ := read_isSome hlt
      push_cast at hd
      simp only [naiveInner, read_lt hlt, Option.bind_eq_bind, Option.bind_some, hd,
        naiveAccepts_cons hlt]
      by_cases hp : p = doc.chars[i]
      · rw [if_pos hp]
        by_cases hz : d = 0
        · have hend := read_eq_zero (i := i + 1) hlt (by rw [hz] at hd; exact_mod_cast hd)
          have hno : ¬ NaiveAccepts pat doc.chars (i + 1) := fun ha ↦ by have := ha.2; omega
          simp [hz, hno]
        · have hin : i + 1 < doc.chars.length := by
            refine lt_of_le_of_ne hlt (fun he ↦ hz ?_)
            have hr := read_length doc
            rw [← he, Nat.cast_add_one, hd, Option.some_inj] at hr
            exact hr
          have h := ih (fun c hc ↦ hpat c (List.mem_cons_of_mem p hc)) (i + 1) hlt true
          push_cast at h
          rw [if_neg hz, h]
          by_cases hn : pat = []
          · simp [hn, hp, NaiveAccepts, OccursAt, hin]
          · simp [hn, hp]
      · simp [hp]
    · have hp := hpat p List.mem_cons_self
      have hno : ¬ NaiveAccepts (p :: pat) doc.chars doc.chars.length :=
        fun ha ↦ not_occursAt_end ha.1
      simp [naiveInner, read_length, hp, hno]

theorem naiveLoop_eq {pattern doc : CString} (hne : pattern.chars ≠ [])
    (hlen : doc.chars.length < 2147483648) (n i : ℕ) (hn : i + n = doc.chars.length)
    (r : ℤ × ℤ) (hl : 0 ≤ r.1) (hu : r.1 ≤ i) :
    naiveLoop pattern doc (doc.chars.drop i) i r =
      some (((List.range' i n).filter
        (fun j ↦ NaiveAccepts pattern.chars doc.chars j)).foldl record r) := by
  induction n generalizing i r with
  | zero =>
    rw [List.drop_eq_nil_of_le (by omega)]
    rfl
  | succ n ih =>
    have hlt : i < doc.chars.length := by omega
    have hin := naiveInner_eq doc pattern.chars pattern.nonNul i hlt.le false
    rw [if_neg hne] at hin
    have htally := tally_eq (i := i) hl (by omega)
      (decide (NaiveAccepts pattern.chars doc.chars i))
    have hnext : int ((i : ℤ) + 1) = some ((i + 1 : ℕ) : ℤ) := by
      rw [int_of_bounds (by omega) (by omega)]; push_cast; rfl
    have hcount : 0 ≤ (if NaiveAccepts pattern.chars doc.chars i then record r i else r).1 ∧
        (if NaiveAccepts pattern.chars doc.chars i then record r i else r).1 ≤ (i + 1 : ℕ) := by
      split_ifs
      · simp only [record]
        omega
      · omega
    have hrec := ih (i + 1) (by omega) _ hcount.1 hcount.2
    rw [List.drop_eq_getElem_cons hlt]
    simp only [naiveLoop, hin, Option.bind_eq_bind, Option.bind_some, htally, decide_eq_true_eq,
      hnext, hrec, List.range'_succ, List.filter_cons]
    by_cases ha : NaiveAccepts pattern.chars doc.chars i <;> simp [ha]

theorem naiveSubstringMatch_eq (pattern doc : CString) (hne : pattern.chars ≠ [])
    (hlen : doc.chars.length < 2147483648) :
    naiveSubstringMatch pattern doc =
      some (((List.range doc.chars.length).filter
        (fun j ↦ NaiveAccepts pattern.chars doc.chars j)).foldl record (0, -1)) := by
  rw [List.range_eq_range']
  exact naiveLoop_eq hne hlen doc.chars.length 0 (by omega) (0, -1) le_rfl le_rfl

theorem naiveLoop_overflow (pattern doc : CString) (doctmp : List Int8) (i : ℤ) (r : ℤ × ℤ)
    (h : 2147483648 ≤ i + doctmp.length) (hi : i < 2147483648) :
    naiveLoop pattern doc doctmp i r = none := by
  induction doctmp generalizing i r with
  | nil =>
    simp only [List.length_nil] at h
    omega
  | cons c doctmp ih =>
    simp only [naiveLoop, Option.bind_eq_bind, Option.bind_eq_none_iff]
    intro found _ r' _ j hj
    obtain ⟨hf, rfl⟩ := checked_eq_some.mp hj
    rw [List.length_cons] at h
    exact ih _ _ (by push_cast at h; omega) (fits_int.mp hf).2

theorem rkLoop_negative {pattern doc : CString} {patternLength docLength patternHash h : ℤ}
    (hneg : patternLength < 0) (hpos : 0 ≤ docLength) (fuel : ℕ) (x : ℤ) (r : ℤ × ℤ) :
    rkLoop pattern doc patternLength docLength patternHash h fuel 0 x r = none := by
  cases fuel with
  | zero => rfl
  | succ fuel =>
    simp only [rkLoop, Option.bind_eq_bind, Option.bind_eq_none_iff]
    intro last hlast
    obtain ⟨_, rfl⟩ := checked_eq_some.mp hlast
    rw [if_pos (by omega)]
    simp only [Option.bind_eq_none_iff]
    intro r' _ c _ d hd
    rw [read_neg (by omega)] at hd
    cases hd

theorem rkLoop_overflow {pattern doc : CString} {patternLength docLength patternHash h : ℤ}
    (hlast : docLength - patternLength = 2147483647) (fuel : ℕ) (i x : ℤ) (r : ℤ × ℤ)
    (hi : i < 2147483648) :
    rkLoop pattern doc patternLength docLength patternHash h fuel i x r = none := by
  induction fuel generalizing i x r with
  | zero => rfl
  | succ fuel ih =>
    simp only [rkLoop, Option.bind_eq_bind, Option.bind_eq_none_iff]
    intro last hl
    obtain ⟨_, rfl⟩ := checked_eq_some.mp hl
    rw [if_pos (by omega)]
    simp only [Option.bind_eq_none_iff]
    intro r' _ c _ d _ y _ j hj
    obtain ⟨hf, rfl⟩ := checked_eq_some.mp hj
    exact ih _ _ _ (fits_int.mp hf).2

/-- The lengths on which `rk_substring_match` has defined behaviour. -/
def IntLengths (pattern doc : CString) : Prop :=
  doc.chars.length < 2 ^ 31 ∧ pattern.chars.length % 2 ^ 32 < 2 ^ 31 ∧
    (pattern.chars.length % 2 ^ 32 = 0 → doc.chars.length < 2 ^ 31 - 1)

theorem rkhashInit_nonpos (s : CString) {m : ℤ} (hm : m ≤ 0) : rkhashInit s m = some (0, 1) := by
  rw [rkhashInit, Int.toNat_of_nonpos hm]
  rfl

theorem IntLengths.of_rk {pattern doc : CString} {r : ℤ × ℤ} (hd : doc.chars.length < 2 ^ 31)
    (hr : rkSubstringMatch pattern doc = some r) : IntLengths pattern doc := by
  have hlt := Nat.mod_lt pattern.chars.length (show 2 ^ 32 > 0 by decide)
  rw [rkSubstringMatch, int_strlength hd, strlength_eq] at hr
  refine ⟨hd, ?_, ?_⟩
  all_goals generalize pattern.chars.length % 2 ^ 32 = m at hr hlt
  · by_contra hge
    have hneg : wrapSigned 32 (m : ℤ) < 0 := by
      rw [wrapSigned, Int.bmod_def]
      omega
    simp only [if_neg (show ¬ wrapSigned 32 (m : ℤ) > doc.chars.length by omega),
      rkhashInit_nonpos _ hneg.le, Option.bind_eq_bind, Option.bind_some,
      rkLoop_negative hneg (Int.natCast_nonneg _)] at hr
    cases hr
  · rintro rfl
    by_contra hge
    have hz : wrapSigned 32 ((0 : ℕ) : ℤ) = 0 := by decide
    simp only [hz, if_neg (show ¬ (0 : ℤ) > doc.chars.length by omega),
      rkhashInit_nonpos _ le_rfl, Option.bind_eq_bind, Option.bind_some,
      rkLoop_overflow (show (doc.chars.length : ℤ) - 0 = 2147483647 by omega) _ 0 _ _
        (by decide)] at hr
    cases hr

theorem naive_filter_eq {pat doc : List Int8} (hne : pat ≠ []) (h : ¬ pat <:+ doc) :
    (List.range doc.length).filter (fun i ↦ NaiveAccepts pat doc i) = occurrences pat doc := by
  refine List.filter_congr (fun i _ ↦ decide_eq_decide.mpr ⟨fun ha ↦ ha.1, fun ho ↦ ⟨ho, ?_⟩⟩)
  exact lt_of_le_of_ne (ho.length_le hne) (fun he ↦ h (suffix_of_occursAt ho he))

theorem naive_filter_lt {pat doc : List Int8} (hne : pat ≠ []) (h : pat <:+ doc) :
    ((List.range doc.length).filter (fun i ↦ NaiveAccepts pat doc i)).length <
      (occurrences pat doc).length := by
  have hmem := (mem_occurrences hne).mpr (occursAt_suffix h)
  have hsub : (List.range doc.length).filter (fun i ↦ NaiveAccepts pat doc i) =
      (occurrences pat doc).filter (fun i ↦ i + pat.length < doc.length) := by
    rw [occurrences, List.filter_filter]
    exact List.filter_congr (fun i _ ↦ by simp [NaiveAccepts, and_comm])
  rw [hsub]
  refine List.length_filter_lt_length_iff_exists.mpr ⟨_, hmem, ?_⟩
  have := h.length_le
  simp only [decide_eq_true_eq]
  omega

/-- The two matchers agree exactly when the pattern does not stand at the very end of the
document, on lengths for which their `int` arithmetic is defined. -/
theorem naive_agrees_iff (pattern doc : CString) (hne : pattern.chars ≠ []) (hdoc : doc.Ascii) :
    (∃ r, naiveSubstringMatch pattern doc = some r ∧ rkSubstringMatch pattern doc = some r) ↔
      IntLengths pattern doc ∧ ¬ pattern.chars <:+ doc.chars := by
  constructor
  · rintro ⟨r, hn, hr⟩
    have hd : doc.chars.length < 2 ^ 31 := by
      by_contra hge
      rw [naiveSubstringMatch, naiveLoop_overflow _ _ _ _ _ (by omega) (by decide)] at hn
      cases hn
    have hlen := IntLengths.of_rk hd hr
    refine ⟨hlen, fun hs ↦ ?_⟩
    have hrk := rkSubstringMatch_eq pattern doc hne hdoc hlen.1 hlen.2.1 (by
      have := hlen.2.2
      omega)
    rw [naiveSubstringMatch_eq pattern doc hne hd, foldl_record] at hn
    rw [hrk, foldl_record, ← hn, Option.some_inj, Prod.mk.injEq] at hr
    have := naive_filter_lt hne hs
    omega
  · rintro ⟨⟨hd, hm, h0⟩, hs⟩
    refine ⟨_, ?_, rkSubstringMatch_eq pattern doc hne hdoc hd hm (by omega)⟩
    rw [naiveSubstringMatch_eq pattern doc hne hd, naive_filter_eq hne hs]

theorem naive_agrees_iff_aba :
    (∃ r, naiveSubstringMatch ⟨[98], by simp⟩ ⟨[97, 98, 97], by simp⟩ = some r ∧
      rkSubstringMatch ⟨[98], by simp⟩ ⟨[97, 98, 97], by simp⟩ = some r) ↔
      IntLengths ⟨[98], by simp⟩ ⟨[97, 98, 97], by simp⟩ ∧
        ¬ ([98] : List Int8) <:+ [97, 98, 97] :=
  naive_agrees_iff ⟨[98], by simp⟩ ⟨[97, 98, 97], by simp⟩ (by decide) (by decide)

theorem naive_misses_last_match :
    ¬ ∀ pattern doc : CString, pattern.chars ≠ [] → doc.Ascii →
      ∃ r, naiveSubstringMatch pattern doc = some r ∧ rkSubstringMatch pattern doc = some r := by
  intro h
  obtain ⟨r, hn, hr⟩ := h ⟨[97], by simp⟩ ⟨[98, 97], by simp⟩ (by decide) (by decide)
  have hn' : naiveSubstringMatch ⟨[97], by simp⟩ ⟨[98, 97], by simp⟩ = some (0, -1) := rfl
  have hr' : rkSubstringMatch ⟨[97], by simp⟩ ⟨[98, 97], by simp⟩ = some (1, 1) := by
    decide +kernel
  rw [hn', Option.some_inj] at hn
  rw [hr', ← hn] at hr
  cases hr

end CsoLabs.Rkgrep
