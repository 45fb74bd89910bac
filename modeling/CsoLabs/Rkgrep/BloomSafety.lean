import CsoLabs.Rkgrep.BloomMatch

namespace CsoLabs.Rkgrep

open Foundation CInt CString

variable {pattern doc : CString} {m i p : ℕ} {x : ℤ} {bf bf' : BloomFilter}

def Reaches (bf : BloomFilter) (x : ℤ) (i : ℕ) : Prop :=
  ∀ j < i, ∃ pos, bloomPos bf j x = some pos ∧ bloomBitAtPos bf pos = some true

def QueryInRange (bf : BloomFilter) (x : ℤ) : Prop :=
  ∀ i < BLOOM_HASH_NUM, Reaches bf x i →
    ∃ pos, bloomPos bf i x = some pos ∧ 0 ≤ pos ∧ pos < bf.bsz

theorem bloomSet_inRange (h : bloomSet bf x i = some bf') :
    ∃ pos, bloomPos bf i x = some pos ∧ 0 ≤ pos ∧ pos < bf.bsz := by
  obtain ⟨pos, hpos, hset⟩ := Option.bind_eq_some_iff.mp h
  by_cases hbit : 0 ≤ pos.tmod 8
  · rw [if_pos hbit] at hset
    obtain ⟨b, hb, -⟩ := Option.bind_eq_some_iff.mp hset
    rw [BloomFilter.readByte] at hb
    split_ifs at hb with hbyte
    have hlt := (List.getElem?_eq_some_iff.mp hb).1
    have hdiv := Int.mul_tdiv_add_tmod pos 8
    have hmod := Int.tmod_lt_of_pos pos (show (0 : ℤ) < 8 by decide)
    have hbsz := bf.bsz_eq
    exact ⟨pos, hpos, by omega, by omega⟩
  · rw [if_neg hbit] at hset
    cases hset

theorem bloomQueryLoop_isSome (h : QueryInRange bf x) {n : ℕ} (hr : Reaches bf x i)
    (hn : i + n = BLOOM_HASH_NUM) : ∃ found, bloomQueryLoop bf x (List.range' i n) = some found := by
  induction n generalizing i with
  | zero => exact ⟨true, rfl⟩
  | succ n ih =>
    obtain ⟨pos, hpos, h0, hlt⟩ := h i (by omega) hr
    obtain ⟨p, rfl⟩ := Int.eq_ofNat_of_zero_le h0
    have hbit : bloomBitAtPos bf p = some (bf.bit p) := bloomBitAtPos_eq (by omega)
    rw [List.range'_succ, bloomQueryLoop, hpos]
    simp only [Option.bind_eq_bind, Option.bind_some, hbit]
    cases hset : bf.bit p with
    | false => exact ⟨false, rfl⟩
    | true =>
      refine ih (fun j hj ↦ ?_) (by omega)
      rcases Nat.lt_succ_iff_lt_or_eq.mp hj with hj | rfl
      · exact hr j hj
      · exact ⟨p, hpos, hbit.trans (congrArg some hset)⟩

def Marked (bsz : ℤ) (xs : List ℤ) (pos : ℤ) : Prop :=
  ∃ y ∈ xs, ∃ j < BLOOM_HASH_NUM, pos = (hashValue j y).tmod bsz

/-- No hash function that comes after marked positions only goes below zero. -/
def SafePattern (bsz : ℤ) (xs : List ℤ) (x : ℤ) : Prop :=
  ∀ i < BLOOM_HASH_NUM, (∀ j < i, Marked bsz xs ((hashValue j x).tmod bsz)) →
    0 ≤ (hashValue i x).tmod bsz

theorem safePattern_of_nonneg {bsz : ℤ} {xs : List ℤ} (hx : 0 ≤ x) : SafePattern bsz xs x :=
  fun _ _ _ ↦ Int.tmod_nonneg _ (hashValue_nonneg hx)

section Filter

variable {xs : List ℤ} (hb : 0 < bf.bsz) (hxs : ∀ y ∈ xs, 0 ≤ y) (H : bf.Contains xs)

include hb hxs H

theorem marked_iff_bit : Marked bf.bsz xs p ↔ p < bf.bsz ∧ bf.bit p = true := by
  rw [H p, Marked]
  constructor
  · rintro ⟨y, hy, j, hj, hp⟩
    rw [tmod_hashValue (hashValue_nonneg (hxs y hy))] at hp
    obtain rfl : p = position bf.bsz j y := Int.ofNat_inj.mp hp
    exact ⟨position_lt hb, y, hy, j, hj, rfl⟩
  · rintro ⟨-, y, hy, j, hj, hp⟩
    refine ⟨y, hy, j, hj, ?_⟩
    rw [tmod_hashValue (hashValue_nonneg (hxs y hy)), hp]

theorem bit_of_marked (hi : i < BLOOM_HASH_NUM) (h : Marked bf.bsz xs ((hashValue i x).tmod bf.bsz)) :
    ∃ pos, bloomPos bf i x = some pos ∧ bloomBitAtPos bf pos = some true := by
  obtain ⟨y, hy, j, hj, hpos⟩ := id h
  rw [hpos, tmod_hashValue (hashValue_nonneg (hxs y hy))] at h
  obtain ⟨hlt, hbit⟩ := (marked_iff_bit hb hxs H).mp h
  refine ⟨_, bloomPos_eq hi hb, ?_⟩
  rw [hpos, tmod_hashValue (hashValue_nonneg (hxs y hy)), bloomBitAtPos_eq hlt, hbit]

theorem marked_of_reaches (hsafe : SafePattern bf.bsz xs x) (hi : i ≤ BLOOM_HASH_NUM)
    (hr : Reaches bf x i) : ∀ j < i, Marked bf.bsz xs ((hashValue j x).tmod bf.bsz) := by
  induction i with
  | zero => exact fun j hj ↦ absurd hj (Nat.not_lt_zero j)
  | succ i ih =>
    have hprev := ih (by omega) fun j hj ↦ hr j (by omega)
    intro j hj
    rcases Nat.lt_succ_iff_lt_or_eq.mp hj with hj | rfl
    · exact hprev j hj
    · obtain ⟨pos, hpos, hbit⟩ := hr j (Nat.lt_succ_self j)
      rw [bloomPos_eq hi hb, Option.some_inj] at hpos
      have h0 := hsafe j hi hprev
      rw [hpos] at h0 ⊢
      obtain ⟨p, rfl⟩ := Int.eq_ofNat_of_zero_le h0
      have hlt : p < bf.bsz := by
        have := Int.tmod_lt_of_pos (hashValue j x) (show (0 : ℤ) < bf.bsz by omega)
        omega
      rw [bloomBitAtPos_eq hlt, Option.some_inj] at hbit
      exact (marked_iff_bit hb hxs H).mpr ⟨hlt, hbit⟩

theorem queryInRange_iff : QueryInRange bf x ↔ SafePattern bf.bsz xs x := by
  constructor
  · intro h i hi hmark
    obtain ⟨pos, hpos, h0, -⟩ := h i hi fun j hj ↦ bit_of_marked hb hxs H (hj.trans hi) (hmark j hj)
    rw [bloomPos_eq hi hb, Option.some_inj] at hpos
    exact hpos ▸ h0
  · intro h i hi hr
    exact ⟨_, bloomPos_eq hi hb, h i hi (marked_of_reaches hb hxs H h hi.le hr),
      Int.tmod_lt_of_pos _ (by omega)⟩

end Filter

/-- `strlen(doc)*8` as the `int` that `rk_create_doc_bloom` takes. -/
def bloomSize (doc : CString) : ℤ := wrapSigned 32 (8 * doc.chars.length)

/-- The calls stay within the data: `bloom_init` ends the program, or the filter is built and every
call for a pattern returns and computes positions of the filter only. -/
def StaysWithin (doc : CString) (m : ℕ) (patterns : List CString) : Prop :=
  bloomInit (bloomSize doc) = none ∨
    ∃ bf, rkCreateDocBloom (wrapSigned 32 m) doc (bloomSize doc) = some bf ∧
      ∀ p ∈ patterns, ∃ x h, rkhashInit p (wrapSigned 32 m) = some (x, h) ∧ QueryInRange bf x ∧
        ∀ ind, ∃ r, rkSubstringMatchUsingBloom p doc bf ind = some r

theorem bloomSize_eq (doc : CString) :
    bloomSize doc = 8 * (doc.chars.length % 2 ^ 29 : ℕ) -
      if doc.chars.length % 2 ^ 29 < 2 ^ 28 then 0 else 2 ^ 32 := by
  rw [bloomSize, wrapSigned, Int.bmod_def]
  split_ifs <;> omega

theorem eight_dvd_bloomSize (doc : CString) : (bloomSize doc).tmod 8 = 0 := by
  rw [bloomSize_eq]
  apply Int.tmod_eq_zero_of_dvd
  split_ifs <;> omega

theorem bloomInit_eq_none : bloomInit (bloomSize doc) = none ↔ bloomSize doc < 0 := by
  rw [bloomInit]
  split_ifs with h
  · exact iff_of_false (by simp) (not_lt.mpr h.2)
  · refine iff_of_true rfl (not_le.mp fun hle ↦ h ⟨eight_dvd_bloomSize doc, hle⟩)

theorem rkCreateDocBloom_sized (hdoc : doc.Ascii) (hn : 1 ≤ doc.chars.length)
    (hn' : doc.chars.length < 2 ^ 28) (hm : m ≤ doc.chars.length + 1) :
    ∃ bf, rkCreateDocBloom m doc (8 * doc.chars.length : ℕ) = some bf ∧
      bf.bsz = 8 * doc.chars.length ∧
      bf.Contains ((List.range (doc.chars.length - m + 1)).map (windowHash doc m)) := by
  have hL : (doc.chars.length : ℤ) = wrapSigned 32 (strlength doc) :=
    (int_strlength (by omega)).symm
  have hsub : ((doc.chars.length : ℤ) - m).toNat = doc.chars.length - m := by omega
  have hspec := rkCreateDocBloom_spec hdoc hm hL (by omega) (by omega)
    (show 0 < 8 * doc.chars.length by omega) (Nat.dvd_mul_right _ _)
  rwa [hsub] at hspec

section Build

variable {M : ℤ} {patterns : List CString}

/-- A search that would start in front of the document does not return, and the filter lets it
start: the hash of its pattern is 0, as the one added. -/
theorem not_front_of_returns {x h : ℤ} (hb : 0 < bf.bsz) (H : bf.Contains (windowHashes doc M))
    (hM : wrapSigned 32 pattern.chars.length = M) (hx : rkhashInit pattern M = some (x, h))
    (hcall : ∃ r, rkSubstringMatchUsingBloom pattern doc bf 0 = some r) :
    ¬ (wrapSigned 32 doc.chars.length = M ∧ M < 0) := by
  rintro ⟨hL, hneg⟩
  obtain ⟨r, hr⟩ := hcall
  have hnone := rkSubstringMatch_neg hneg hM (hL.symm.trans (wrapSigned_strlength doc).symm)
  have hzero : (x, h) = (0, 1) := by
    rw [rkhashInit, Int.toNat_of_nonpos hneg.le] at hx
    exact (Option.some_inj.mp hx).symm
  obtain ⟨rfl, -⟩ := Prod.mk.inj hzero
  have hmem : (0 : ℤ) ∈ windowHashes doc M := by
    rw [windowHashes, Int.toNat_of_nonpos hneg.le]
    exact List.mem_map.mpr ⟨0, by simp, rfl⟩
  rw [← hM] at hx
  rw [using_eq hx (H.query hmem le_rfl hb), if_pos rfl, hnone] at hr
  cases hr

/-- The RKBloom mode stays within its data exactly if `bloom_init` ends the program, or the sizes
allow the filter and no pattern has a hash that leads the query below bit 0. -/
theorem staysWithin_iff (hdoc : doc.Ascii) (hlen : ∀ p ∈ patterns, p.chars.length = m) :
    StaysWithin doc m patterns ↔
      bloomSize doc < 0 ∨ 0 < bloomSize doc ∧ Buildable doc (wrapSigned 32 m) ∧
        ∀ p ∈ patterns,
          ¬ (wrapSigned 32 doc.chars.length = wrapSigned 32 m ∧ wrapSigned 32 m < 0) ∧
          ∃ x h, rkhashInit p (wrapSigned 32 m) = some (x, h) ∧
            SafePattern (bloomSize doc) (windowHashes doc (wrapSigned 32 m)) x := by
  generalize hM : wrapSigned 32 m = M
  rw [StaysWithin, bloomInit_eq_none, hM]
  have hpM : ∀ p ∈ patterns, wrapSigned 32 p.chars.length = M := by
    intro p hp
    rw [hlen p hp, hM]
  by_cases h0 : bloomSize doc < 0
  · exact iff_of_true (.inl h0) (.inl h0)
  have hdvd := Int.dvd_of_tmod_eq_zero (eight_dvd_bloomSize doc)
  obtain ⟨bsz, hbsz⟩ := Int.eq_ofNat_of_zero_le (not_lt.mp h0)
  have h8 : 8 ∣ bsz := by omega
  rw [or_iff_right h0, or_iff_right h0, hbsz]
  constructor
  · rintro ⟨bf, hbf, hpat⟩
    obtain ⟨hb, B⟩ := buildable_of_create h8 hbf
    obtain ⟨rfl, H⟩ := contains_windowHashes hdoc h8 hbf
    refine ⟨by omega, B, fun p hp ↦ ?_⟩
    obtain ⟨x, h, hx, hrange, hcall⟩ := hpat p hp
    exact ⟨not_front_of_returns hb H (hpM p hp) hx (hcall 0), x, h, hx,
      (queryInRange_iff hb windowHashes_nonneg H).mp hrange⟩
  · rintro ⟨hb, B, hpat⟩
    obtain ⟨bf, hbf, rfl, H⟩ := B.filter hdoc (by omega) h8
    refine ⟨bf, hbf, fun p hp ↦ ?_⟩
    obtain ⟨hfront, x, h, hx, hsafe⟩ := hpat p hp
    have hrange := (queryInRange_iff (by omega) windowHashes_nonneg H).mpr hsafe
    refine ⟨x, h, hx, hrange, fun ind ↦ ?_⟩
    obtain ⟨found, hq⟩ := bloomQueryLoop_isSome hrange (i := 0) (n := BLOOM_HASH_NUM)
      (fun j hj ↦ absurd hj (Nat.not_lt_zero j)) (Nat.zero_add _)
    rw [← List.range_eq_range'] at hq
    obtain ⟨r, hr, -⟩ := B.search hdoc (hpM p hp) hx hfront
    rw [← hpM p hp] at hx
    rw [using_eq hx hq]
    cases found
    · exact ⟨(0, ind), rfl⟩
    · exact ⟨r, by rw [if_pos rfl, hr]⟩

end Build

/-- The hash of a pattern with a negative char can lead the query below bit 0. -/
def negativePattern : CString := ⟨[-3], by simp⟩

theorem staysWithin_iff_ab :
    StaysWithin docAB 1 [strA, strB] ∧ ¬ StaysWithin docAB 1 [strB, negativePattern] := by
  have hb : bloomSize docAB = 16 := by decide
  have hsingle : wrapSigned 32 ((1 : ℕ) : ℤ) = 1 := by decide
  have B : Buildable docAB 1 := ⟨by decide, by decide, by decide, by decide⟩
  constructor
  · apply (staysWithin_iff (by decide) (by decide)).mpr
    rw [hsingle]
    refine .inr ⟨by decide, B, fun p hp ↦ ⟨by decide, ?_⟩⟩
    rcases List.mem_pair.mp hp with rfl | rfl
    · exact ⟨97, 256, by decide, safePattern_of_nonneg (by decide)⟩
    · exact ⟨98, 256, by decide, safePattern_of_nonneg (by decide)⟩
  · intro h
    rcases (staysWithin_iff (by decide) (by decide)).mp h with hneg | ⟨-, -, hpat⟩
    · exact absurd hneg (by decide)
    · obtain ⟨-, x, k, hx, hsafe⟩ := hpat negativePattern (by simp)
      have hhash : rkhashInit negativePattern (wrapSigned 32 ((1 : ℕ) : ℤ)) = some (-3, 256) := by
        decide
      obtain ⟨rfl, -⟩ := Prod.mk.inj (Option.some_inj.mp (hx.symm.trans hhash))
      have hfirst := hsafe 0 (by decide) fun j hj ↦ absurd hj (Nat.not_lt_zero j)
      rw [hb] at hfirst
      exact absurd hfirst (by decide)

def emptyDoc : CString := ⟨[], by simp⟩

theorem empty_document_leaves_data : ¬ ∀ (doc : CString) (m : ℕ) (patterns : List CString),
    doc.Ascii → 1 ≤ m → (∀ p ∈ patterns, p.chars.length = m) → StaysWithin doc m patterns := by
  intro h
  rcases h emptyDoc 1 [strA] (by decide) le_rfl (by decide) with hexit | ⟨bf, hbf, -⟩
  · exact absurd (bloomInit_eq_none.mp hexit) (by decide)
  · have hzero : bloomSize emptyDoc = (0 : ℕ) := by decide
    rw [hzero] at hbf
    exact lt_irrefl 0 (buildable_of_create (Nat.dvd_zero 8) hbf).1

end CsoLabs.Rkgrep
