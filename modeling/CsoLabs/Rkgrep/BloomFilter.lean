import CsoLabs.Rkgrep.Bloom

namespace CsoLabs.Rkgrep

open Foundation CInt Bitmap

def BloomFilter.bit (bf : BloomFilter) (p : ℕ) : Bool := Bitmap.bit bf.buf p

def hashValue (i : ℕ) (x : ℤ) : ℤ := x.tmod H1PRIME + i * x.tmod H2PRIME + 1 + i * i

def position (bsz i : ℕ) (x : ℤ) : ℕ := (hashValue i x).toNat % bsz

variable {bf : BloomFilter} {i p : ℕ} {x : ℤ}

/-- None of the hash functions is cut off at the width of an `int`. -/
theorem hashI_eq (hi : i < BLOOM_HASH_NUM) (x : ℤ) : hashI i x = some (hashValue i x) := by
  have h₁ := Int.lt_tmod_of_pos x (show (0 : ℤ) < H1PRIME by decide)
  have h₁' := Int.tmod_lt_of_pos x (show (0 : ℤ) < H1PRIME by decide)
  have h₂ := Int.lt_tmod_of_pos x (show (0 : ℤ) < H2PRIME by decide)
  have h₂' := Int.tmod_lt_of_pos x (show (0 : ℤ) < H2PRIME by decide)
  simp only [BLOOM_HASH_NUM] at hi
  simp only [hashI, hashValue]
  generalize x.tmod H1PRIME = a at *
  generalize x.tmod H2PRIME = b at *
  simp only [H1PRIME, H2PRIME] at h₁ h₁' h₂ h₂'
  have hp : -29670579 ≤ (i : ℤ) * b ∧ (i : ℤ) * b ≤ 29670579 := by
    constructor <;> nlinarith
  have hq : 0 ≤ (i : ℤ) * i ∧ (i : ℤ) * i ≤ 81 := by
    constructor <;> nlinarith
  generalize (i : ℤ) * b = c at *
  generalize (i : ℤ) * i = d at *
  simp only [longLong_of_bounds (show -9223372036854775808 ≤ c by omega) (by omega),
    longLong_of_bounds (show -9223372036854775808 ≤ a + c by omega) (by omega),
    longLong_of_bounds (show -9223372036854775808 ≤ a + c + 1 by omega) (by omega),
    longLong_of_bounds (show -9223372036854775808 ≤ a + c + 1 + d by omega) (by omega),
    int_of_bounds (show -2147483648 ≤ d by omega) (by omega), Option.bind_eq_bind, Option.bind_some]
  exact congrArg some (wrapSigned_of_fits (by decide) (fits_int.mpr (by omega)))

theorem bloomPos_eq (hi : i < BLOOM_HASH_NUM) (hb : 0 < bf.bsz) :
    bloomPos bf i x = some ((hashValue i x).tmod bf.bsz) := by
  rw [bloomPos, hashI_eq hi]
  exact if_neg hb.ne'

theorem hashValue_nonneg (hx : 0 ≤ x) : 0 ≤ hashValue i x := by
  have h₁ := Int.tmod_nonneg H1PRIME hx
  have h₂ := Int.tmod_nonneg H2PRIME hx
  unfold hashValue
  positivity

theorem tmod_hashValue (hx : 0 ≤ hashValue i x) :
    (hashValue i x).tmod bf.bsz = position bf.bsz i x := by
  rw [Int.tmod_eq_emod_of_nonneg hx, position, Int.natCast_mod, Int.toNat_of_nonneg hx]

theorem position_lt (hb : 0 < bf.bsz) : position bf.bsz i x < bf.bsz := Nat.mod_lt _ hb

theorem BloomFilter.byte_lt (hp : p < bf.bsz) : p / 8 < bf.buf.length := by
  have := bf.bsz_eq
  omega

theorem tdiv_eight (p : ℕ) : (p : ℤ).tdiv 8 = (p / 8 : ℕ) := rfl

theorem tmod_eight (p : ℕ) : (p : ℤ).tmod 8 = (p % 8 : ℕ) := rfl

theorem readByte_eq (hp : p / 8 < bf.buf.length) :
    bf.readByte (p / 8 : ℕ) = some bf.buf[p / 8] := by
  rw [BloomFilter.readByte, if_pos (Int.natCast_nonneg _), Int.toNat_natCast,
    List.getElem?_eq_getElem hp]

theorem bloomSet_spec (hpos : bloomPos bf i x = some (p : ℤ)) (hp : p < bf.bsz) :
    ∃ bf', bloomSet bf x i = some bf' ∧ bf'.bsz = bf.bsz ∧
      ∀ q, bf'.bit q = (bf.bit q || decide (q = p)) := by
  have hbyte := bf.byte_lt hp
  refine ⟨bf.writeByte (p / 8 : ℕ) (withBit bf.buf[p / 8] (p % 8)), ?_, rfl, fun q ↦ ?_⟩
  · rw [bloomSet, hpos]
    simp only [Option.bind_eq_bind, Option.bind_some, tdiv_eight, tmod_eight, readByte_eq hbyte,
      Int.natCast_nonneg, if_true, Int.toNat_natCast]
    rfl
  · exact bit_set hbyte

theorem bloomBitAtPos_eq (hp : p < bf.bsz) : bloomBitAtPos bf p = some (bf.bit p) := by
  have hbyte := bf.byte_lt hp
  have hsub : (7 - ((p % 8 : ℕ) : ℤ)).toNat = 7 - p % 8 := by omega
  rw [bloomBitAtPos, if_pos (Int.ofNat_lt.mpr hp)]
  simp only [tdiv_eight, tmod_eight, readByte_eq hbyte, Option.bind_eq_bind, Option.bind_some, hsub]
  rw [BloomFilter.bit, bit_eq hbyte]
  refine congrArg some (Bool.eq_iff_iff.mpr ?_)
  rw [decide_eq_true_iff]
  exact mask_ne_zero _ _

def BloomFilter.Contains (bf : BloomFilter) (xs : List ℤ) : Prop :=
  ∀ q, bf.bit q = true ↔ ∃ x ∈ xs, ∃ i < BLOOM_HASH_NUM, q = position bf.bsz i x

theorem bloomInit_spec {bsz : ℕ} (h : 8 ∣ bsz) :
    ∃ bf, bloomInit bsz = some bf ∧ bf.bsz = bsz ∧ bf.Contains [] := by
  have hmod : (bsz : ℤ).tmod 8 = 0 := by
    rw [tmod_eight, Nat.mod_eq_zero_of_dvd h, Nat.cast_zero]
  refine ⟨_, dif_pos ⟨hmod, Int.natCast_nonneg bsz⟩, Int.toNat_natCast bsz, fun q ↦ ?_⟩
  rw [BloomFilter.bit, bit_replicate]
  simp

theorem bloomAdd_fold (hx : 0 ≤ x) (n : ℕ) (hn : n ≤ BLOOM_HASH_NUM)
    (hb : 0 < bf.bsz) :
    ∃ bf', (List.range n).foldlM (fun bf i ↦ bloomSet bf x i) bf = some bf' ∧ bf'.bsz = bf.bsz ∧
      ∀ q, bf'.bit q = true ↔ bf.bit q = true ∨ ∃ i < n, q = position bf.bsz i x := by
  induction n with
  | zero => exact ⟨bf, rfl, rfl, fun q ↦ by simp⟩
  | succ n ih =>
    obtain ⟨bf₁, h₁, hbsz₁, hbit₁⟩ := ih (by omega)
    have hb₁ : 0 < bf₁.bsz := hbsz₁ ▸ hb
    have hpos : bloomPos bf₁ n x = some (position bf₁.bsz n x : ℤ) := by
      rw [bloomPos_eq (by omega) hb₁, tmod_hashValue (hashValue_nonneg hx)]
    obtain ⟨bf₂, h₂, hbsz₂, hbit₂⟩ := bloomSet_spec hpos (position_lt hb₁)
    refine ⟨bf₂, ?_, hbsz₂.trans hbsz₁, fun q ↦ ?_⟩
    · rw [List.range_succ, List.foldlM_append, h₁]
      simpa using h₂
    · rw [hbit₂, Bool.or_eq_true, decide_eq_true_iff, hbit₁, or_assoc, hbsz₁]
      refine or_congr_right ?_
      simp only [Nat.lt_succ_iff_lt_or_eq, or_and_right, exists_or, exists_eq_left]

theorem BloomFilter.Contains.add {xs : List ℤ} (H : bf.Contains xs) (hx : 0 ≤ x)
    (hb : 0 < bf.bsz) :
    ∃ bf', bloomAdd bf x = some bf' ∧ bf'.bsz = bf.bsz ∧ bf'.Contains (xs ++ [x]) := by
  obtain ⟨bf', hadd, hbsz, hbit⟩ := bloomAdd_fold hx BLOOM_HASH_NUM le_rfl hb
  refine ⟨bf', hadd, hbsz, fun q ↦ ?_⟩
  rw [hbit, H, hbsz]
  simp only [List.mem_append, List.mem_singleton, or_and_right, exists_or, exists_eq_left]

theorem bloomQueryLoop_eq (hx : 0 ≤ x) (hb : 0 < bf.bsz) (is : List ℕ)
    (his : ∀ i ∈ is, i < BLOOM_HASH_NUM) :
    bloomQueryLoop bf x is = some (decide (∀ i ∈ is, bf.bit (position bf.bsz i x) = true)) := by
  induction is with
  | nil => simp [bloomQueryLoop]
  | cons i is ih =>
    have hi := his i List.mem_cons_self
    have hrest := ih fun j hj ↦ his j (List.mem_cons_of_mem i hj)
    rw [bloomQueryLoop, bloomPos_eq hi hb, tmod_hashValue (hashValue_nonneg hx)]
    simp only [Option.bind_eq_bind, Option.bind_some, bloomBitAtPos_eq (position_lt hb), hrest]
    by_cases hbit : bf.bit (position bf.bsz i x) = true <;> simp [hbit]

theorem bloomQuery_eq (hx : 0 ≤ x) (hb : 0 < bf.bsz) :
    bloomQuery bf x =
      some (decide (∀ i < BLOOM_HASH_NUM, bf.bit (position bf.bsz i x) = true)) := by
  rw [bloomQuery, bloomQueryLoop_eq hx hb _ fun i hi ↦ List.mem_range.mp hi]
  simp only [List.mem_range]

theorem BloomFilter.Contains.query {xs : List ℤ} (H : bf.Contains xs) (hmem : x ∈ xs) (hx : 0 ≤ x)
    (hb : 0 < bf.bsz) : bloomQuery bf x = some true := by
  rw [bloomQuery_eq hx hb, decide_eq_true fun i hi ↦ (H _).mpr ⟨x, hmem, i, hi, rfl⟩]

end CsoLabs.Rkgrep
