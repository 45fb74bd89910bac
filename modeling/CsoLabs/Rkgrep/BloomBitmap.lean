import CsoLabs.Rkgrep.BloomFilter

namespace CsoLabs.Rkgrep

open Foundation CInt Bitmap

def bloomAdds (bf : BloomFilter) (xs : List ℤ) : Option BloomFilter := xs.foldlM bloomAdd bf

def bloomOf (bsz : ℤ) (xs : List ℤ) : Option BloomFilter := do
  let bf ← bloomInit bsz
  bloomAdds bf xs

variable {bf bf' : BloomFilter} {xs ys : List ℤ} {bsz : ℕ} {x : ℤ}

theorem BloomFilter.eq_of_bit_eq (hbsz : bf.bsz = bf'.bsz) (h : ∀ p, bf.bit p = bf'.bit p) :
    bf = bf' := by
  have hbuf : bf.buf = bf'.buf := by
    have h₁ := bf.bsz_eq
    have h₂ := bf'.bsz_eq
    exact Bitmap.eq_of_bit_eq (by omega) h
  cases bf
  cases bf'
  simp only at hbsz hbuf
  subst hbsz hbuf
  rfl

theorem BloomFilter.Contains.unique (H : bf.Contains xs) (H' : bf'.Contains ys)
    (hbsz : bf.bsz = bf'.bsz) (hsame : ∀ x, x ∈ xs ↔ x ∈ ys) : bf = bf' := by
  apply BloomFilter.eq_of_bit_eq hbsz
  intro p
  rw [Bool.eq_iff_iff, H, H', hbsz]
  simp only [hsame]

theorem BloomFilter.Contains.adds (H : bf.Contains xs) (hb : 0 < bf.bsz) (hys : ∀ y ∈ ys, 0 ≤ y) :
    ∃ bf', bloomAdds bf ys = some bf' ∧ bf'.bsz = bf.bsz ∧ bf'.Contains (xs ++ ys) := by
  induction ys generalizing bf xs with
  | nil => exact ⟨bf, rfl, rfl, by rwa [List.append_nil]⟩
  | cons y ys ih =>
    obtain ⟨bf₁, hadd, hbsz, H₁⟩ := H.add (hys y (by simp)) hb
    obtain ⟨bf₂, hadds, hbsz₂, H₂⟩ := ih H₁ (hbsz ▸ hb) fun z hz ↦ hys z (by simp [hz])
    refine ⟨bf₂, ?_, hbsz₂.trans hbsz, by rwa [List.append_assoc] at H₂⟩
    rw [bloomAdds, List.foldlM_cons, hadd]
    exact hadds

theorem bloomOf_spec (h8 : 8 ∣ bsz) (hb : 0 < bsz) (hxs : ∀ x ∈ xs, 0 ≤ x) :
    ∃ bf, bloomOf bsz xs = some bf ∧ bf.bsz = bsz ∧ bf.Contains xs := by
  obtain ⟨bf₀, hinit, rfl, H₀⟩ := bloomInit_spec h8
  obtain ⟨bf, hadds, hbsz, H⟩ := H₀.adds hb hxs
  refine ⟨bf, ?_, hbsz, H⟩
  rw [bloomOf, hinit]
  exact hadds

/-- More elements set more bits, so that no answer goes back to false. -/
theorem BloomFilter.Contains.query_mono (H : bf.Contains xs) (H' : bf'.Contains (xs ++ ys))
    (hbsz : bf'.bsz = bf.bsz) (hb : 0 < bf.bsz) (hx : 0 ≤ x) (hq : bloomQuery bf x = some true) :
    bloomQuery bf' x = some true := by
  rw [bloomQuery_eq hx hb, Option.some_inj, decide_eq_true_iff] at hq
  rw [bloomQuery_eq hx (hbsz ▸ hb), Option.some_inj, decide_eq_true_iff]
  intro i hi
  obtain ⟨y, hy, j, hj, hpos⟩ := (H _).mp (hq i hi)
  rw [hbsz]
  exact (H' _).mpr ⟨y, List.mem_append_left ys hy, j, hj, by rw [hbsz]; exact hpos⟩

/-- The bits that are set are the positions of the added elements, in whatever order they came. -/
theorem bloom_bitmap_exact (h8 : 8 ∣ bsz) (hb : 0 < bsz) (hxs : ∀ x ∈ xs, 0 ≤ x) :
    ∃ bf, bloomOf bsz xs = some bf ∧ bf.buf.length = bsz / 8 ∧
      (∀ p < bsz, ∃ isSet, bloomBitAtPos bf p = some isSet ∧
        (isSet = true ↔ ∃ x ∈ xs, ∃ i < BLOOM_HASH_NUM, ∃ v, hashI i x = some v ∧
          (p : ℤ) = v.tmod bsz)) ∧
      (∀ i < BLOOM_HASH_NUM, ∀ x, hashI i x = some (hashValue i x)) ∧
      (∀ x ∈ xs, bloomQuery bf x = some true) ∧
      (∀ ys, (∀ y ∈ ys, 0 ≤ y) → ∃ bf', bloomAdds bf ys = some bf' ∧
        ∀ x, 0 ≤ x → bloomQuery bf x = some true → bloomQuery bf' x = some true) ∧
      ∀ ys, ys.Perm xs → bloomOf bsz ys = some bf := by
  obtain ⟨bf, hbf, rfl, H⟩ := bloomOf_spec h8 hb hxs
  refine ⟨bf, hbf, ?_, fun p hp ↦ ⟨bf.bit p, bloomBitAtPos_eq hp, ?_⟩, fun i hi x ↦ hashI_eq hi x,
    fun x hx ↦ H.query hx (hxs x hx) hb, fun ys hys ↦ ?_, fun ys hperm ↦ ?_⟩
  · have := bf.bsz_eq
    omega
  · rw [H]
    refine exists_congr fun x ↦ and_congr_right fun hx ↦ exists_congr fun i ↦
      and_congr_right fun hi ↦ ?_
    rw [hashI_eq hi]
    simp only [Option.some_inj, exists_eq_left', tmod_hashValue (hashValue_nonneg (hxs x hx)),
      Int.natCast_inj]
  · obtain ⟨bf', hadds, hbsz, H'⟩ := H.adds hb hys
    exact ⟨bf', hadds, fun x hx hq ↦ H.query_mono H' hbsz hb hx hq⟩
  · obtain ⟨bf', hbf', hbsz, H'⟩ := bloomOf_spec h8 hb fun y hy ↦ hxs y (hperm.mem_iff.mp hy)
    rw [hbf', H'.unique H hbsz fun x ↦ hperm.mem_iff]

theorem bloom_bitmap_exact_two :
    ∃ bf, bloomOf 8 [1, 2] = some bf ∧ bloomOf 8 [2, 1] = some bf ∧ bloomQuery bf 2 = some true := by
  obtain ⟨bf, hbf, -, -, -, hquery, -, hperm⟩ := bloom_bitmap_exact (show 8 ∣ 8 from dvd_rfl)
    (by decide) (show ∀ x ∈ [1, 2], (0 : ℤ) ≤ x by simp)
  exact ⟨bf, hbf, hperm [2, 1] (List.Perm.swap 1 2 []), hquery 2 (by simp)⟩

end CsoLabs.Rkgrep
