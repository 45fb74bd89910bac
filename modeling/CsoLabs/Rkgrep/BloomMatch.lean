import CsoLabs.Rkgrep.BloomFilter
import CsoLabs.Rkgrep.RkMatch

namespace CsoLabs.Rkgrep

open Foundation CInt CString Occurrences

variable {pattern doc : CString} {m i : ℕ} {L : ℤ} {bf bf' : BloomFilter}

/-- The document with its terminating NUL, which the last step of a scan reads. -/
def text (doc : CString) : List Int8 := doc.chars ++ [0]

def windowHash (doc : CString) (m i : ℕ) : ℤ := polynomial (((text doc).drop i).take m) % PRIME

theorem length_text : (text doc).length = doc.chars.length + 1 := List.length_append

theorem read_text (hi : i < (text doc).length) : doc.read i = some (text doc)[i] := by
  rw [CString.read, if_pos (Int.natCast_nonneg i), Int.toNat_natCast]
  exact List.getElem?_eq_getElem hi

theorem text_nonneg (hdoc : doc.Ascii) (hi : i < (text doc).length) : 0 ≤ ((text doc)[i]).toInt := by
  obtain ⟨c, hc, hc0⟩ := read_toInt_nonneg hdoc (i := i) (by rw [length_text] at hi; omega)
  rw [read_text hi, Option.some_inj] at hc
  exact hc ▸ hc0

theorem windowHash_bounds (doc : CString) (m i : ℕ) :
    0 ≤ windowHash doc m i ∧ windowHash doc m i < PRIME :=
  ⟨Int.emod_nonneg _ (by decide), Int.emod_lt_of_pos _ (by decide)⟩

def windowHashes (doc : CString) (M : ℤ) : List ℤ :=
  (List.range ((wrapSigned 32 doc.chars.length - M).toNat + 1)).map (windowHash doc M.toNat)

theorem windowHashes_nonneg {M : ℤ} : ∀ y ∈ windowHashes doc M, 0 ≤ y := by
  intro y hy
  obtain ⟨k, -, rfl⟩ := List.mem_map.mp hy
  exact (windowHash_bounds doc M.toNat k).1

theorem pow_bounds (m : ℕ) : 0 ≤ (256 : ℤ) ^ m % PRIME ∧ (256 : ℤ) ^ m % PRIME < PRIME :=
  ⟨Int.emod_nonneg _ (by decide), Int.emod_lt_of_pos _ (by decide)⟩

/-- Rolling on by one char. The step at the end of the document takes in its NUL. -/
theorem rkhashNext_windowHash (hdoc : doc.Ascii) (hi : i + m ≤ doc.chars.length) :
    ∃ c d, doc.read i = some c ∧ doc.read ((i : ℤ) + m) = some d ∧
      rkhashNext (windowHash doc m i) (256 ^ m % PRIME) c d = some (windowHash doc m (i + 1)) := by
  have hlen : (text doc).length = doc.chars.length + 1 := length_text
  have hc := text_nonneg hdoc (i := i) (by omega)
  have hd := text_nonneg hdoc (i := i + m) (by omega)
  refine ⟨_, _, read_text (by omega), by exact_mod_cast read_text (i := i + m) (by omega), ?_⟩
  cases m with
  | zero =>
    rw [rkhashNext_eq (windowHash_bounds _ _ _).1 (windowHash_bounds _ _ _).2 (pow_bounds 0).1
      (pow_bounds 0).2 hc hd]
    simp [windowHash, polynomial, PRIME]
  | succ k =>
    have hlen' : (((text doc).drop (i + 1)).take k).length = k := by
      rw [List.length_take, List.length_drop]
      omega
    have hslide := rkhashNext_slide (w := ((text doc).drop (i + 1)).take k) hc hd
    have hfirst : ((text doc).drop i).take (k + 1) =
        (text doc)[i] :: ((text doc).drop (i + 1)).take k := by
      rw [List.drop_eq_getElem_cons (by omega), List.take_succ_cons]
    have hlast : ((text doc).drop (i + 1)).take (k + 1) =
        ((text doc).drop (i + 1)).take k ++ [(text doc)[i + (k + 1)]] := by
      rw [List.take_succ_eq_append_getElem (by rw [List.length_drop]; omega), List.getElem_drop]
      simp only [Nat.add_assoc, Nat.add_comm 1 k]
    rw [windowHash, windowHash, hfirst, hlast]
    rwa [hlen'] at hslide

theorem mmul_emod {r c : ℤ} (hc : 0 ≤ c) (hc' : c ≤ 256) :
    mmul (r % PRIME) c = some (r * c % PRIME) := by
  have hr := Int.emod_nonneg r (show PRIME ≠ 0 by decide)
  have hr' := Int.emod_lt_of_pos r (show (0 : ℤ) < PRIME by decide)
  have hP : PRIME = 961748941 := rfl
  have hnn : 0 ≤ r % PRIME * c := by positivity
  rw [mmul_eq (by omega) (by nlinarith), tmod_canonical hnn]
  exact congrArg some ((Int.mod_modEq r PRIME).mul_right c).eq

theorem madd_emod (a b : ℤ) : madd (a % PRIME) (b % PRIME) = some ((a + b) % PRIME) := by
  have ha := Int.emod_nonneg a (show PRIME ≠ 0 by decide)
  have ha' := Int.emod_lt_of_pos a (show (0 : ℤ) < PRIME by decide)
  have hb := Int.emod_nonneg b (show PRIME ≠ 0 by decide)
  have hb' := Int.emod_lt_of_pos b (show (0 : ℤ) < PRIME by decide)
  have hP : PRIME = 961748941 := rfl
  rw [madd_eq (by omega) (by omega), tmod_canonical (by omega)]
  exact congrArg some ((Int.mod_modEq a PRIME).add (Int.mod_modEq b PRIME)).eq

theorem rkhashInitLoop_text (hdoc : doc.Ascii) (hm : m ≤ (text doc).length) (hi : i ≤ m) :
    rkhashInitLoop doc i (polynomial (((text doc).take m).drop i) % PRIME) (256 ^ (m - i) % PRIME) =
      some (polynomial ((text doc).take m) % PRIME, 256 ^ m % PRIME) := by
  induction i with
  | zero => rw [rkhashInitLoop, List.drop_zero, Nat.sub_zero]
  | succ i ih =>
    have hlt : i < (text doc).length := by omega
    have hc := text_nonneg hdoc hlt
    have hc' := toInt_bounds (text doc)[i]
    have hwin : ((text doc).take m).drop i =
        (text doc)[i] :: ((text doc).take m).drop (i + 1) := by
      rw [List.drop_eq_getElem_cons (by rw [List.length_take]; omega), List.getElem_take]
    have hlen : (((text doc).take m).drop (i + 1)).length = m - (i + 1) := by
      rw [List.length_drop, List.length_take]
      omega
    have hpow : m - i = m - (i + 1) + 1 := by omega
    have ih := ih (by omega)
    rw [hwin, polynomial, hlen, hpow, pow_succ] at ih
    rw [rkhashInitLoop, read_text hlt]
    simp only [Option.bind_eq_bind, Option.bind_some, mmul_emod hc (by omega),
      mmul_emod (show (0 : ℤ) ≤ 256 by omega) le_rfl, madd_emod]
    rwa [Int.add_comm, Int.mul_comm (256 ^ (m - (i + 1)))]

theorem rkhashInit_windowHash (hdoc : doc.Ascii) (hm : m ≤ doc.chars.length + 1) :
    rkhashInit doc m = some (windowHash doc m 0, 256 ^ m % PRIME) := by
  have hloop := rkhashInitLoop_text hdoc (m := m) (i := m) (by rwa [length_text]) le_rfl
  rw [List.drop_eq_nil_of_le (by rw [List.length_take]; omega), Nat.sub_self, pow_zero] at hloop
  exact hloop

theorem rkCreateLoop_spec (hdoc : doc.Ascii) (hL : L ≤ doc.chars.length)
    (hlow : -2147483648 ≤ L - m) (hhigh : L - m < 2147483647) {fuel n : ℕ}
    (hn : (L - m).toNat = i + n) (hf : n < fuel) (hb : 0 < bf.bsz) {xs : List ℤ}
    (H : bf.Contains xs) :
    ∃ bf', rkCreateLoop doc m L (256 ^ m % PRIME) fuel (i + 1 : ℕ) (windowHash doc m i) bf =
      some bf' ∧
      bf'.bsz = bf.bsz ∧ bf'.Contains (xs ++ (List.range' (i + 1) n).map (windowHash doc m)) := by
  induction n generalizing i fuel bf xs with
  | zero =>
    obtain ⟨fuel, rfl⟩ : ∃ k, fuel = k + 1 := ⟨fuel - 1, by omega⟩
    refine ⟨bf, ?_, rfl, by simpa using H⟩
    rw [rkCreateLoop, int_of_bounds hlow (by omega)]
    exact if_neg (by omega)
  | succ n ih =>
    obtain ⟨fuel, rfl⟩ : ∃ k, fuel = k + 1 := ⟨fuel - 1, by omega⟩
    obtain ⟨c, d, hc, hd, hnext⟩ := rkhashNext_windowHash hdoc (m := m) (i := i) (by omega)
    obtain ⟨bf₁, hadd, hbsz, H₁⟩ := H.add (windowHash_bounds doc m (i + 1)).1 hb
    have hfuel : n < fuel := by omega
    obtain ⟨bf', hloop, hbsz', H'⟩ := ih (i := i + 1) (by omega) hfuel (hbsz ▸ hb) H₁
    refine ⟨bf', ?_, hbsz'.trans hbsz, by simpa [List.range'_succ] using H'⟩
    have hpred : ((i + 1 : ℕ) : ℤ) - 1 = i := by omega
    have hsucc : int (((i + 1 : ℕ) : ℤ) + 1) = some ((i + 1 + 1 : ℕ) : ℤ) := by
      rw [int_of_bounds (by omega) (by omega), Nat.cast_succ (i + 1)]
    rw [rkCreateLoop, int_of_bounds hlow (by omega)]
    simp only [Option.bind_eq_bind, Option.bind_some, hpred, hc, hd, hnext, hadd, hsucc, hloop]
    exact if_pos (by omega)

theorem rkCreateLoop_fits {h M index docHash : ℤ} {fuel : ℕ}
    (hrun : rkCreateLoop doc M L h fuel index docHash bf = some bf') :
    Fits 32 (L - M) ∧ (index ≤ L - M → L - M < 2147483647) := by
  induction fuel generalizing index docHash bf with
  | zero => cases hrun
  | succ fuel ih =>
    obtain ⟨last, hlast, hbody⟩ := Option.bind_eq_some_iff.mp hrun
    obtain ⟨hfits, rfl⟩ := checked_eq_some.mp hlast
    refine ⟨hfits, fun hle ↦ ?_⟩
    rw [if_pos hle] at hbody
    obtain ⟨_, _, hrightmost⟩ := Option.bind_eq_some_iff.mp hbody
    obtain ⟨_, _, hnext⟩ := Option.bind_eq_some_iff.mp hrightmost
    obtain ⟨_, _, hadd⟩ := Option.bind_eq_some_iff.mp hnext
    obtain ⟨_, _, hsucc⟩ := Option.bind_eq_some_iff.mp hadd
    obtain ⟨next, hint, hrest⟩ := Option.bind_eq_some_iff.mp hsucc
    obtain ⟨hfits', rfl⟩ := checked_eq_some.mp hint
    have hlt := (fits_int.mp hfits').2
    by_cases hmore : index + 1 ≤ L - M
    · exact (ih hrest).2 hmore
    · omega

theorem docLength_le (doc : CString) : wrapSigned 32 (strlength doc) ≤ doc.chars.length := by
  have hle : strlength doc ≤ doc.chars.length := by
    rw [strlength_eq]
    exact Nat.mod_le _ _
  exact (wrapSigned_le (Int.natCast_nonneg _)).trans (Int.ofNat_le.mpr hle)

theorem rkCreateDocBloom_spec {bsz : ℕ} (hdoc : doc.Ascii) (hm : m ≤ doc.chars.length + 1)
    (hL : L = wrapSigned 32 (strlength doc)) (hlow : -2147483648 ≤ L - m)
    (hhigh : L - m < 2147483647) (hb : 0 < bsz) (h8 : 8 ∣ bsz) :
    ∃ bf, rkCreateDocBloom m doc bsz = some bf ∧ bf.bsz = bsz ∧
      bf.Contains ((List.range ((L - m).toNat + 1)).map (windowHash doc m)) := by
  obtain ⟨bf₀, hinit, rfl, H₀⟩ := bloomInit_spec h8
  obtain ⟨bf₁, hadd, hbsz₁, H₁⟩ := H₀.add (windowHash_bounds doc m 0).1 hb
  obtain ⟨bf₂, hloop, hbsz₂, H₂⟩ := rkCreateLoop_spec hdoc (hL ▸ docLength_le doc) hlow hhigh
    (i := 0) (Nat.zero_add _).symm (show (L - m).toNat < (L - m).toNat + 2 by omega) (hbsz₁ ▸ hb) H₁
  rw [Nat.zero_add, Nat.cast_one] at hloop
  refine ⟨bf₂, ?_, hbsz₂.trans hbsz₁, ?_⟩
  · rw [rkCreateDocBloom, ← hL, hinit, rkhashInit_windowHash hdoc hm]
    simp only [Option.bind_eq_bind, Option.bind_some, hadd, hloop]
  · rw [List.range_eq_range', List.range'_succ, List.map_cons]
    simpa using H₂

/-- The scan returns; it reports nothing when the pattern's hash is that of no window. -/
theorem rkLoop_spec (hdoc : doc.Ascii) (hL : L ≤ doc.chars.length) (hlow : -2147483648 ≤ L - m)
    (hhigh : L - m < 2147483647) {fuel n : ℕ} {patternHash : ℤ} {r : ℤ × ℤ}
    (hn : (L - m + 1).toNat = i + n) (hf : n < fuel) (hr : 0 ≤ r.1) (hr' : r.1 ≤ i) :
    ∃ r', rkLoop pattern doc m L patternHash (256 ^ m % PRIME) fuel i (windowHash doc m i) r =
      some r' ∧
      ((∀ j, i ≤ j → j < i + n → patternHash ≠ windowHash doc m j) → r' = r) := by
  induction n generalizing i fuel r with
  | zero =>
    obtain ⟨fuel, rfl⟩ : ∃ k, fuel = k + 1 := ⟨fuel - 1, by omega⟩
    refine ⟨r, ?_, fun _ ↦ rfl⟩
    rw [rkLoop, int_of_bounds hlow (by omega)]
    exact if_neg (by omega)
  | succ n ih =>
    obtain ⟨fuel, rfl⟩ : ∃ k, fuel = k + 1 := ⟨fuel - 1, by omega⟩
    obtain ⟨c, d, hc, hd, hnext⟩ := rkhashNext_windowHash hdoc (m := m) (i := i) (by omega)
    obtain ⟨r₁, hwin, hr₁, hr₁', hskip⟩ : ∃ r₁,
        rkWindow pattern doc patternHash (windowHash doc m i) i r = some r₁ ∧ 0 ≤ r₁.1 ∧
          r₁.1 ≤ (i + 1 : ℕ) ∧ (patternHash ≠ windowHash doc m i → r₁ = r) := by
      rw [rkWindow]
      by_cases hp : patternHash = windowHash doc m i
      · rw [if_pos hp, rkVerify_eq doc pattern.chars pattern.nonNul i (by omega)]
        simp only [Option.bind_eq_bind, Option.bind_some, tally_eq hr (by omega)]
        refine ⟨_, rfl, ?_, ?_, fun hne ↦ absurd hp hne⟩ <;> unfold record <;> split_ifs <;> omega
      · exact ⟨r, if_neg hp, hr, by omega, fun _ ↦ rfl⟩
    have hfuel : n < fuel := by omega
    obtain ⟨r', hloop, hsame⟩ := ih (i := i + 1) (by omega) hfuel hr₁ hr₁'
    refine ⟨r', ?_, fun hne ↦ ?_⟩
    · have hsucc : int ((i : ℤ) + 1) = some ((i + 1 : ℕ) : ℤ) := by
        rw [int_of_bounds (by omega) (by omega), Nat.cast_succ]
      rw [rkLoop, int_of_bounds hlow (by omega)]
      simp only [Option.bind_eq_bind, Option.bind_some, hwin, hc, hd, hnext, hsucc, hloop]
      exact if_pos (by omega)
    · rw [hsame fun j hj hj' ↦ hne j (by omega) (by omega), hskip (hne i le_rfl (by omega))]

theorem wrapSigned_strlength (s : CString) :
    wrapSigned 32 (strlength s) = wrapSigned 32 s.chars.length := by
  rw [strlength_eq, Int.natCast_mod]
  exact Int.emod_bmod _ _

theorem rkSubstringMatch_spec (hdoc : doc.Ascii) {x h : ℤ}
    (hm : wrapSigned 32 pattern.chars.length = m) (hL : L = wrapSigned 32 (strlength doc))
    (hx : rkhashInit pattern m = some (x, h)) (hlow : -2147483648 ≤ L - m)
    (hhigh : L - m < 2147483647) :
    ∃ r, rkSubstringMatch pattern doc = some r ∧
      ((∀ j ≤ (L - m).toNat, x ≠ windowHash doc m j) → r = (0, -1)) := by
  have hLn : L ≤ doc.chars.length := hL ▸ docLength_le doc
  rw [rkSubstringMatch, wrapSigned_strlength pattern, hm, ← hL]
  simp only
  by_cases hlt : (m : ℤ) > L
  · exact ⟨(0, -1), if_pos hlt, fun _ ↦ rfl⟩
  · obtain ⟨r, hloop, hskip⟩ : ∃ r, rkLoop pattern doc m L x (256 ^ m % PRIME) ((L - m).toNat + 2)
        (0 : ℕ) (windowHash doc m 0) (0, -1) = some r ∧
        ((∀ j, 0 ≤ j → j < 0 + (L - m + 1).toNat → x ≠ windowHash doc m j) → r = (0, -1)) :=
      rkLoop_spec hdoc hLn hlow hhigh (Nat.zero_add _).symm (by omega) le_rfl le_rfl
    refine ⟨r, ?_, fun hne ↦ hskip fun j _ hj ↦ hne j (by omega)⟩
    rw [if_neg hlt, hx, rkhashInit_windowHash hdoc (by omega)]
    exact hloop

variable {bsz : ℕ}

theorem rkhashInit_pattern (hp : pattern.Ascii) (M : ℤ) (hM : M ≤ pattern.chars.length) :
    ∃ x h, rkhashInit pattern M = some (x, h) ∧ 0 ≤ x := by
  obtain ⟨x, hx, hhash⟩ := rkhashInit_eq pattern M.toNat (by omega)
  refine ⟨x, 256 ^ M.toNat % PRIME, ?_, hhash.nonneg fun c hc ↦ hp c (List.mem_of_mem_take hc)⟩
  rwa [rkhashInit, Int.toNat_natCast] at hx

theorem rkCreateDocBloom_inv {M : ℤ} (hL : L = wrapSigned 32 (strlength doc))
    (hbf : rkCreateDocBloom M doc bsz = some bf) :
    ∃ bf₀ bf₁ docHash h, bloomInit bsz = some bf₀ ∧ rkhashInit doc M = some (docHash, h) ∧
      bloomAdd bf₀ docHash = some bf₁ ∧
      rkCreateLoop doc M L h ((L - M).toNat + 2) 1 docHash bf₁ = some bf := by
  rw [rkCreateDocBloom, ← hL] at hbf
  obtain ⟨bf₀, hinit, hhash⟩ := Option.bind_eq_some_iff.mp hbf
  obtain ⟨r, hr, hadd⟩ := Option.bind_eq_some_iff.mp hhash
  obtain ⟨bf₁, hbf₁, hloop⟩ := Option.bind_eq_some_iff.mp hadd
  exact ⟨bf₀, bf₁, r.1, r.2, hinit, hr, hbf₁, hloop⟩

/-- A negative length makes the loop read in front of the document. -/
theorem rkCreateDocBloom_neg {M : ℤ} (hM : M < 0) (hL : L = wrapSigned 32 (strlength doc))
    (hbf : rkCreateDocBloom M doc bsz = some bf) : L ≤ M := by
  obtain ⟨bf₀, bf₁, docHash, h, -, -, -, hloop⟩ := rkCreateDocBloom_inv hL hbf
  rw [rkCreateLoop] at hloop
  obtain ⟨last, hlast, hbody⟩ := Option.bind_eq_some_iff.mp hloop
  obtain ⟨-, rfl⟩ := checked_eq_some.mp hlast
  by_contra hle
  rw [if_pos (by omega), sub_self, zero_add, read_neg hM] at hbody
  simp at hbody

theorem bloomAdd_empty (h : bf.bsz = 0) : bloomAdd bf x = none := by
  have hset : bloomSet bf x 0 = none := by
    rw [bloomSet, bloomPos, hashI_eq (by decide)]
    simp [h]
  rw [bloomAdd, BLOOM_HASH_NUM, List.range_succ_eq_map, List.foldlM_cons, hset]
  rfl

theorem rkhashInit_reads {r : ℤ × ℤ} (h : rkhashInit doc m = some r) :
    m ≤ doc.chars.length + 1 := by
  cases m with
  | zero => exact Nat.zero_le _
  | succ i =>
    obtain ⟨c, hc, -⟩ := Option.bind_eq_some_iff.mp h
    rw [CString.read, if_pos (Int.natCast_nonneg i), Int.toNat_natCast] at hc
    have := (List.getElem?_eq_some_iff.mp hc).1
    rw [List.length_append, List.length_singleton] at this
    omega

/-- Neither the first window nor the loop of `rk_create_doc_bloom` leaves the document or the
`int`s. -/
structure Buildable (doc : CString) (M : ℤ) : Prop where
  window : M ≤ doc.chars.length + 1
  front : M < 0 → wrapSigned 32 doc.chars.length ≤ M
  low : -2147483648 ≤ wrapSigned 32 doc.chars.length - M
  high : wrapSigned 32 doc.chars.length - M < 2147483647

theorem rkCreateDocBloom_front {M : ℤ} (hM : M < 0) (hL : L = wrapSigned 32 (strlength doc))
    (hle : L ≤ M) (hb : 0 < bsz) (h8 : 8 ∣ bsz) :
    ∃ bf, rkCreateDocBloom M doc bsz = some bf ∧ bf.bsz = bsz ∧ bf.Contains [0] := by
  obtain ⟨bf₀, hinit, rfl, H₀⟩ := bloomInit_spec h8
  obtain ⟨bf, hadd, hbsz, H⟩ := H₀.add (x := 0) le_rfl hb
  have hlow := (fits_int.mp (fits_wrapSigned (strlength doc))).1
  have hhash : rkhashInit doc M = some (0, 1) := by
    rw [rkhashInit, Int.toNat_of_nonpos hM.le]
    rfl
  refine ⟨bf, ?_, hbsz, H⟩
  rw [rkCreateDocBloom, ← hL, hinit, hhash]
  simp only [Option.bind_eq_bind, Option.bind_some, hadd]
  rw [rkCreateLoop, int_of_bounds (by omega) (by omega)]
  exact if_neg (by omega)

theorem Buildable.filter {M : ℤ} (hdoc : doc.Ascii) (B : Buildable doc M) (hb : 0 < bsz)
    (h8 : 8 ∣ bsz) :
    ∃ bf, rkCreateDocBloom M doc bsz = some bf ∧ bf.bsz = bsz ∧
      bf.Contains (windowHashes doc M) := by
  by_cases hneg : M < 0
  · have hle := B.front hneg
    have hlast : (wrapSigned 32 doc.chars.length - M).toNat = 0 := by omega
    rw [windowHashes, hlast, Int.toNat_of_nonpos hneg.le]
    exact rkCreateDocBloom_front hneg (wrapSigned_strlength doc).symm hle hb h8
  · obtain ⟨m, rfl⟩ := Int.eq_ofNat_of_zero_le (not_lt.mp hneg)
    exact rkCreateDocBloom_spec hdoc (by have := B.window; omega) (wrapSigned_strlength doc).symm
      B.low B.high hb h8

theorem buildable_of_create {M : ℤ} (h8 : 8 ∣ bsz) (hbf : rkCreateDocBloom M doc bsz = some bf) :
    0 < bsz ∧ Buildable doc M := by
  obtain ⟨bf₀, bf₁, docHash, h, hinit, hhash, hadd, hloop⟩ :=
    rkCreateDocBloom_inv (wrapSigned_strlength doc).symm hbf
  obtain ⟨bf₀', hinit', hbsz₀, -⟩ := bloomInit_spec h8
  obtain rfl : bf₀' = bf₀ := Option.some_inj.mp (hinit'.symm.trans hinit)
  have hb : 0 < bsz := by
    by_contra hzero
    rw [bloomAdd_empty (by omega)] at hadd
    cases hadd
  obtain ⟨hfits, hhigh⟩ := rkCreateLoop_fits hloop
  refine ⟨hb, ?_, fun hneg ↦ ?_, (fits_int.mp hfits).1, ?_⟩
  · by_cases hneg : M < 0
    · omega
    · obtain ⟨m, rfl⟩ := Int.eq_ofNat_of_zero_le (not_lt.mp hneg)
      have := rkhashInit_reads hhash
      omega
  · exact rkCreateDocBloom_neg hneg (wrapSigned_strlength doc).symm hbf
  · by_cases hone : 1 ≤ wrapSigned 32 doc.chars.length - M
    · exact hhigh hone
    · omega

theorem contains_windowHashes {M : ℤ} (hdoc : doc.Ascii) (h8 : 8 ∣ bsz)
    (hbf : rkCreateDocBloom M doc bsz = some bf) :
    bf.bsz = bsz ∧ bf.Contains (windowHashes doc M) := by
  obtain ⟨hb, B⟩ := buildable_of_create h8 hbf
  obtain ⟨bf', hbf', hbsz, H⟩ := B.filter hdoc hb h8
  obtain rfl : bf' = bf := Option.some_inj.mp (hbf'.symm.trans hbf)
  exact ⟨hbsz, H⟩

theorem rkSubstringMatch_short {M : ℤ} (hm : wrapSigned 32 pattern.chars.length = M)
    (hL : L = wrapSigned 32 (strlength doc)) (hlt : L < M) :
    rkSubstringMatch pattern doc = some (0, -1) := by
  rw [rkSubstringMatch, wrapSigned_strlength pattern, hm, ← hL]
  exact if_pos hlt

theorem rkSubstringMatch_neg {M : ℤ} (hM : M < 0) (hm : wrapSigned 32 pattern.chars.length = M)
    (hL : M = wrapSigned 32 (strlength doc)) : rkSubstringMatch pattern doc = none := by
  refine Option.eq_none_iff_forall_not_mem.mpr fun r hr ↦ ?_
  rw [Option.mem_def, rkSubstringMatch, wrapSigned_strlength pattern, hm, ← hL] at hr
  simp only [gt_iff_lt, lt_irrefl, if_false, Option.bind_eq_bind] at hr
  obtain ⟨a, -, hinit⟩ := Option.bind_eq_some_iff.mp hr
  obtain ⟨b, -, hloop⟩ := Option.bind_eq_some_iff.mp hinit
  rw [rkLoop] at hloop
  obtain ⟨last, hlast, hbody⟩ := Option.bind_eq_some_iff.mp hloop
  obtain ⟨-, rfl⟩ := checked_eq_some.mp hlast
  rw [if_pos (by omega)] at hbody
  obtain ⟨_, _, hleft⟩ := Option.bind_eq_some_iff.mp hbody
  obtain ⟨_, _, hright⟩ := Option.bind_eq_some_iff.mp hleft
  obtain ⟨d, hd, _⟩ := Option.bind_eq_some_iff.mp hright
  rw [zero_add, read_neg hM] at hd
  cases hd

theorem using_eq {x h ind : ℤ} {found : Bool}
    (hx : rkhashInit pattern (wrapSigned 32 pattern.chars.length) = some (x, h))
    (hq : bloomQuery bf x = some found) :
    rkSubstringMatchUsingBloom pattern doc bf ind =
      if found then rkSubstringMatch pattern doc else some (0, ind) := by
  rw [rkSubstringMatchUsingBloom, wrapSigned_strlength, hx]
  simp only [Option.bind_eq_bind, Option.bind_some, hq]

theorem Buildable.search {M x h : ℤ} (hdoc : doc.Ascii) (B : Buildable doc M)
    (hM : wrapSigned 32 pattern.chars.length = M) (hx : rkhashInit pattern M = some (x, h))
    (hdef : ¬ (wrapSigned 32 doc.chars.length = M ∧ M < 0)) :
    ∃ r, rkSubstringMatch pattern doc = some r ∧ (x ∉ windowHashes doc M → r = (0, -1)) := by
  by_cases hneg : M < 0
  · have hlt : wrapSigned 32 doc.chars.length < M :=
      lt_of_le_of_ne (B.front hneg) fun he ↦ hdef ⟨he, hneg⟩
    exact ⟨(0, -1), rkSubstringMatch_short hM (wrapSigned_strlength doc).symm hlt, fun _ ↦ rfl⟩
  · obtain ⟨m, rfl⟩ := Int.eq_ofNat_of_zero_le (not_lt.mp hneg)
    obtain ⟨r, hr, hskip⟩ :=
      rkSubstringMatch_spec hdoc hM (wrapSigned_strlength doc).symm hx B.low B.high
    refine ⟨r, hr, fun hmiss ↦ hskip fun j hj he ↦ hmiss ?_⟩
    exact List.mem_map.mpr ⟨j, List.mem_range.mpr (by omega), he.symm⟩

theorem rkSubstringMatch_of_filter (hdoc : doc.Ascii) {M x h : ℤ}
    (hM : wrapSigned 32 pattern.chars.length = M) (h8 : 8 ∣ bsz)
    (hbf : rkCreateDocBloom M doc bsz = some bf) (hx : rkhashInit pattern M = some (x, h))
    (hx0 : 0 ≤ x) (hdef : ¬ (wrapSigned 32 doc.chars.length = M ∧ M < 0)) :
    0 < bf.bsz ∧ ∃ r, rkSubstringMatch pattern doc = some r ∧
      (bloomQuery bf x ≠ some true → r = (0, -1)) := by
  obtain ⟨hb, B⟩ := buildable_of_create h8 hbf
  obtain ⟨hbsz, H⟩ := contains_windowHashes hdoc h8 hbf
  obtain ⟨r, hr, hskip⟩ := B.search hdoc hM hx hdef
  exact ⟨hbsz ▸ hb, r, hr, fun hmiss ↦ hskip fun hmem ↦ hmiss (H.query hmem hx0 (hbsz ▸ hb))⟩

/-- Looking the pattern up in the filter first does not change the number of matches. -/
theorem bloom_counts_same (hp : pattern.Ascii) (hdoc : doc.Ascii) (hne : pattern.chars ≠ [])
    (hmn : pattern.chars.length ≤ doc.chars.length) (hn : doc.chars.length < 2 ^ 31)
    (hb : 0 < bsz) (h8 : 8 ∣ bsz) (ind : ℤ) :
    ∃ bf count i i', rkCreateDocBloom pattern.chars.length doc bsz = some bf ∧
      rkSubstringMatchUsingBloom pattern doc bf ind = some (count, i) ∧
      rkSubstringMatch pattern doc = some (count, i') := by
  have hpos := List.length_pos_iff.mpr hne
  have hM : wrapSigned 32 pattern.chars.length = pattern.chars.length :=
    wrapSigned_of_fits (by decide) (fits_int.mpr (by omega))
  have hL : (doc.chars.length : ℤ) = wrapSigned 32 (strlength doc) := (int_strlength hn).symm
  obtain ⟨x, h, hx, hx0⟩ := rkhashInit_pattern hp pattern.chars.length le_rfl
  obtain ⟨bf, hbf, -⟩ := rkCreateDocBloom_spec hdoc (m := pattern.chars.length) (by omega) hL
    (by omega) (by omega) hb h8
  obtain ⟨hbits, r, hr, hmiss⟩ := rkSubstringMatch_of_filter hdoc hM h8 hbf hx hx0 (by omega)
  have hq := bloomQuery_eq hx0 hbits
  rw [← hM] at hx
  cases hfound : decide (∀ i < BLOOM_HASH_NUM, bf.bit (position bf.bsz i x) = true)
  · rw [hfound] at hq
    obtain rfl := hmiss (by simp [hq])
    exact ⟨bf, 0, ind, -1, hbf, using_eq hx hq, hr⟩
  · rw [hfound] at hq
    exact ⟨bf, r.1, r.2, r.2, hbf, by rw [using_eq hx hq, if_pos rfl, hr], hr⟩

def docAB : CString := ⟨[97, 98], by simp⟩

def strE : CString := ⟨[101], by simp⟩

def bloomAB : BloomFilter := ⟨8, [0xba#8], rfl⟩

/-- The filter lets "e" through, which is not in the document. -/
theorem bloom_counts_same_collision : ∃ i i',
    rkCreateDocBloom 1 docAB 8 = some bloomAB ∧ bloomQuery bloomAB 101 = some true ∧
      rkSubstringMatchUsingBloom strE docAB bloomAB 7 = some (0, i) ∧
      rkSubstringMatch strE docAB = some (0, i') := by
  obtain ⟨bf, count, i, i', hbf, huse, hmatch⟩ :=
    bloom_counts_same (show strE.Ascii by decide) (show docAB.Ascii by decide) (by decide)
      (by decide) (by decide) (show 0 < 8 by decide) (by decide) 7
  have hfilter : rkCreateDocBloom strE.chars.length docAB (8 : ℕ) = some bloomAB := by
    decide +kernel
  obtain rfl := Option.some_inj.mp (hbf.symm.trans hfilter)
  have hnone : rkSubstringMatch strE docAB = some (0, -1) := by
    decide +kernel
  obtain ⟨rfl, -⟩ := Prod.mk.inj (Option.some_inj.mp (hmatch.symm.trans hnone))
  exact ⟨i, i', hfilter, by decide +kernel, huse, hmatch⟩

theorem long_document_overflows : ¬ ∀ pattern doc : CString, pattern.Ascii → doc.Ascii →
    1 ≤ pattern.chars.length → pattern.chars.length ≤ doc.chars.length →
    ∀ bsz : ℕ, 0 < bsz → 8 ∣ bsz → bsz < 2 ^ 31 → ∀ ind : ℤ, ∃ bf count i i',
      rkCreateDocBloom pattern.chars.length doc bsz = some bf ∧
      rkSubstringMatchUsingBloom pattern doc bf ind = some (count, i) ∧
      rkSubstringMatch pattern doc = some (count, i') := by
  intro h
  obtain ⟨bf, -, -, -, hbf, -⟩ := h strA (manyA (2 ^ 31)) (by decide) (manyA_ascii _) (by decide)
    (by rw [length_manyA]; decide) 8 (by decide) (by decide) (by decide) 0
  obtain ⟨_, _, _, _, _, _, _, hloop⟩ := rkCreateDocBloom_inv rfl hbf
  obtain ⟨hfits, -⟩ := rkCreateLoop_fits hloop
  rw [wrapSigned_strlength, length_manyA] at hfits
  exact absurd hfits (by decide)

def PositionAgrees (pattern doc : CString) (bf : BloomFilter) (ind : ℤ) : Prop :=
  ∃ r r', rkSubstringMatchUsingBloom pattern doc bf ind = some r ∧
    rkSubstringMatch pattern doc = some r' ∧ r.2 = r'.2

theorem bloomQuery_iff {M x : ℤ} (hdoc : doc.Ascii) (h8 : 8 ∣ bsz)
    (hbf : rkCreateDocBloom M doc bsz = some bf) (hx0 : 0 ≤ x) :
    bloomQuery bf x = some true ↔ ∀ i < BLOOM_HASH_NUM, ∃ y ∈ windowHashes doc M,
      ∃ j < BLOOM_HASH_NUM, position bsz i x = position bsz j y := by
  obtain ⟨hb, -⟩ := buildable_of_create h8 hbf
  obtain ⟨rfl, H⟩ := contains_windowHashes hdoc h8 hbf
  rw [bloomQuery_eq hx0 hb, Option.some_inj, decide_eq_true_iff]
  exact forall₂_congr fun i _ ↦ H _

/-- The position agrees if it was -1 before the call or the filter lets the pattern through, that
is if every bit position of the pattern is one of some window. -/
theorem positionAgrees_iff {M : ℤ} (hp : pattern.Ascii) (hdoc : doc.Ascii)
    (hM : wrapSigned 32 pattern.chars.length = M) (h8 : 8 ∣ bsz)
    (hbf : rkCreateDocBloom M doc bsz = some bf) (ind : ℤ) :
    (PositionAgrees pattern doc bf ind ↔
      ¬ (wrapSigned 32 doc.chars.length = M ∧ M < 0) ∧
      (ind = -1 ∨ ∃ x h, rkhashInit pattern M = some (x, h) ∧ bloomQuery bf x = some true)) ∧
    ∀ x h, rkhashInit pattern M = some (x, h) → (bloomQuery bf x = some true ↔
      ∀ i < BLOOM_HASH_NUM, ∃ y ∈ windowHashes doc M, ∃ j < BLOOM_HASH_NUM,
        position bsz i x = position bsz j y) := by
  have hMn : M ≤ pattern.chars.length := hM ▸ wrapSigned_le (Int.natCast_nonneg _)
  obtain ⟨x, h, hx, hx0⟩ := rkhashInit_pattern hp M hMn
  have hhit : (∃ x h, rkhashInit pattern M = some (x, h) ∧ bloomQuery bf x = some true) ↔
      bloomQuery bf x = some true := by
    simp [hx]
  refine ⟨?_, fun x' h' hx' ↦ ?_⟩
  · rw [hhit]
    by_cases hdef : wrapSigned 32 doc.chars.length = M ∧ M < 0
    · refine ⟨fun hagree ↦ ?_, fun hcond ↦ absurd hdef hcond.1⟩
      obtain ⟨r, r', -, hr', -⟩ := hagree
      have hL := wrapSigned_strlength doc
      rw [rkSubstringMatch_neg hdef.2 hM (hdef.1.symm.trans hL.symm)] at hr'
      cases hr'
    · obtain ⟨hbits, r', hr', hmiss⟩ := rkSubstringMatch_of_filter hdoc hM h8 hbf hx hx0 hdef
      have hq := bloomQuery_eq hx0 hbits
      rw [← hM] at hx
      generalize decide (∀ i < BLOOM_HASH_NUM, bf.bit (position bf.bsz i x) = true) = found at hq
      have huse : rkSubstringMatchUsingBloom pattern doc bf ind = _ := using_eq hx hq
      rw [PositionAgrees, huse, hq, hr']
      cases found
      · obtain rfl := hmiss (by simp [hq])
        simp [hdef]
      · simp [hdef]
  · obtain ⟨rfl, -⟩ := Prod.mk.inj (Option.some_inj.mp (hx.symm.trans hx'))
    exact bloomQuery_iff hdoc h8 hbf hx0

def bloomB : BloomFilter := ⟨8, [0x32#8], rfl⟩

theorem rkCreateDocBloom_b : rkCreateDocBloom 1 strB 8 = some bloomB := by
  decide +kernel

theorem positionAgrees_iff_b :
    PositionAgrees strB strB bloomB 7 ∧ ¬ PositionAgrees strA strB bloomB 7 := by
  constructor
  · refine (positionAgrees_iff (by decide) (by decide) (show _ = 1 by decide) (by decide)
      rkCreateDocBloom_b 7).1.mpr ⟨by decide, .inr ⟨98, 256, by decide, by decide +kernel⟩⟩
  · intro hagree
    obtain ⟨-, hlost | ⟨x, h, hx, hq⟩⟩ := (positionAgrees_iff (by decide) (by decide)
      (show _ = 1 by decide) (by decide) rkCreateDocBloom_b 7).1.mp hagree
    · exact absurd hlost (by decide)
    · have hhash : rkhashInit strA 1 = some (97, 256) := by decide
      have hmiss : bloomQuery bloomB 97 = some false := by decide +kernel
      obtain ⟨rfl, -⟩ := Prod.mk.inj (Option.some_inj.mp (hx.symm.trans hhash))
      rw [hmiss] at hq
      cases hq

theorem filter_miss_keeps_old_position : ¬ ∀ pattern doc : CString, pattern.Ascii → doc.Ascii →
    1 ≤ pattern.chars.length → pattern.chars.length ≤ doc.chars.length →
    ∀ (bsz : ℕ) (bf : BloomFilter), 0 < bsz → 8 ∣ bsz →
      rkCreateDocBloom pattern.chars.length doc bsz = some bf →
      ∀ ind, PositionAgrees pattern doc bf ind := by
  intro h
  obtain ⟨r, r', hr, hr', heq⟩ := h strA strB (by decide) (by decide) (by decide) (by decide) 8 bloomB
    (by decide) (by decide) rkCreateDocBloom_b 7
  have hmiss : rkSubstringMatchUsingBloom strA strB bloomB 7 = some (0, 7) := by
    decide +kernel
  have hnone : rkSubstringMatch strA strB = some (0, -1) := by
    decide +kernel
  obtain rfl := Option.some_inj.mp (hmiss.symm.trans hr)
  obtain rfl := Option.some_inj.mp (hnone.symm.trans hr')
  exact absurd heq (by decide)

end CsoLabs.Rkgrep
