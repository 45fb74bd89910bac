import CsoLabs.Rkgrep.Matchers
import Mathlib.Data.Int.ModEq

namespace CsoLabs.Rkgrep

open Foundation CInt CString

def polynomial : List Int8 → ℤ
  | [] => 0
  | c :: w => c.toInt * 256 ^ w.length + polynomial w

theorem polynomial_eq_sum (w : List Int8) :
    polynomial w = ∑ j : Fin w.length, w[j].toInt * 256 ^ (w.length - 1 - j) := by
  induction w with
  | nil => rfl
  | cons c w ih =>
    have hsum := Fin.sum_univ_succ (n := w.length) fun j : Fin (w.length + 1) ↦
      (c :: w)[j].toInt * 256 ^ (w.length - j)
    refine Eq.trans ?_ hsum.symm
    rw [polynomial, ih]
    congr 1
    refine Finset.sum_congr rfl fun j _ ↦ ?_
    have hexp : w.length - 1 - j = w.length - j.succ := by
      rw [Fin.val_succ]
      omega
    rw [hexp]
    rfl

theorem polynomial_append (w w' : List Int8) :
    polynomial (w ++ w') = polynomial w * 256 ^ w'.length + polynomial w' := by
  induction w with
  | nil => simp [polynomial]
  | cons c w ih =>
    rw [List.cons_append, polynomial, polynomial, ih, List.length_append, pow_add]
    ring

theorem polynomial_slide (c d : Int8) (w : List Int8) :
    polynomial (w ++ [d]) =
      256 * polynomial (c :: w) - c.toInt * 256 ^ (w.length + 1) + d.toInt := by
  rw [polynomial_append, polynomial, polynomial, polynomial, List.length_singleton, pow_succ]
  simp only [List.length_nil, pow_zero]
  ring

theorem tmod_modEq (x : ℤ) : x.tmod PRIME ≡ x [ZMOD PRIME] := by
  have h := Int.mul_tdiv_add_tmod x PRIME
  have hd : x - x.tmod PRIME = PRIME * x.tdiv PRIME := by omega
  exact (Int.modEq_iff_dvd.mpr ⟨_, hd⟩)

theorem tmod_bounds (x : ℤ) : -PRIME < x.tmod PRIME ∧ x.tmod PRIME < PRIME := by
  have hp : (0 : ℤ) < PRIME := by decide
  exact ⟨Int.lt_tmod_of_pos x hp, Int.tmod_lt_of_pos x hp⟩

theorem tmod_canonical {x : ℤ} (hx : 0 ≤ x) : x.tmod PRIME = x % PRIME :=
  Int.tmod_eq_emod_of_nonneg hx

theorem madd_eq {a b : ℤ} (hl : -4611686018427387904 ≤ a + b) (hu : a + b < 4611686018427387904) :
    madd a b = some ((a + b).tmod PRIME) := by
  rw [madd, longLong_of_bounds (by omega) (by omega)]
  rfl

theorem mmul_eq {a b : ℤ} (hl : -4611686018427387904 ≤ a * b) (hu : a * b < 4611686018427387904) :
    mmul a b = some ((a * b).tmod PRIME) := by
  rw [mmul, longLong_of_bounds (by omega) (by omega)]
  rfl

theorem msub_eq {a b : ℤ} (ha : 0 ≤ a) (ha' : a < PRIME) (hb : 0 ≤ b) (hb' : b < PRIME) :
    msub a b = some (if a > b then a - b else a + PRIME - b) := by
  simp only [PRIME] at *
  unfold msub
  split_ifs with h
  · exact longLong_of_bounds (by omega) (by omega)
  · rw [PRIME, longLong_of_bounds (by omega) (by omega)]
    exact longLong_of_bounds (by omega) (by omega)

variable {Y w : List Int8} {m i : ℕ} {x : ℤ}

/-- `x` is a hash of the window `w`: a C remainder of its polynomial, and the
canonical one when no char of the window is negative. -/
structure IsHash (w : List Int8) (x : ℤ) : Prop where
  congr : x ≡ polynomial w [ZMOD PRIME]
  lower : -PRIME < x
  upper : x < PRIME
  nonneg : (∀ c ∈ w, 0 < c) → 0 ≤ x

theorem IsHash.eq_emod {w : List Int8} {x : ℤ} (h : IsHash w x) (hw : ∀ c ∈ w, 0 < c) :
    x = polynomial w % PRIME := by
  rw [← h.congr.eq, Int.emod_eq_of_lt (h.nonneg hw) h.upper]

theorem IsHash.cons {w : List Int8} {x : ℤ} (h : IsHash w x) (c : Int8) :
    ∃ t y, mmul (256 ^ w.length % PRIME) c.toInt = some t ∧ madd x t = some y ∧
      IsHash (c :: w) y := by
  have hc := toInt_bounds c
  have hr := Int.emod_nonneg (256 ^ w.length) (show PRIME ≠ 0 by decide)
  have hr' := Int.emod_lt_of_pos (256 ^ w.length) (show (0 : ℤ) < PRIME by decide)
  generalize hg : (256 : ℤ) ^ w.length % PRIME = r at hr hr'
  have hrc : r ≡ 256 ^ w.length [ZMOD PRIME] := hg ▸ Int.mod_modEq _ _
  have ht := tmod_bounds (r * c.toInt)
  have hP : PRIME = 961748941 := rfl
  have hx := h.lower
  have hx' := h.upper
  refine ⟨_, _, mmul_eq (by nlinarith) (by nlinarith), madd_eq (by omega) (by omega), ?_, ?_, ?_, ?_⟩
  · calc (x + (r * c.toInt).tmod PRIME).tmod PRIME
        ≡ x + (r * c.toInt).tmod PRIME [ZMOD PRIME] := tmod_modEq _
      _ ≡ polynomial w + 256 ^ w.length * c.toInt [ZMOD PRIME] :=
          h.congr.add ((tmod_modEq _).trans (hrc.mul_right _))
      _ = polynomial (c :: w) := by rw [polynomial]; ring
  · exact (tmod_bounds _).1
  · exact (tmod_bounds _).2
  · intro hw
    have hcpos : 0 < c.toInt := by
      simpa using Int8.lt_iff_toInt_lt.mp (hw c List.mem_cons_self)
    have hxn := h.nonneg (fun d hd ↦ hw d (List.mem_cons_of_mem c hd))
    have htn := Int.tmod_nonneg PRIME (show 0 ≤ r * c.toInt by positivity)
    exact Int.tmod_nonneg _ (by omega)

def rkhashInitBufLoop (charbuf : List Int8) : ℕ → ℤ → ℤ → Option (ℤ × ℤ)
  | 0, hashret, rkval => some (hashret, rkval)
  | i + 1, hashret, rkval => do
    let c ← charbuf[i]?
    let t ← mmul rkval c.toInt
    let hashret ← madd hashret t
    let rkval ← mmul rkval 256
    rkhashInitBufLoop charbuf i hashret rkval

def rkhashInitBuf (charbuf : List Int8) (m : ℤ) : Option (ℤ × ℤ) :=
  rkhashInitBufLoop charbuf m.toNat 0 1

theorem rkhashInitLoop_eq_buf (s : CString) (i : ℕ) (x r : ℤ) :
    rkhashInitLoop s i x r = rkhashInitBufLoop (s.chars ++ [0]) i x r := by
  induction i generalizing x r with
  | zero => rfl
  | succ i ih =>
    have hread : s.read i = (s.chars ++ [0])[i]? := by
      rw [CString.read, if_pos (Int.natCast_nonneg i), Int.toNat_natCast]
    simp only [rkhashInitLoop, rkhashInitBufLoop, hread, ih]

theorem rkhashInit_eq_buf (s : CString) (m : ℤ) :
    rkhashInit s m = rkhashInitBuf (s.chars ++ [0]) m :=
  rkhashInitLoop_eq_buf s m.toNat 0 1

structure IsBufHash (w : List Int8) (x : ℤ) : Prop extends IsHash w x where
  canonical : (∀ c ∈ w, 0 ≤ c.toInt) → x = polynomial w % PRIME

theorem canonical_of_nonneg (hx : x ≡ polynomial w [ZMOD PRIME]) (h0 : 0 ≤ x) (hlt : x < PRIME) :
    x = polynomial w % PRIME := by
  rw [← hx.eq, Int.emod_eq_of_lt h0 hlt]

theorem polynomial_emod_bounds (w : List Int8) :
    0 ≤ polynomial w % PRIME ∧ polynomial w % PRIME < PRIME :=
  ⟨Int.emod_nonneg _ (by decide), Int.emod_lt_of_pos _ (by decide)⟩

theorem IsBufHash.nil : IsBufHash [] 0 :=
  ⟨⟨Int.ModEq.refl _, by decide, by decide, fun _ ↦ le_rfl⟩, fun _ ↦ rfl⟩

theorem IsBufHash.cons (H : IsBufHash w x) (c : Int8) :
    ∃ t y, mmul (256 ^ w.length % PRIME) c.toInt = some t ∧ madd x t = some y ∧
      IsBufHash (c :: w) y := by
  obtain ⟨t, y, ht, hy, H'⟩ := H.toIsHash.cons c
  refine ⟨t, y, ht, hy, H', fun hcw ↦ canonical_of_nonneg H'.congr ?_ H'.upper⟩
  obtain ⟨p, hp, ht⟩ := Option.bind_eq_some_iff.mp ht
  obtain ⟨s, hs, hy⟩ := Option.bind_eq_some_iff.mp hy
  obtain ⟨-, rfl⟩ := checked_eq_some.mp hp
  obtain ⟨-, rfl⟩ := checked_eq_some.mp hs
  obtain rfl := Option.some.inj ht
  obtain rfl := Option.some.inj hy
  have hc : 0 ≤ c.toInt := hcw c (by simp)
  have hx : 0 ≤ x := by
    rw [H.canonical fun d hd ↦ hcw d (by simp [hd])]
    exact (polynomial_emod_bounds w).1
  have hpow : 0 ≤ (256 : ℤ) ^ w.length % PRIME := Int.emod_nonneg _ (by decide)
  have ht : 0 ≤ (256 ^ w.length % PRIME * c.toInt).tmod PRIME :=
    Int.tmod_nonneg _ (mul_nonneg hpow hc)
  exact Int.tmod_nonneg _ (add_nonneg hx ht)

theorem rkhashInitBufLoop_eq (hm : m ≤ Y.length) (hi : i ≤ m)
    (hx : IsBufHash ((Y.take m).drop i) x) :
    ∃ y, rkhashInitBufLoop Y i x (256 ^ (m - i) % PRIME) = some (y, 256 ^ m % PRIME) ∧
      IsBufHash (Y.take m) y := by
  induction i generalizing x with
  | zero => exact ⟨x, rfl, hx⟩
  | succ i ih =>
    have hlt : i < Y.length := by omega
    have hwin : (Y.take m).drop i = Y[i] :: (Y.take m).drop (i + 1) := by
      rw [List.drop_eq_getElem_cons (by rw [List.length_take]; omega), List.getElem_take]
    have hlen : ((Y.take m).drop (i + 1)).length = m - (i + 1) := by
      rw [List.length_drop, List.length_take]; omega
    obtain ⟨t, y, ht, hy, hh⟩ := hx.cons Y[i]
    rw [hlen] at ht
    rw [← hwin] at hh
    obtain ⟨z, hz, hzh⟩ := ih (by omega) hh
    refine ⟨z, ?_, hzh⟩
    have hk : m - i = m - (i + 1) + 1 := by omega
    have hr := Int.emod_nonneg (256 ^ (m - (i + 1))) (show PRIME ≠ 0 by decide)
    have hr' := Int.emod_lt_of_pos (256 ^ (m - (i + 1))) (show (0 : ℤ) < PRIME by decide)
    have hP : PRIME = 961748941 := rfl
    have hv : mmul (256 ^ (m - (i + 1)) % PRIME) 256 = some (256 ^ (m - i) % PRIME) := by
      rw [mmul_eq (by omega) (by omega), tmod_canonical (by omega), hk, pow_succ]
      exact congrArg some ((Int.mod_modEq _ _).mul_right 256).eq
    simp only [rkhashInitBufLoop, List.getElem?_eq_getElem hlt, Option.bind_eq_bind,
      Option.bind_some, ht, hy, hv, hz]

theorem rkhashInitBuf_eq (hm : m ≤ Y.length) :
    ∃ y, rkhashInitBuf Y m = some (y, 256 ^ m % PRIME) ∧ IsBufHash (Y.take m) y := by
  have h0 : IsBufHash ((Y.take m).drop m) 0 := by
    rw [List.drop_eq_nil_of_le (by rw [List.length_take]; omega)]
    exact IsBufHash.nil
  obtain ⟨y, hy, hh⟩ := rkhashInitBufLoop_eq hm le_rfl h0
  rw [Nat.sub_self, pow_zero] at hy
  exact ⟨y, hy, hh⟩

theorem rkhashInit_eq (s : CString) (m : ℕ) (hm : m ≤ s.chars.length) :
    ∃ y, rkhashInit s m = some (y, 256 ^ m % PRIME) ∧ IsHash (s.chars.take m) y := by
  obtain ⟨y, hy, hh⟩ := rkhashInitBuf_eq (Y := s.chars ++ [0])
    (hm.trans (by rw [List.length_append]; exact Nat.le_add_right _ _))
  rw [List.take_append_of_le_length hm] at hh
  exact ⟨y, (rkhashInit_eq_buf s m).trans hy, hh.toIsHash⟩

/-- One rolling step on canonical values: `msub` may hand `madd` the value `PRIME`, which
the remainder taken there brings back to 0. -/
theorem rkhashNext_eq {x h : ℤ} {c d : Int8} (hx : 0 ≤ x) (hx' : x < PRIME) (hh : 0 ≤ h)
    (hh' : h < PRIME) (hc : 0 ≤ c.toInt) (hd : 0 ≤ d.toInt) :
    rkhashNext x h c d = some ((256 * x - c.toInt * h + d.toInt) % PRIME) := by
  have hP : PRIME = 961748941 := rfl
  have hcb := toInt_bounds c
  have hdb := toInt_bounds d
  have ha := tmod_bounds (256 * x)
  have hb := tmod_bounds (c.toInt * h)
  have ha0 := Int.tmod_nonneg PRIME (show 0 ≤ 256 * x by omega)
  have hb0 := Int.tmod_nonneg PRIME (show 0 ≤ c.toInt * h by positivity)
  have hac := tmod_modEq (256 * x)
  have hbc := tmod_modEq (c.toInt * h)
  have hm := msub_eq ha0 ha.2 hb0 hb.2
  have hm1 := mmul_eq (a := 256) (b := x) (by omega) (by omega)
  have hm2 := mmul_eq (a := c.toInt) (b := h) (by nlinarith) (by nlinarith)
  simp only [rkhashNext, hm1, hm2, Option.bind_eq_bind, Option.bind_some, hm]
  generalize (256 * x).tmod PRIME = a at *
  generalize (c.toInt * h).tmod PRIME = b at *
  have hs : (if a > b then a - b else a + PRIME - b) ≡ a - b [ZMOD PRIME] := by
    split_ifs
    · exact Int.ModEq.refl _
    · exact Int.modEq_iff_dvd.mpr ⟨-1, by ring⟩
  have hn : 0 ≤ (if a > b then a - b else a + PRIME - b) := by split_ifs <;> omega
  have hu : (if a > b then a - b else a + PRIME - b) ≤ PRIME := by split_ifs <;> omega
  generalize (if a > b then a - b else a + PRIME - b) = e at *
  rw [madd_eq (by omega) (by omega), tmod_canonical (by omega)]
  exact congrArg some ((hs.trans (hac.sub hbc)).add_right d.toInt).eq

/-- Rolling over an ASCII window keeps the canonical hash of the direct computation. -/
theorem rkhashNext_slide {c : Int8} {w : List Int8} {d : Int8} (hc : 0 ≤ c.toInt)
    (hd : 0 ≤ d.toInt) :
    rkhashNext (polynomial (c :: w) % PRIME) (256 ^ (w.length + 1) % PRIME) c d =
      some (polynomial (w ++ [d]) % PRIME) := by
  have hp : (0 : ℤ) < PRIME := by decide
  rw [rkhashNext_eq (Int.emod_nonneg _ hp.ne') (Int.emod_lt_of_pos _ hp)
    (Int.emod_nonneg _ hp.ne') (Int.emod_lt_of_pos _ hp) hc hd, polynomial_slide c]
  have h₁ := (Int.mod_modEq (polynomial (c :: w)) PRIME).mul_left 256
  have h₂ := (Int.mod_modEq (256 ^ (w.length + 1)) PRIME).mul_left c.toInt
  exact congrArg some ((h₁.sub h₂).add_right d.toInt).eq

end CsoLabs.Rkgrep
