import CsoLabs.Rkgrep.RollingHash

namespace CsoLabs.Rkgrep

open Foundation CInt CString

def rolled (Y : List Int8) (m : ℕ) : ℕ → Option (ℤ × ℤ)
  | 0 => rkhashInitBuf Y m
  | i + 1 => do
    let (cur, h) ← rolled Y m i
    let leftmost ← Y[i]?
    let rightmost ← Y[i + m]?
    let cur ← rkhashNext cur h leftmost rightmost
    return (cur, h)

variable {Y w : List Int8} {m i : ℕ} {x h : ℤ} {c d : Int8}

theorem rkhashNext_congr (hl : -PRIME < x) (hu : x < PRIME) (hh : 0 ≤ h) (hh' : h < PRIME) :
    ∃ y, rkhashNext x h c d = some y ∧ y ≡ 256 * x - c.toInt * h + d.toInt [ZMOD PRIME] ∧
      -PRIME < y ∧ y < PRIME := by
  have hP : PRIME = 961748941 := rfl
  have hc := toInt_bounds c
  have hd := toInt_bounds d
  have ha := tmod_bounds (256 * x)
  have hb := tmod_bounds (c.toInt * h)
  have hac := tmod_modEq (256 * x)
  have hbc := tmod_modEq (c.toInt * h)
  have hm₁ : mmul 256 x = some ((256 * x).tmod PRIME) := mmul_eq (by omega) (by omega)
  have hm₂ : mmul c.toInt h = some ((c.toInt * h).tmod PRIME) :=
    mmul_eq (by nlinarith) (by nlinarith)
  generalize (256 * x).tmod PRIME = a at *
  generalize (c.toInt * h).tmod PRIME = b at *
  have hsub : ∃ e, msub a b = some e ∧ e ≡ a - b [ZMOD PRIME] ∧ -3 * PRIME < e ∧ e < 3 * PRIME := by
    unfold msub
    split_ifs with hab
    · exact ⟨a - b, longLong_of_bounds (by omega) (by omega), Int.ModEq.refl _, by omega, by omega⟩
    · refine ⟨a + PRIME - b, ?_, Int.modEq_iff_dvd.mpr ⟨-1, by ring⟩, by omega, by omega⟩
      rw [longLong_of_bounds (by omega) (by omega), Option.bind_eq_bind, Option.bind_some]
      exact longLong_of_bounds (by omega) (by omega)
  obtain ⟨e, he, hec, hel, heu⟩ := hsub
  refine ⟨(e + d.toInt).tmod PRIME, ?_, ?_, (tmod_bounds _).1, (tmod_bounds _).2⟩
  · simp only [rkhashNext, hm₁, hm₂, he, Option.bind_eq_bind, Option.bind_some]
    exact madd_eq (by omega) (by omega)
  · exact (tmod_modEq _).trans ((hec.trans (hac.sub hbc)).add_right d.toInt)

theorem window_head (hi : i + m < Y.length) :
    (Y.drop i).take (m + 1) = Y[i] :: (Y.drop (i + 1)).take m := by
  rw [List.drop_eq_getElem_cons (by omega), List.take_succ_cons]

theorem window_last (hi : i + m < Y.length) :
    (Y.drop i).take (m + 1) = (Y.drop i).take m ++ [Y[i + m]] := by
  rw [List.take_add_one, List.getElem?_drop, List.getElem?_eq_getElem hi]
  rfl

structure IsRolled (Y : List Int8) (m i : ℕ) (x : ℤ) : Prop where
  congr : x ≡ polynomial ((Y.drop i).take m) [ZMOD PRIME]
  lower : -PRIME < x
  upper : x < PRIME
  canonical : (∀ c ∈ Y, 0 ≤ c.toInt) → x = polynomial ((Y.drop i).take m) % PRIME

theorem IsRolled.next (hm : 1 ≤ m) (hi : i + m < Y.length) (H : IsRolled Y m i x) :
    ∃ y, rkhashNext x (256 ^ m % PRIME) Y[i] Y[i + m] = some y ∧ IsRolled Y m (i + 1) y := by
  obtain ⟨k, rfl⟩ : ∃ k, m = k + 1 := ⟨m - 1, by omega⟩
  set w := (Y.drop (i + 1)).take k with hw
  have hlen : w.length = k := by
    rw [hw, List.length_take, List.length_drop]
    omega
  have hhead : (Y.drop i).take (k + 1) = Y[i] :: w := window_head (by omega)
  have hlast : (Y.drop (i + 1)).take (k + 1) = w ++ [Y[i + (k + 1)]] := by
    rw [window_last (by omega)]
    simp only [Nat.add_assoc, Nat.add_comm 1 k, ← hw]
  have hpow := Int.emod_nonneg (256 ^ (k + 1)) (show PRIME ≠ 0 by decide)
  have hpow' := Int.emod_lt_of_pos (256 ^ (k + 1)) (show (0 : ℤ) < PRIME by decide)
  obtain ⟨y, hy, hyc, hyl, hyu⟩ :=
    rkhashNext_congr (c := Y[i]) (d := Y[i + (k + 1)]) H.lower H.upper
    hpow hpow'
  refine ⟨y, hy, ?_, hyl, hyu, fun hY ↦ ?_⟩
  · rw [hlast, polynomial_slide Y[i], hlen]
    have hx := H.congr
    rw [hhead] at hx
    have hcoef := (Int.mod_modEq (256 ^ (k + 1)) PRIME).mul_left Y[i].toInt
    exact hyc.trans (((hx.mul_left 256).sub hcoef).add_right _)
  · have hslide := rkhashNext_slide (c := Y[i]) (w := w) (d := Y[i + (k + 1)])
      (hY _ (List.getElem_mem _)) (hY _ (List.getElem_mem _))
    have hx := H.canonical hY
    rw [hhead] at hx
    rw [hlen, ← hx, hy] at hslide
    rw [hlast]
    exact Option.some.inj hslide

theorem rolled_spec (hm : 1 ≤ m) (hi : i + m ≤ Y.length) :
    ∃ x, rolled Y m i = some (x, 256 ^ m % PRIME) ∧ IsRolled Y m i x := by
  induction i with
  | zero =>
    obtain ⟨x, hx, H⟩ := rkhashInitBuf_eq (by omega : m ≤ Y.length)
    exact ⟨x, hx, H.congr, H.lower, H.upper, fun hY ↦ H.canonical fun c hc ↦
      hY c (List.mem_of_mem_take hc)⟩
  | succ i ih =>
    obtain ⟨x, hx, H⟩ := ih (by omega)
    obtain ⟨y, hy, H'⟩ := H.next hm (by omega)
    refine ⟨y, ?_, H'⟩
    simp only [rolled, hx, List.getElem?_eq_getElem (show i < Y.length by omega),
      List.getElem?_eq_getElem (show i + m < Y.length by omega), hy, Option.bind_eq_bind,
      Option.bind_some]
    rfl

/-- No operation of the roll or of the direct hash overflows, and both stay congruent to the
polynomial of the window. If no char is negative they are the same canonical value. -/
theorem rolling_equals_direct (hm : 1 ≤ m) (hi : i + m ≤ Y.length) :
    ∃ x x', rolled Y m i = some (x, 256 ^ m % PRIME) ∧
      rkhashInitBuf (Y.drop i) m = some (x', 256 ^ m % PRIME) ∧
      x ≡ polynomial ((Y.drop i).take m) [ZMOD PRIME] ∧
      x' ≡ polynomial ((Y.drop i).take m) [ZMOD PRIME] ∧
      ((∀ c ∈ Y, 0 ≤ c.toInt) → x = x' ∧ x' = polynomial ((Y.drop i).take m) % PRIME) := by
  obtain ⟨x, hx, H⟩ := rolled_spec hm hi
  obtain ⟨x', hx', H'⟩ := rkhashInitBuf_eq (show m ≤ (Y.drop i).length by
    rw [List.length_drop]; omega)
  refine ⟨x, x', hx, hx', H.congr, H'.congr, fun hY ↦ ?_⟩
  have hdirect := H'.canonical fun c hc ↦ hY c (List.mem_of_mem_drop (List.mem_of_mem_take hc))
  exact ⟨(H.canonical hY).trans hdirect.symm, hdirect⟩

theorem rolling_equals_direct_abc :
    ∃ x, rolled [97, 98, 99] 2 1 = some (x, 256 ^ 2 % PRIME) ∧
      rkhashInitBuf [98, 99] 2 = some (x, 256 ^ 2 % PRIME) := by
  obtain ⟨x, x', hx, hx', -, -, hsame⟩ :=
    rolling_equals_direct (Y := [97, 98, 99]) (m := 2) (i := 1)
    (by decide) (by decide)
  obtain ⟨rfl, -⟩ := hsame (by simp)
  exact ⟨x, hx, hx'⟩

theorem negative_char_rolls_apart : ¬ ∀ (Y : List Int8) (m i : ℕ), 1 ≤ m → i + m < Y.length →
    ∃ x h h', rolled Y m (i + 1) = some (x, h) ∧
      rkhashInitBuf (Y.drop (i + 1)) m = some (x, h') ∧
      x = polynomial ((Y.drop (i + 1)).take m) % PRIME := by
  intro h
  obtain ⟨x, h, h', hx, hx', -⟩ := h [0, -1] 1 0 le_rfl (by decide)
  have hroll : rolled [0, -1] 1 1 = some (PRIME - 1, 256) := by decide
  have hdirect : rkhashInitBuf ([0, -1].drop 1) 1 = some (-1, 256) := by decide
  have h₁ : x = PRIME - 1 := congrArg Prod.fst (Option.some.inj (hx.symm.trans hroll))
  have h₂ : x = -1 := congrArg Prod.fst (Option.some.inj (hx'.symm.trans hdirect))
  exact absurd (h₁.symm.trans h₂) (by decide)

end CsoLabs.Rkgrep
