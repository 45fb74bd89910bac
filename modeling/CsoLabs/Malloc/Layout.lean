import CsoLabs.Malloc.Merging

namespace CsoLabs.Malloc

open Foundation Extent

def WellSized (c : Extent) : Prop := 16 ∣ c.addr ∧ 16 ∣ c.size ∧ 48 ≤ c.size

structure Layout (A F : List Extent) (lo hi : ℕ) : Prop where
  tile : ∀ b, lo ≤ b ∧ b < hi ↔ Covered A b ∨ Covered F b
  apart : A.Pairwise Extent.Apart
  cross : ∀ c ∈ A, ∀ d ∈ F, c.Apart d
  separated : Separated F
  wellSized : ∀ c, c ∈ A ∨ c ∈ F → WellSized c

variable {A A' F l r : List Extent} {c d : Extent} {lo hi b n : ℕ}

theorem WellSized.pos (h : WellSized c) : 0 < c.size := by
  have := h.2.2
  omega

theorem WellSized.has_iff (h : WellSized c) :
    c.Has c.addr ∧ c.Has (c.stop - 1) := by
  have := h.2.2
  unfold Has stop
  omega

theorem WellSized.join (hc : WellSized c) (hd : WellSized d) (_ : c.stop = d.addr) :
    WellSized ⟨c.addr, c.size + d.size⟩ := by
  obtain ⟨h₁, h₂, h₃⟩ := hc
  obtain ⟨_, h₅, h₆⟩ := hd
  refine ⟨h₁, Nat.dvd_add h₂ h₅, ?_⟩
  simp only
  omega

theorem covered_perm (h : A.Perm A') : Covered A b ↔ Covered A' b := by
  simp only [Covered, h.mem_iff]

namespace Layout

theorem perm (L : Layout A F lo hi) (h : A.Perm A') : Layout A' F lo hi where
  tile b := by rw [L.tile, covered_perm h]
  apart := (h.pairwise_iff Apart.symm).mp L.apart
  cross c hc := L.cross c (h.mem_iff.mpr hc)
  separated := L.separated
  wellSized c hc := L.wellSized c (hc.imp_left h.mem_iff.mpr)

theorem inside (L : Layout A F lo hi) (hc : c ∈ A ∨ c ∈ F) : lo ≤ c.addr ∧ c.stop ≤ hi := by
  have hcov : ∀ b, c.Has b → Covered A b ∨ Covered F b := fun b hb ↦
    hc.imp (fun h ↦ ⟨c, h, hb⟩) fun h ↦ ⟨c, h, hb⟩
  have hends := (L.wellSized c hc).has_iff
  have h₁ := (L.tile _).mpr (hcov _ hends.1)
  have h₂ := (L.tile _).mpr (hcov _ hends.2)
  omega

theorem free_apart (L : Layout A F lo hi) (hc : c ∈ F) (hd : d ∈ F) (hne : c ≠ d) :
    c.Apart d := by
  have h : F.Pairwise Extent.Apart := List.Pairwise.imp (fun h ↦ .inl (le_of_lt h)) L.separated
  exact h.forall hc hd hne

theorem apart_of_ne (L : Layout A F lo hi) (hc : c ∈ A ∨ c ∈ F) (hd : d ∈ A ∨ d ∈ F)
    (hne : c ≠ d) : c.Apart d := by
  rcases hc with hc | hc <;> rcases hd with hd | hd
  · exact L.apart.forall hc hd hne
  · exact L.cross c hc d hd
  · exact (L.cross d hd c hc).symm
  · exact L.free_apart hc hd hne

theorem addr_apart (L : Layout A F lo hi) (hc : c ∈ A ∨ c ∈ F) (hd : d ∈ A ∨ d ∈ F)
    (hne : c.addr ≠ d.addr) : c.Apart d :=
  L.apart_of_ne hc hd fun h ↦ hne (h ▸ rfl)

theorem take (L : Layout A (l ++ c :: r) lo hi) : Layout (c :: A) (l ++ r) lo hi where
  tile b := by
    rw [L.tile, covered_append, covered_cons, covered_cons, covered_append,
      @or_left_comm (Covered l b), ← or_assoc, @or_comm (Covered A b)]
  apart := List.pairwise_cons.mpr
    ⟨fun d hd ↦ (L.cross d hd c (by simp)).symm, L.apart⟩
  cross d hd e he := by
    have hsep := List.pairwise_append.mp L.separated
    rcases List.mem_cons.mp hd with rfl | hd
    · rcases List.mem_append.mp he with he | he
      · exact .inr (hsep.2.2 e he d (by simp)).le
      · exact .inl ((List.pairwise_cons.mp hsep.2.1).1 e he).le
    · exact L.cross d hd e (mem_middle he)
  separated := L.separated.sublist (by simp)
  wellSized d hd := by
    rcases hd with hd | hd
    · rcases List.mem_cons.mp hd with rfl | hd
      · exact L.wellSized d (.inr (by simp))
      · exact L.wellSized d (.inl hd)
    · exact L.wellSized d (.inr (mem_middle hd))

theorem giveBack (L : Layout (c :: A) (l ++ r) lo hi) (hl : ∀ d ∈ l, d.stop ≤ c.addr)
    (hr : ∀ d ∈ r, c.stop ≤ d.addr) : Layout A (coalesce l c r) lo hi := by
  have hok : ∀ d ∈ coalesce l c r, WellSized d :=
    coalesce_forall (fun d hd ↦ L.wellSized d (.inr (by simp [hd]))) (L.wellSized c (by simp))
      (fun d hd ↦ L.wellSized d (.inr (by simp [hd]))) fun _ _ h₁ h₂ h₃ ↦ h₁.join h₂ h₃
  have hpos : ∀ d, d ∈ l ∨ d ∈ r → 0 < d.size := fun d hd ↦
    (L.wellSized d (.inr (by simpa using hd))).pos
  obtain ⟨hcA, hA⟩ := List.pairwise_cons.mp L.apart
  refine ⟨fun b ↦ ?_, hA, fun e he d hd ↦ ?_, ?_, fun d hd ↦ ?_⟩
  · rw [L.tile, covered_coalesce, covered_cons, covered_append, @or_left_comm (Covered l b),
      @or_comm (c.Has b) (Covered A b), or_assoc]
  · refine (apart_iff (L.wellSized e (by simp [he])).pos (hok d hd).pos).mpr fun b ⟨heb, hdb⟩ ↦ ?_
    have hex : ∀ f, f.Has b → 0 < f.size → e.Apart f → False := fun f hf hf0 hef ↦
      (apart_iff (L.wellSized e (by simp [he])).pos hf0).mp hef b ⟨heb, hf⟩
    rcases covered_coalesce.mp ⟨d, hd, hdb⟩ with ⟨f, hf, hfb⟩ | hcb | ⟨f, hf, hfb⟩
    · exact hex f hfb (hpos f (.inl hf)) (L.cross e (by simp [he]) f (by simp [hf]))
    · exact hex c hcb (L.wellSized c (by simp)).pos (hcA e he).symm
    · exact hex f hfb (hpos f (.inr hf)) (L.cross e (by simp [he]) f (by simp [hf]))
  · exact coalesce_separated L.separated hl hr (fun d hd ↦ hpos d (.inl hd))
      (L.wellSized c (by simp)).pos fun d hd ↦ hpos d (.inr hd)
  · exact hd.elim (fun hd ↦ L.wellSized d (by simp [hd])) (hok d)

theorem split (L : Layout (c :: A) F lo hi) (hn : 16 ∣ n) (hn' : 48 ≤ n) (hc : n + 48 ≤ c.size) :
    Layout (⟨c.addr + n, c.size - n⟩ :: ⟨c.addr, n⟩ :: A) F lo hi := by
  obtain ⟨h₁, h₂, -⟩ := L.wellSized c (by simp)
  obtain ⟨hcA, hA⟩ := List.pairwise_cons.mp L.apart
  have hsub : ∀ d, c.Apart d → Extent.Apart ⟨c.addr + n, c.size - n⟩ d ∧
      Extent.Apart ⟨c.addr, n⟩ d := fun d hd ↦ by
    unfold Extent.Apart stop at *
    simp only
    omega
  have hcov : ∀ b, c.Has b ↔
      Extent.Has ⟨c.addr + n, c.size - n⟩ b ∨ Extent.Has ⟨c.addr, n⟩ b := fun b ↦ by
    unfold Has stop
    simp only
    omega
  refine ⟨fun b ↦ ?_, ?_, fun d hd e he ↦ ?_, L.separated, fun d hd ↦ ?_⟩
  · rw [L.tile, covered_cons, covered_cons, covered_cons, hcov, or_assoc, or_assoc, or_assoc,
      or_assoc]
  · refine List.pairwise_cons.mpr ⟨fun d hd ↦ ?_, List.pairwise_cons.mpr
      ⟨fun d hd ↦ (hsub d (hcA d hd)).2, hA⟩⟩
    rcases List.mem_cons.mp hd with rfl | hd
    · exact .inr le_rfl
    · exact (hsub d (hcA d hd)).1
  · have hce := L.cross c (by simp) e he
    rcases List.mem_cons.mp hd with rfl | hd
    · exact (hsub e hce).1
    · rcases List.mem_cons.mp hd with rfl | hd
      · exact (hsub e hce).2
      · exact L.cross d (by simp [hd]) e he
  · rcases hd with hd | hd
    · rcases List.mem_cons.mp hd with rfl | hd
      · exact ⟨Nat.dvd_add h₁ hn, Nat.dvd_sub h₂ hn, by simp only; omega⟩
      · rcases List.mem_cons.mp hd with rfl | hd
        · exact ⟨h₁, hn, hn'⟩
        · exact L.wellSized d (by simp [hd])
    · exact L.wellSized d (.inr hd)

theorem extend (L : Layout A F lo hi) (hlo : lo ≤ hi) (hhi : 16 ∣ hi) (hn : 16 ∣ n)
    (hn' : 48 ≤ n) : Layout (⟨hi, n⟩ :: A) F lo (hi + n) := by
  have hap : ∀ d, d ∈ A ∨ d ∈ F → Extent.Apart ⟨hi, n⟩ d := fun d hd ↦ .inr (L.inside hd).2
  refine ⟨fun b ↦ ?_, List.pairwise_cons.mpr ⟨fun d hd ↦ hap d (.inl hd), L.apart⟩,
    fun d hd e he ↦ ?_, L.separated, fun d hd ↦ ?_⟩
  · have := L.tile b
    rw [covered_cons, or_assoc, ← this]
    unfold Has stop
    simp only
    omega
  · rcases List.mem_cons.mp hd with rfl | hd
    · exact hap e (.inr he)
    · exact L.cross d hd e he
  · rcases hd with hd | hd
    · rcases List.mem_cons.mp hd with rfl | hd
      · exact ⟨hhi, hn, hn'⟩
      · exact L.wellSized d (.inl hd)
    · exact L.wellSized d (.inr hd)

end Layout
end CsoLabs.Malloc
