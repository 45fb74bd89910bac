import CsoLabs.Malloc.Layout

namespace CsoLabs.Malloc

open Foundation CInt Extent

theorem align_eq (size : ℕ) : align size = (size + 15) % 2 ^ 64 / 16 * 16 := by
  have hx : (size + 15) % 2 ^ 64 / 16 * 16 = ((size + 15) % 2 ^ 64) >>> 4 <<< 4 := by
    rw [Nat.shiftRight_eq_div_pow, Nat.shiftLeft_eq]
  rw [hx, align]
  apply Nat.eq_of_testBit_eq
  intro i
  have hm : (~~~ BitVec.ofNat 64 (ALIGNMENT - 1)).toNat = 2 ^ 64 - (15 + 1) := by decide
  have h15 : Nat.testBit 15 i = decide (i < 4) := Nat.testBit_two_pow_sub_one 4 i
  rw [BitVec.toNat_and, hm, Nat.testBit_and, Nat.testBit_two_pow_sub_succ (by decide), h15,
    Nat.testBit_shiftLeft, Nat.testBit_shiftRight]
  have hv : (BitVec.ofNat 64 size + BitVec.ofNat 64 (ALIGNMENT - 1)).toNat =
      (size + 15) % 2 ^ 64 := by simp [ALIGNMENT]
  rw [hv]
  by_cases hi : 4 ≤ i
  · rw [Nat.add_sub_cancel' hi]
    by_cases hi' : i < 64
    · simp [hi, hi', Nat.not_lt.mpr hi]
    · have : ((size + 15) % 2 ^ 64).testBit i = false :=
        Nat.testBit_lt_two_pow ((Nat.mod_lt _ (by decide)).trans_le
          (Nat.pow_le_pow_right (by decide) (Nat.not_lt.mp hi')))
      rw [this]
      simp [hi']
  · simp [hi, Nat.not_le.mp hi]

def chunkFor (size : ℕ) : ℕ := (size + 15) / 16 * 16 + 32

theorem chunkFor_eq {size : ℕ} (h : size + 15 < 2 ^ 64) :
    chunkFor size = align size + headerSize := by
  rw [align_eq, Nat.mod_eq_of_lt h]
  rfl

theorem getNewsize_of_le {size : ℕ} (h : size ≤ 2147483600) :
    getNewsize size = chunkFor size := by
  rw [getNewsize, ← chunkFor_eq (by omega), Nat.mod_eq_of_lt (by unfold chunkFor; omega)]
  exact wrapSigned_of_fits (by decide) (fits_int.mpr (by unfold chunkFor; omega))

theorem getNewsize_eq {size : ℕ} (h : size ≤ MAX_HEAP) : getNewsize size = chunkFor size :=
  getNewsize_of_le (h.trans (by decide))

theorem sizeT_of_nonneg {n : ℕ} (h : n < 2 ^ 64) : sizeT n = n := by
  rw [sizeT, wrapUnsigned_of_lt (by omega) (by exact_mod_cast h), Int.toNat_natCast]

def headers (A F : List Extent) : Set ℕ := {x | ∃ c, (c ∈ A ∨ c ∈ F) ∧ c.addr = x}

structure Inv (s : Heap) (A F : List Extent) : Prop where
  pos : 0 < s.memStartBrk
  top : s.memMaxAddr < 2 ^ 64
  start_le : s.memStartBrk ≤ s.memBrk
  brk_le : s.memBrk ≤ s.memMaxAddr
  aligned : 16 ∣ s.memBrk
  rep : Rep (headers A F) s A F
  layout : Layout A F s.memStartBrk s.memBrk

structure Frame (A : List Extent) (s s' : Heap) : Prop where
  memStartBrk : s'.memStartBrk = s.memStartBrk
  memMaxAddr : s'.memMaxAddr = s.memMaxAddr
  payload : ∀ c ∈ A, ∀ b, c.addr + headerSize ≤ b → b < c.stop → s'.mem b = s.mem b

variable {N M : Set ℕ} {s s' s'' : Heap} {A A' F F' l r : List Extent} {c d : Extent} {n size : ℕ}

theorem Frame.refl (A : List Extent) (s : Heap) : Frame A s s := ⟨rfl, rfl, fun _ _ _ _ _ ↦ rfl⟩

theorem Frame.trans (h₁ : Frame A s s') (h₂ : Frame A s' s'') : Frame A s s'' :=
  ⟨h₂.1.trans h₁.1, h₂.2.trans h₁.2,
    fun c hc b hb hb' ↦ (h₂.3 c hc b hb hb').trans (h₁.3 c hc b hb hb')⟩

theorem Frame.mono (h : Frame A s s') (hA : ∀ c ∈ A', c ∈ A) : Frame A' s s' :=
  ⟨h.1, h.2, fun c hc ↦ h.3 c (hA c hc)⟩

theorem Layout.nodes (L : Layout A F s.memStartBrk s.memBrk) (hpos : 0 < s.memStartBrk)
    (htop : s.memMaxAddr < 2 ^ 64) (hbrk : s.memBrk ≤ s.memMaxAddr) : Nodes (headers A F) s := by
  refine ⟨hpos, htop, ?_, ?_⟩
  · rintro _ ⟨c, hc, rfl⟩
    have h₁ := L.inside hc
    have h₂ := (L.wellSized c hc).2.2
    unfold Heap.Mapped headerSize
    unfold stop at h₁
    omega
  · rintro _ ⟨c, hc, rfl⟩ _ ⟨d, hd, rfl⟩ hne
    have h₁ := L.addr_apart hc hd hne
    have h₂ := (L.wellSized c hc).2.2
    have h₃ := (L.wellSized d hd).2.2
    unfold Extent.Apart stop headerSize at *
    omega

theorem Rep.of_nodes (R : Rep N s A F) (hM : Nodes M s) (hsub : headers A F ⊆ M) :
    Rep M s A F where
  lists :=
    { R.lists with
      nodes := hM
      mem := by
        rintro x (hx | hx) <;> obtain ⟨c, hc, rfl⟩ := List.mem_map.mp hx
        · exact hsub ⟨c, .inl hc, rfl⟩
        · exact hsub ⟨c, .inr hc, rfl⟩ }
  alloc := R.alloc
  free := R.free

theorem Inv.of_keeps (I : Inv s A F) (hk : Keeps N s s') (R : Rep M s' A' F')
    (L : Layout A' F' s.memStartBrk s.memBrk) : Inv s' A' F' := by
  have hL : Layout A' F' s'.memStartBrk s'.memBrk := by rwa [hk.1, hk.2]
  have h₁ : 0 < s'.memStartBrk := hk.1 ▸ I.pos
  have h₂ : s'.memMaxAddr < 2 ^ 64 := hk.3 ▸ I.top
  have h₃ : s'.memBrk ≤ s'.memMaxAddr := by rw [hk.2, hk.3]; exact I.brk_le
  exact ⟨h₁, h₂, by rw [hk.1, hk.2]; exact I.start_le, h₃, hk.2 ▸ I.aligned,
    R.of_nodes (hL.nodes h₁ h₂ h₃) subset_rfl, hL⟩

theorem Layout.payload_outside {lo hi : ℕ} (L : Layout A F lo hi) (hc : c ∈ A) {b : ℕ}
    (hb : c.addr + headerSize ≤ b) (hb' : b < c.stop) :
    ∀ x ∈ headers A F, b < x ∨ x + headerSize ≤ b := by
  rintro _ ⟨d, hd, rfl⟩
  by_cases he : c.addr = d.addr
  · exact .inr (he ▸ hb)
  · have h₁ := L.addr_apart (.inl hc) hd he
    have h₂ := (L.wellSized d hd).2.2
    unfold Extent.Apart stop headerSize at *
    omega

theorem Inv.frame (I : Inv s A F) (hk : Keeps (headers A F) s s') : Frame A s s' :=
  ⟨hk.1, hk.3, fun _ hc b hb hb' ↦ hk.bytes b (I.layout.payload_outside hc hb hb')⟩

theorem Inv.stop_lt (I : Inv s A F) (hc : c ∈ A ∨ c ∈ F) : c.stop < 2 ^ 64 := by
  have h₁ := (I.layout.inside hc).2
  have h₂ := I.brk_le
  have h₃ := I.top
  omega

theorem payloadToHeader_eq {x : ℕ} (hx : x < 2 ^ 64) : payloadToHeader (x + headerSize) = x := by
  unfold payloadToHeader headerSize
  omega

theorem Rep.notMem_free (R : Rep N s A (l ++ c :: r)) : c.addr ∉ (l ++ r).map addr := by
  have hnd := R.lists.free.nodup
  rw [List.map_append, List.map_cons, List.nodup_middle, ← List.map_append] at hnd
  exact (List.nodup_cons.mp hnd).1

theorem Rep.notMem_alloc (R : Rep N s (l ++ c :: r) F) : c.addr ∉ (l ++ r).map addr := by
  have hnd := R.lists.alloc.nodup
  rw [List.map_append, List.map_cons, List.nodup_middle, ← List.map_append] at hnd
  exact (List.nodup_cons.mp hnd).1

theorem Rep.allocate (R : Rep N s A (l ++ c :: r))
    (L : Lists N s' (c.addr :: A.map addr) (l.map addr ++ r.map addr))
    (hdata : ∀ y ∈ N, (s'.hdr y).size = (if y = c.addr then n else (s.hdr y).size) ∧
      (s'.hdr y).status = if y = c.addr then 1 else (s.hdr y).status) :
    Rep N s' (⟨c.addr, n⟩ :: A) (l ++ r) := by
  have hc : c ∈ l ++ c :: r := by simp
  have hother : ∀ y ∈ N, y ≠ c.addr →
      (s'.hdr y).size = (s.hdr y).size ∧ (s'.hdr y).status = (s.hdr y).status := by
    intro y hy hne
    have h := hdata y hy
    rwa [if_neg hne, if_neg hne] at h
  refine ⟨by simpa using L, fun d hd ↦ ?_, fun d hd ↦ ?_⟩
  · rcases List.mem_cons.mp hd with rfl | hd
    · have h := hdata _ (R.mem_free hc)
      rwa [if_pos rfl, if_pos rfl] at h
    · have h := hother _ (R.mem_alloc hd) (R.alloc_ne_free hd hc)
      rw [h.1, h.2]
      exact R.alloc d hd
  · have hne : d.addr ≠ c.addr := fun he ↦ R.notMem_free (he ▸ List.mem_map_of_mem hd)
    have h := hother _ (R.mem_free (mem_middle hd)) hne
    rw [h.1, h.2]
    exact R.free d (mem_middle hd)

theorem Inv.mmFree (I : Inv s (l ++ c :: r) F) :
    wp (mmFree (c.addr + headerSize)) (fun _ s' ↦ ∃ F', Inv s' (l ++ r) F' ∧
      s'.memBrk = s.memBrk ∧ Frame (l ++ c :: r) s s') s := by
  have hc : c ∈ l ++ c :: r := by simp
  have hstop := I.stop_lt (.inl hc)
  have L := I.layout
  have hws := L.wellSized c (.inl hc)
  rw [Malloc.mmFree, payloadToHeader_eq (by unfold stop at hstop; omega)]
  have hlists := I.rep.lists
  rw [List.map_append, List.map_cons] at hlists
  refine hlists.removeAllocated.bind fun _ s₁ ⟨L₁, hk₁, hd₁⟩ ↦ ?_
  have R₁ : Rep (headers (l ++ c :: r) F) s₁ (l ++ r) F :=
    I.rep.of_sameData hd₁ (by simpa using L₁) (fun d hd ↦ .inl (mem_middle hd)) fun d hd ↦ .inl hd
  have hcN := I.rep.mem_alloc hc
  refine (R₁.insertFreeList hcN I.rep.notMem_alloc ((hd₁ _ hcN).1.trans (I.rep.alloc c hc).1) hws.pos
    (fun d hd ↦ (L.wellSized d (.inr hd)).pos) L.separated (fun d hd ↦ L.cross c hc d hd)
    (fun d hd ↦ I.stop_lt (.inr hd)) hstop).mono
      fun _ s₂ ⟨l', r', hF, hl', hr', R₂, hk₂⟩ ↦ ?_
  subst hF
  have hk := hk₁.trans hk₂
  exact ⟨_, I.of_keeps hk R₂ ((L.perm List.perm_middle).giveBack hl' hr'), hk.2, I.frame hk⟩

/-- The first pass: a free chunk is allocated as it is. -/
theorem Inv.takeChunk (I : Inv s A (l ++ c :: r)) :
    wp (takeChunk c.addr) (fun p s' ↦ p = c.addr + headerSize ∧ Inv s' (c :: A) (l ++ r) ∧
      s'.memBrk = s.memBrk ∧ Frame A s s') s := by
  have hc : c ∈ l ++ c :: r := by simp
  have hcN := I.rep.mem_free hc
  rw [Malloc.takeChunk]
  have hlists := I.rep.lists
  rw [List.map_append, List.map_cons] at hlists
  refine hlists.removeFree.bind fun _ s₁ ⟨L₁, hk₁, hd₁⟩ ↦ ?_
  have hcA : c.addr ∉ A.map addr := fun h ↦ I.rep.lists.disj _ h (List.mem_map_of_mem hc)
  have hcF : c.addr ∉ l.map addr ++ r.map addr := by
    rw [← List.map_append]
    exact I.rep.notMem_free
  refine (L₁.insertAllocated hcN hcA hcF).bind fun _ s₂ ⟨L₂, hk₂, hd₂⟩ ↦ ?_
  rw [wp_pure]
  have R₂ : Rep (headers A (l ++ c :: r)) s₂ (c :: A) (l ++ r) := by
    refine I.rep.allocate L₂ fun y hy ↦ ?_
    rw [(hd₂ y hy).1, (hd₂ y hy).2, (hd₁ y hy).1, (hd₁ y hy).2]
    refine ⟨?_, rfl⟩
    split_ifs with hyc
    · rw [hyc, (I.rep.free c hc).1]
    · rfl
  have hk := hk₁.trans hk₂
  exact ⟨rfl, I.of_keeps hk R₂ I.layout.take, hk.2, I.frame hk⟩

end CsoLabs.Malloc
