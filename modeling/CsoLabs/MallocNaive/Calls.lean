import CsoLabs.MallocNaive.Chunks

namespace CsoLabs.MallocNaive

open Foundation CInt ByteMemory
open Malloc (Heap Alloc NULL MAX_HEAP ALIGNMENT sbrkError align align_eq sizeT sizeT_of_nonneg memSbrk
  wp_memSbrk wp_memcpy wp_readWord wp_writeWord)

variable {lo hi n size p : ℕ} {cs l r : List Chunk} {c d : Chunk} {s s' : Heap} {m : Memory}

theorem chunkFor_spec (size : ℕ) : 16 ∣ chunkFor size ∧ 16 ≤ chunkFor size ∧
    size + headerSize ≤ chunkFor size := by
  unfold chunkFor headerSize
  omega

theorem getNewsize_eq (h : size ≤ MAX_HEAP) : getNewsize size = chunkFor size := by
  unfold MAX_HEAP at h
  have halign : align size + headerSize = chunkFor size := by
    rw [align_eq, Nat.mod_eq_of_lt (by omega)]
    rfl
  rw [getNewsize, halign, Nat.mod_eq_of_lt (by unfold chunkFor; omega)]
  exact wrapSigned_of_fits (by decide) (fits_int.mpr (by unfold chunkFor; omega))

theorem shown_store {a v : ℕ} (hd : d.Shown m) (ha : a + 8 ≤ d.addr ∨ d.addr + 8 ≤ a) :
    d.Shown (store m a 8 v) := by
  unfold Chunk.Shown at *
  rw [load_store_of_disjoint m (by omega), hd]

theorem shown_store_self {a v : ℕ} (ha : d.addr = a) (hv : d.size + d.status.toNat = v)
    (hlt : v < 2 ^ 64) : d.Shown (store m a 8 v) := by
  unfold Chunk.Shown
  rw [ha, load_store_of_lt m a (by omega), hv]

def grown (s : Heap) (n : ℕ) : Heap :=
  { s with mem := store s.mem s.memBrk 8 (n + 1), memBrk := s.memBrk + n }

def topChunk (s : Heap) (n : ℕ) : Chunk := ⟨s.memBrk, n, true⟩

def cleared (s : Heap) (c : Chunk) : Heap := { s with mem := store s.mem c.addr 8 c.size }

def moved (s : Heap) (c : Chunk) (n size : ℕ) : Heap :=
  cleared { grown s n with
    mem := copy (grown s n).mem (s.memBrk + headerSize) (c.addr + headerSize)
      (min size (c.size - headerSize)) } c

namespace Inv

theorem extend (I : Inv s cs) (hn : 16 ∣ n) (hn' : headerSize ≤ n)
    (hroom : s.memBrk + n ≤ s.memMaxAddr) : Inv (grown s n) (cs ++ [topChunk s n]) := by
  have hlt : n + 1 < 2 ^ 64 := by
    have h₁ := I.tiles.le
    have h₂ := I.pos
    have h₃ := I.top
    omega
  refine ⟨I.pos, I.top, hroom, Nat.dvd_add I.aligned hn, I.tiles.concat rfl, ?_, ?_⟩
  · intro c hc
    rcases List.mem_append.mp hc with hc | hc
    · exact I.wellSized c hc
    · rw [List.mem_singleton.mp hc]
      exact ⟨I.aligned, hn, hn'⟩
  · intro c hc
    rcases List.mem_append.mp hc with hc | hc
    · refine shown_store (I.shown c hc) (.inr ?_)
      have h₁ := (I.tiles.inside hc).2
      have h₂ := (I.wellSized c hc).le
      unfold Chunk.stop headerSize at *
      omega
    · rw [List.mem_singleton.mp hc]
      exact shown_store_self rfl rfl hlt

theorem mmMalloc_full (hn' : size ≤ MAX_HEAP)
    (hroom : s.memMaxAddr < s.memBrk + chunkFor size) : mmMalloc size s = some (NULL, s) := by
  have hw : wp (mmMalloc size) (fun p t ↦ p = NULL ∧ t = s) s := by
    rw [MallocNaive.mmMalloc, getNewsize_eq hn']
    rw [wp_bind, wp_memSbrk, if_pos (by omega), wp_ite, if_pos rfl, wp_pure]
    exact ⟨rfl, rfl⟩
  obtain ⟨p, t, h, rfl, rfl⟩ := hw
  exact h

theorem mmMalloc_room (I : Inv s cs) (hn' : size ≤ MAX_HEAP)
    (hroom : s.memBrk + chunkFor size ≤ s.memMaxAddr) :
    mmMalloc size s = some (s.memBrk + headerSize, grown s (chunkFor size)) := by
  obtain ⟨h₁, h₂, -⟩ := chunkFor_spec size
  have htop := I.top
  have hlt : chunkFor size < 2 ^ 64 := by omega
  have hpos := I.pos
  have hle := I.tiles.le
  have I' := I.extend h₁ h₂ hroom
  have hmem : topChunk s (chunkFor size) ∈ cs ++ [topChunk s (chunkFor size)] := by simp
  have hmapped : Heap.Mapped { s with memBrk := s.memBrk + chunkFor size } s.memBrk 8 :=
    ⟨hle, by simp only; omega⟩
  have hword : chunkFor size ||| true.toNat = chunkFor size + 1 :=
    or_status true ((by decide : 2 ∣ 16).trans h₁)
  have haligned : s.memBrk % ALIGNMENT = 0 := Nat.mod_eq_zero_of_dvd I.aligned
  have hw : wp (mmMalloc size) (fun p t ↦ p = s.memBrk + headerSize ∧
      t = grown s (chunkFor size)) s := by
    rw [MallocNaive.mmMalloc, getNewsize_eq hn']
    rw [wp_bind, wp_memSbrk, if_neg (by omega), wp_ite, if_neg (by unfold sbrkError; omega),
      wp_bind, wp_assertThat, Int.toNat_natCast, sizeT_of_nonneg hlt]
    refine ⟨haligned, ?_⟩
    rw [wp_bind, setChunkSizeStatus, wp_writeWord hmapped, hword, wp_bind]
    refine (I'.getChunkStatus hmem).mpr ?_
    rw [wp_bind, wp_assertThat]
    refine ⟨rfl, ?_⟩
    rw [wp_bind]
    refine (I'.getChunkSize hmem).mpr ?_
    rw [wp_bind, wp_assertThat]
    refine ⟨rfl, ?_⟩
    rw [wp_pure]
    exact ⟨rfl, rfl⟩
  obtain ⟨p, t, h, rfl, rfl⟩ := hw
  exact h

theorem clear (I : Inv s (l ++ c :: r)) : Inv (cleared s c) (l ++ c.setStatus false :: r) := by
  have hc : c ∈ l ++ c :: r := by simp
  have hsize := I.size_lt hc
  have hmem : ∀ d ∈ l ++ c.setStatus false :: r, d = c.setStatus false ∨ d ∈ l ++ r := by
    intro d hd
    simp only [List.mem_append, List.mem_cons] at hd ⊢
    rcases hd with hd | hd | hd
    · exact .inr (.inl hd)
    · exact .inl hd
    · exact .inr (.inr hd)
  have hsub : ∀ d ∈ l ++ r, d ∈ l ++ c :: r := by
    intro d hd
    exact List.mem_append.mpr ((List.mem_append.mp hd).imp_right (List.mem_cons_of_mem _))
  have haround := I.tiles.around
  refine ⟨I.pos, I.top, I.brk_le, I.aligned, I.tiles.setStatus false, ?_, ?_⟩
  · intro d hd
    rcases hmem d hd with rfl | hd
    · exact ⟨(I.wellSized c hc).addr, (I.wellSized c hc).size, (I.wellSized c hc).le⟩
    · exact I.wellSized d (hsub d hd)
  · intro d hd
    rcases hmem d hd with rfl | hd
    · exact shown_store_self rfl rfl (by omega)
    · refine shown_store (I.shown d (hsub d hd)) ?_
      have h₁ := (I.wellSized c hc).le
      have h₂ := (I.wellSized d (hsub d hd)).le
      rcases List.mem_append.mp hd with hd | hd
      · have := haround.1 d hd
        unfold Chunk.stop headerSize at *
        omega
      · have := haround.2 d hd
        unfold Chunk.stop headerSize at *
        omega

theorem payloadToHeader_eq (I : Inv s cs) (hc : c ∈ cs) :
    payloadToHeader (c.addr + headerSize) = c.addr := by
  have h₁ := I.stop_lt hc
  have h₂ := (I.wellSized c hc).le
  unfold payloadToHeader Chunk.stop headerSize at *
  omega

/-- The first assertion of `mm_free` asks for a byte of the heap behind the header. -/
theorem mmFree_eq (I : Inv s (l ++ c :: r)) (hlt : c.addr + headerSize < s.memBrk) :
    mmFree (c.addr + headerSize) s = some ((), cleared s c) := by
  have hc : c ∈ l ++ c :: r := by simp
  have I' := I.clear
  have hlo := (I.tiles.inside hc).1
  have hmem : c.setStatus false ∈ l ++ c.setStatus false :: r := by simp
  have hword : load s.mem c.addr 8 &&& (~~~ (1 - BitVec.ofNat 64 false.toNat)).toNat = c.size := by
    rw [I.shown c hc]
    exact size_of_word _ (I.even hc) (I.size_lt hc)
  have hw : wp (mmFree (c.addr + headerSize)) (fun _ t ↦ t = cleared s c) s := by
    rw [MallocNaive.mmFree, wp_bind, wp_get, wp_bind, wp_assertThat]
    refine ⟨⟨by unfold memHeapLo; omega, by rw [I.memHeapHi]; omega⟩, ?_⟩
    dsimp only
    rw [I.payloadToHeader_eq hc, wp_bind, setChunkStatus, wp_bind, wp_readWord (I.mapped hc), hword,
      wp_writeWord (I.mapped hc), wp_bind]
    refine (I'.getChunkStatus hmem).mpr ?_
    rw [wp_bind, wp_assertThat]
    refine ⟨rfl, ?_⟩
    rw [wp_discard]
    refine (I'.mmCheckheap 0).mono ?_
    intro _ t ⟨_, ht⟩
    exact ht
  obtain ⟨_, t, h, rfl⟩ := hw
  exact h

theorem mmFree_abort (I : Inv s cs) (hge : s.memBrk ≤ p) : mmFree p s = none := by
  have hno : ¬ wp (mmFree p) (fun _ _ ↦ True) s := by
    intro hw
    rw [MallocNaive.mmFree, wp_bind, wp_get, wp_bind, wp_assertThat, I.memHeapHi] at hw
    have h₁ := hw.1.2
    have h₂ := I.pos
    have h₃ := I.tiles.le
    omega
  rcases h : mmFree p s with _ | ⟨u, t⟩
  · rfl
  · exact absurd ⟨u, t, h, trivial⟩ hno

theorem of_payload (I : Inv s cs)
    (hm : ∀ c ∈ cs, ∀ b, c.addr ≤ b → b < c.addr + 8 → m b = s.mem b) :
    Inv { s with mem := m } cs := by
  refine ⟨I.pos, I.top, I.brk_le, I.aligned, I.tiles, I.wellSized, ?_⟩
  intro c hc
  have hload : load m c.addr 8 = load s.mem c.addr 8 := load_congr (hm c hc)
  exact hload.trans (I.shown c hc)

theorem copied (I : Inv s (l ++ c :: r)) (hroom : s.memBrk + chunkFor size ≤ s.memMaxAddr) :
    Inv { grown s (chunkFor size) with
      mem := copy (grown s (chunkFor size)).mem (s.memBrk + headerSize) (c.addr + headerSize)
        (min size (c.size - headerSize)) } (l ++ c :: (r ++ [topChunk s (chunkFor size)])) := by
  obtain ⟨h₁, h₂, h₃⟩ := chunkFor_spec size
  have I₁ := I.extend h₁ h₂ hroom
  rw [List.append_assoc, List.cons_append] at I₁
  refine I₁.of_payload ?_
  intro d hd b hb hb'
  refine copy_of_outside _ _ _ _ ?_
  have hin := (I₁.tiles.inside hd).2
  have hle := (I₁.wellSized d hd).le
  by_cases htop : d = topChunk s (chunkFor size)
  · rw [htop] at hb'
    unfold topChunk headerSize at *
    exact .inl (by simp only at hb'; omega)
  · have hap := I₁.tiles.apart hd (d := topChunk s (chunkFor size)) (by simp) htop
    have hbrk : (grown s (chunkFor size)).memBrk = s.memBrk + chunkFor size := rfl
    unfold Chunk.Apart topChunk Chunk.stop headerSize at *
    simp only at hap
    omega

theorem mmRealloc_room (I : Inv s (l ++ c :: r)) (hn : 0 < size) (hn' : size ≤ MAX_HEAP)
    (hroom : s.memBrk + chunkFor size ≤ s.memMaxAddr) :
    mmRealloc (c.addr + headerSize) size s =
      some (s.memBrk + headerSize, moved s c (chunkFor size) size) ∧
    Inv (moved s c (chunkFor size) size)
      (l ++ c.setStatus false :: (r ++ [topChunk s (chunkFor size)])) := by
  obtain ⟨h₁, h₂, h₃⟩ := chunkFor_spec size
  have hc : c ∈ l ++ c :: r := by simp
  have I₁ := I.extend h₁ h₂ hroom
  have I₂ := I.copied hroom
  have hc₁ : c ∈ l ++ c :: r ++ [topChunk s (chunkFor size)] := by simp
  have hin := I.tiles.inside hc
  have hle := (I.wellSized c hc).le
  have hpos := I.pos
  have htop := I.top
  have hsize := I.size_lt hc
  have hnull : s.memBrk + headerSize ≠ NULL := by unfold headerSize NULL; omega
  have hptr : c.addr + headerSize ≠ NULL := by unfold headerSize NULL; omega
  have hcopy : (c.size + (2 ^ 64 - headerSize)) % 2 ^ 64 = c.size - headerSize := by
    unfold headerSize at *
    omega
  have hmin : (if size < c.size - headerSize then size else c.size - headerSize) =
      min size (c.size - headerSize) := by
    split_ifs <;> omega
  have hfree := I₂.mmFree_eq (by
    have hbrk : (grown s (chunkFor size)).memBrk = s.memBrk + chunkFor size := rfl
    simp only [hbrk]
    unfold Chunk.stop headerSize at *
    omega)
  have hw : wp (mmRealloc (c.addr + headerSize) size) (fun q t ↦ q = s.memBrk + headerSize ∧
      t = moved s c (chunkFor size) size) s := by
    rw [MallocNaive.mmRealloc, wp_ite, if_pos hn, wp_bind]
    refine (wp_of_eq (I.mmMalloc_room hn' hroom)).mpr ?_
    rw [wp_ite, if_neg hnull, wp_bind, wp_onlyIf, if_pos hptr]
    dsimp only
    rw [I.payloadToHeader_eq hc, wp_bind, I₁.getChunkSize hc₁, hcopy, hmin, wp_bind, wp_memcpy]
    · refine (wp_of_eq hfree).mpr ?_
      rw [wp_pure]
      exact ⟨rfl, rfl⟩
    · have hlo : (grown s (chunkFor size)).memStartBrk = s.memStartBrk := rfl
      have hhi : (grown s (chunkFor size)).memMaxAddr = s.memMaxAddr := rfl
      unfold Heap.Mapped Chunk.stop headerSize at *
      rw [hlo, hhi]
      omega
    · have hlo : (grown s (chunkFor size)).memStartBrk = s.memStartBrk := rfl
      have hhi : (grown s (chunkFor size)).memMaxAddr = s.memMaxAddr := rfl
      unfold Heap.Mapped Chunk.stop headerSize at *
      rw [hlo, hhi]
      omega
    · unfold Chunk.stop headerSize at *
      omega
  obtain ⟨q, t, h, rfl, rfl⟩ := hw
  exact ⟨h, I₂.clear⟩

theorem mmRealloc_full (hn : 0 < size) (hn' : size ≤ MAX_HEAP)
    (hroom : s.memMaxAddr < s.memBrk + chunkFor size) : mmRealloc p size s = some (NULL, s) := by
  have hw : wp (mmRealloc p size) (fun q t ↦ q = NULL ∧ t = s) s := by
    rw [MallocNaive.mmRealloc, wp_ite, if_pos hn, wp_bind]
    refine (wp_of_eq (mmMalloc_full hn' hroom)).mpr ?_
    rw [wp_ite, if_pos rfl, wp_pure]
    exact ⟨rfl, rfl⟩
  obtain ⟨q, t, h, rfl, rfl⟩ := hw
  exact h

theorem mmRealloc_null_eq (hn : 0 < size) : mmRealloc NULL size s = mmMalloc size s := by
  have hcall : mmRealloc NULL size = mmMalloc size >>= pure := by
    rw [MallocNaive.mmRealloc, if_pos hn]
    refine bind_congr fun q ↦ ?_
    split_ifs with hq
    · rw [hq]
    · simp [onlyIf]
  rw [hcall, bind_pure]

theorem mmRealloc_zero (hp : p ≠ NULL) : mmRealloc p 0 = (mmFree p >>= fun _ ↦ pure NULL) := by
  simp [MallocNaive.mmRealloc, onlyIf, hp]

theorem mmRealloc_null_zero : mmRealloc NULL 0 s = some (NULL, s) := by
  simp [MallocNaive.mmRealloc, onlyIf]
  rfl

end Inv
end CsoLabs.MallocNaive
