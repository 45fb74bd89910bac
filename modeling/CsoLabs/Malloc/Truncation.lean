import CsoLabs.Malloc.OutOfMemory

namespace CsoLabs.Malloc

open Foundation CInt Extent

structure ChunkHolds (s : Heap) (p size : ℕ) : Prop where
  start : s.memStartBrk ≤ payloadToHeader p
  stop : payloadToHeader p + (s.hdr (payloadToHeader p)).size ≤ s.memBrk
  size : size + headerSize ≤ (s.hdr (payloadToHeader p)).size

/-- Unless `mem_sbrk` refuses, what `mm_malloc` returns is not smaller than the request. -/
def GrantsEnough (s : Heap) (size : ℕ) : Prop :=
  ∀ p s', ¬ OutOfMemory s size → mmMalloc size s = some (p, s') → ChunkHolds s' p size

variable {base size size' p : ℕ} {w : World} {s s' : Heap} {A F : List Extent} {c : Extent}

theorem Inv.chunkHolds (I : Inv s (c :: A) F) (h : size + headerSize ≤ c.size) :
    ChunkHolds s (c.addr + headerSize) size := by
  have hin := I.layout.inside (c := c) (by simp)
  have hstop := I.stop_lt (c := c) (by simp)
  have hhdr := payloadToHeader_eq (x := c.addr) (by unfold stop at hstop; omega)
  have hsize := I.size_eq (c := c) (.inl (by simp))
  unfold stop at hin
  refine ⟨?_, ?_, ?_⟩ <;> rw [hhdr]
  · omega
  · omega
  · omega

theorem Coherent.grantsEnough (C : Coherent base w A F) (hn : 0 < size)
    (h : size ≤ 2147483600 ∨ getNewsize size < -32 ∨ (MAX_HEAP : ℤ) < getNewsize size) :
    GrantsEnough w.heap size := by
  intro p s' hmem hrun
  by_cases hsize : size ≤ MAX_HEAP
  · obtain ⟨c, F', rfl, hfit, I, -⟩ := (C.inv.mmMalloc hn hsize hmem).result hrun
    exact I.chunkHolds hfit
  · refine absurd (C.refused hn ?_) hmem
    refine h.elim (fun hle ↦ .inr ?_) id
    rw [getNewsize_of_le hle]
    unfold chunkFor
    omega

theorem mmMalloc_emptyWorld (hn : 0 < size) (h0 : 0 ≤ getNewsize size)
    (hmax : getNewsize size ≤ MAX_HEAP) : ∃ s', mmMalloc size emptyWorld.heap = some (4128, s') ∧
      (s'.hdr 4096).size = (getNewsize size).toNat := by
  obtain ⟨k, hk⟩ := Int.eq_ofNat_of_zero_le h0
  have hheap : MAX_HEAP = 209715200 := rfl
  set s₁ : Heap := { emptyWorld.heap with memBrk := 4096 + k } with hs₁
  have hN : Nodes {4096} s₁ := by
    refine ⟨(by decide : 0 < 4096), (by decide : 4096 + MAX_HEAP < 2 ^ 64), ?_, ?_⟩
    · rintro x rfl
      exact ⟨le_rfl, (by decide : 4096 + headerSize ≤ 4096 + MAX_HEAP)⟩
    · rintro x rfl y rfl hne
      exact absurd rfl hne
  have hsbrk : memSbrk (getNewsize size) emptyWorld.heap = some (4096, s₁) := by
    obtain ⟨q, t, ht, rfl, rfl⟩ := (wp_memSbrk (n := getNewsize size) (s := emptyWorld.heap)
      (Q := fun q t ↦ q = 4096 ∧ t = s₁)).mpr (by
        rw [if_neg (by rw [hk]; simp only [emptyWorld]; omega), hk]
        exact ⟨rfl, rfl⟩)
    exact ht
  have hw : wp (mmMalloc size) (fun p s' ↦ p = 4128 ∧ (s'.hdr 4096).size = k) emptyWorld.heap := by
    rw [mmMalloc, if_neg hn.ne', wp_bind, wp_of_eq (findMemory_of_empty rfl), wp_ite,
      if_neg (by simp), wp_bind, wp_of_eq hsbrk, hk, sizeT_of_nonneg (by omega)]
    refine ((View.refl hN).setChunkSizeStatus rfl (v := k) (by omega) true).bind fun _ s₂ hv ↦ ?_
    refine (hv.insertAllocatedList rfl (.inl rfl)).bind fun _ s₃ hv ↦ wp_pure.mpr ⟨rfl, ?_⟩
    rw [hv.hdr 4096 rfl]
    simp [HdrMap.link]
  obtain ⟨p, s', h, rfl, hsize⟩ := hw
  exact ⟨s', h, by rw [hsize, hk, Int.toNat_natCast]⟩

theorem mmMalloc_congr (hn : 0 < size) (hn' : 0 < size') (h : getNewsize size = getNewsize size') :
    mmMalloc size = mmMalloc size' := by
  simp only [mmMalloc, findMemory, if_neg hn.ne', if_neg hn'.ne', h]

/-- The second pass cuts a chunk of -32 or -16 bytes off the free chunk. -/
theorem mmMalloc_negative :
    ((freedSecond >>= fun _ ↦ mmMalloc 4294967232) emptyWorld.heap).map
      (fun r ↦ (r.1, (r.2.hdr 4160).size, r.2.memBrk)) = some (4192, 2 ^ 64 - 32, 4224) ∧
    ((freedSecond >>= fun _ ↦ mmMalloc 4294967248) emptyWorld.heap).map
      (fun r ↦ (r.1, (r.2.hdr 4160).size, r.2.memBrk)) = some (4192, 0, 4224) := by
  constructor <;> decide +kernel

theorem not_grantsEnough_of_run {v : ℕ} (hn : 0 < size) (hn' : 0 < size')
    (h : getNewsize size = getNewsize size')
    (hrun : ((freedSecond >>= fun _ ↦ mmMalloc size') emptyWorld.heap).map
      (fun r ↦ (r.1, (r.2.hdr 4160).size, r.2.memBrk)) = some (4192, v, 4224))
    (hv : v < size + 32 ∨ 64 < v) : ∃ w, ReachableWorld 4096 w ∧ ¬ GrantsEnough w.heap size := by
  obtain ⟨w, hw, hfree, -, -⟩ := reachable_freedSecond
  refine ⟨w, hw, fun hgrants ↦ ?_⟩
  obtain ⟨A, F, C⟩ := hw.coherent base_4096
  simp only [bind, StateT.bind, hfree, Option.bind_some] at hrun
  obtain ⟨⟨p, s'⟩, hmalloc, hres⟩ := Option.map_eq_some_iff.mp hrun
  simp only [Prod.mk.injEq] at hres
  obtain ⟨rfl, hsize, hbrk⟩ := hres
  rw [← mmMalloc_congr hn hn' h] at hmalloc
  have hmem : ¬ OutOfMemory w.heap size := fun hoom ↦ by
    rw [mmMalloc_outOfMemory C.inv.top hn hoom] at hmalloc
    cases hmalloc
  obtain ⟨-, hstop, hholds⟩ := hgrants _ _ hmem hmalloc
  rw [show payloadToHeader 4192 = 4160 by decide] at hstop hholds
  unfold headerSize at hholds
  omega

theorem not_grantsEnough_emptyWorld (hbig : MAX_HEAP < size) (h0 : 0 ≤ getNewsize size)
    (hmax : getNewsize size ≤ MAX_HEAP) : ¬ GrantsEnough emptyWorld.heap size := by
  intro hgrants
  have hn : 0 < size := Nat.zero_lt_of_lt hbig
  obtain ⟨s', hmalloc, hsize⟩ := mmMalloc_emptyWorld hn h0 hmax
  have hmem : ¬ OutOfMemory emptyWorld.heap size := fun hoom ↦ by
    rw [mmMalloc_outOfMemory (by decide) hn hoom] at hmalloc
    cases hmalloc
  obtain ⟨-, -, hholds⟩ := hgrants _ _ hmem hmalloc
  rw [show payloadToHeader 4128 = 4096 by decide, hsize] at hholds
  omega

/-- The chunk size, 16-aligned and with a header, before it is cut down to an `int`. -/
def chunkBits (size : ℕ) : ℕ := ((size + 15) / 16 * 16 + 32) % 2 ^ 32

theorem getNewsize_chunkBits (size : ℕ) :
    getNewsize size = chunkBits size - if chunkBits size < 2 ^ 31 then 0 else 2 ^ 32 := by
  rw [getNewsize, wrapSigned, Int.bmod_def, align_eq]
  unfold headerSize chunkBits
  split_ifs <;> omega

theorem getNewsize_dvd (size : ℕ) : (16 : ℤ) ∣ getNewsize size := by
  rw [getNewsize_chunkBits]
  unfold chunkBits
  split_ifs <;> omega

theorem getNewsize_refused_iff : (getNewsize size < -32 ∨ (MAX_HEAP : ℤ) < getNewsize size) ↔
    MAX_HEAP < chunkBits size ∧ chunkBits size < 2 ^ 32 - 32 := by
  have hheap : MAX_HEAP = 209715200 := rfl
  have hlt : chunkBits size < 2 ^ 32 := Nat.mod_lt _ (by decide)
  rw [getNewsize_chunkBits]
  split_ifs <;> omega

/-- A request is never granted too little exactly if its chunk size is an `int`, or if the
`int` it is cut down to is one that `mem_sbrk` always refuses. -/
theorem grantsEnough_iff (hn : 0 < size) :
    (∀ base w, Base base → ReachableWorld base w → GrantsEnough w.heap size) ↔
      size ≤ 2147483600 ∨ MAX_HEAP < chunkBits size ∧ chunkBits size < 2 ^ 32 - 32 := by
  rw [← getNewsize_refused_iff]
  constructor
  · intro hgrants
    by_contra hcond
    obtain ⟨hbig, hlow, hhigh⟩ : 2147483600 < size ∧ -32 ≤ getNewsize size ∧
        getNewsize size ≤ MAX_HEAP := by omega
    have hheap : MAX_HEAP = 209715200 := rfl
    by_cases h0 : 0 ≤ getNewsize size
    · exact not_grantsEnough_emptyWorld (by omega) h0 hhigh
        (hgrants 4096 emptyWorld base_4096 reachable_emptyWorld)
    · have hdvd := getNewsize_dvd size
      have hneg : getNewsize size = -32 ∨ getNewsize size = -16 := by omega
      obtain ⟨w, hw, hno⟩ : ∃ w, ReachableWorld 4096 w ∧ ¬ GrantsEnough w.heap size := by
        rcases hneg with h | h
        · exact not_grantsEnough_of_run hn (by decide) (h.trans (by decide)) mmMalloc_negative.1
            (.inr (by decide))
        · exact not_grantsEnough_of_run hn (by decide) (h.trans (by decide)) mmMalloc_negative.2
            (.inl (by omega))
      exact hno (hgrants 4096 w base_4096 hw)
  · intro h base w hb hw
    obtain ⟨A, F, C⟩ := hw.coherent hb
    exact C.grantsEnough hn h

/-- For 3 GiB the `int` is negative, and `mem_sbrk` refuses; for 4 GiB it is 32. -/
theorem grantsEnough_iff_3GiB :
    (∀ base w, Base base → ReachableWorld base w → GrantsEnough w.heap 3221225472) ∧
    ¬ ∀ base w, Base base → ReachableWorld base w → GrantsEnough w.heap 4294967296 := by
  constructor
  · exact (grantsEnough_iff (by decide)).mpr (.inr (by decide))
  · intro h
    exact absurd ((grantsEnough_iff (by decide)).mp h) (by decide)

theorem request_cut_to_header : ¬ ∀ base w size, Base base → ReachableWorld base w → 0 < size →
    size < 2 ^ 64 → GrantsEnough w.heap size := by
  intro h
  have hsize : getNewsize (2 ^ 32) = 32 := by decide
  exact not_grantsEnough_emptyWorld (by decide) (by rw [hsize]; decide) (by rw [hsize]; decide)
    (h 4096 emptyWorld (2 ^ 32) base_4096 reachable_emptyWorld (by decide) (by decide))

end CsoLabs.Malloc
