import CsoLabs.Malloc.HeapInvariant

namespace CsoLabs.Malloc

open Foundation CInt Extent

def StillLive (w : World) (p : ℕ) (b : Block) (s : Heap) : Prop :=
  ∃ alloc, Linked s.hdr s.globalAllocatedListHead alloc ∧ payloadToHeader p ∈ alloc ∧
    ∀ i < b.size, s.mem (p + i) = w.heap.mem (p + i)

/-- A request that cannot be served returns NULL and changes nothing, and a
reallocation that cannot be served keeps its block. -/
def FailsCleanly (w : World) (size : ℕ) : Prop :=
  mmMalloc size w.heap = some (NULL, w.heap) ∧
    ∀ p b, w.live p = some b → ∃ s, mmRealloc p size w.heap = some (NULL, s) ∧ StillLive w p b s

variable {base size p : ℕ} {w : World} {b : Block} {s : Heap} {A F l r : List Extent} {n : ℤ}

structure NoChunk (F : List Extent) (n : ℤ) : Prop where
  first : ∀ d ∈ F, d.size < sizeT n
  second : ∀ d ∈ F, d.size ≤ (sizeT n + headerSize) % 2 ^ 64

theorem Inv.searchLoop_none (I : Inv s A F) (hn : NoChunk F n) (i : ℕ) (hF : F = l ++ r) {fuel : ℕ}
    (hfuel : r.length < fuel) :
    wp (Malloc.searchLoop i n fuel ((r.map addr).headD NULL)) (fun o s' ↦ o = none ∧ s' = s) s := by
  induction r generalizing l fuel with
  | nil =>
    obtain ⟨fuel, rfl⟩ := Nat.exists_eq_succ_of_ne_zero (Nat.ne_of_gt hfuel)
    rw [Malloc.searchLoop, List.map_nil, List.headD_nil, if_pos rfl, wp_pure]
    exact ⟨rfl, rfl⟩
  | cons c r ih =>
    obtain ⟨fuel, rfl⟩ := Nat.exists_eq_succ_of_ne_zero (Nat.ne_of_gt (Nat.zero_lt_of_lt hfuel))
    have hc : c ∈ F := by simp [hF]
    have hv := View.refl I.rep.lists.nodes
    have hcN := I.rep.mem_free hc
    have hc0 := I.rep.lists.nodes.ne_null hcN
    obtain ⟨hsize, hstatus⟩ := I.rep.free c hc
    have h₁ := hn.first c hc
    have h₂ := hn.second c hc
    have hrest := ih (l := l ++ [c]) (by simp [hF]) (Nat.lt_of_succ_lt_succ hfuel)
    have hI := I
    rw [hF] at hI
    have hskip : wp (Malloc.tryChunk i n c.addr) (fun o s' ↦ o = none ∧ s' = s) s := by
      rw [Malloc.tryChunk, wp_bind, hv.getChunkStatus hcN, hstatus, wp_ite, if_pos (by simp), wp_bind,
        hv.getChunkSize hcN, hsize, wp_ite]
      split_ifs with hi hbig
      · rw [wp_bind, wp_lift]
        refine ⟨false, if_neg (by omega), ?_⟩
        exact wp_pure.mpr ⟨rfl, rfl⟩
      · omega
      · exact wp_pure.mpr ⟨rfl, rfl⟩
    rw [Malloc.searchLoop, List.map_cons, List.headD_cons, if_neg hc0]
    refine hskip.bind fun o s' ho ↦ ?_
    obtain ⟨rfl, rfl⟩ := ho
    simp only [wp_bind]
    rw [hI.rep.getNext]
    exact hrest

theorem Inv.findMemory_none (I : Inv s A F) (hn : 0 < size) (hnone : NoChunk F (getNewsize size)) :
    Malloc.findMemory size s = some (NULL, s) := by
  have hw : wp (Malloc.findMemory size) (fun p s' ↦ p = NULL ∧ s' = s) s := by
    rw [Malloc.findMemory, if_neg hn.ne']
    simp only [wp_bind, wp_get]
    rw [← I.headD_free]
    refine (I.searchLoop_none hnone 0 (l := []) rfl I.fuel).mono fun o s₁ ho ↦ ?_
    obtain ⟨rfl, rfl⟩ := ho
    simp only [wp_bind, wp_get]
    rw [← I.headD_free]
    refine (I.searchLoop_none hnone 1 (l := []) rfl I.fuel).mono fun o s₂ ho ↦ ?_
    obtain ⟨rfl, rfl⟩ := ho
    exact wp_pure.mpr ⟨rfl, rfl⟩
  obtain ⟨p, s', h, rfl, rfl⟩ := hw
  exact h

theorem getNewsize_bounds (size : ℕ) :
    -2147483648 ≤ getNewsize size ∧ getNewsize size < 2147483648 := by
  have hpos : 0 < 2 ^ 32 := by decide
  have h₁ := Int.le_bmod (x := ((align size + headerSize) % 2 ^ 64 : ℕ)) hpos
  have h₂ := Int.bmod_lt (x := ((align size + headerSize) % 2 ^ 64 : ℕ)) hpos
  have h₃ : ((2 ^ 32 : ℕ) : ℤ) = 4294967296 := by norm_num
  rw [h₃] at h₁ h₂
  exact ⟨h₁, h₂⟩

theorem sizeT_of_neg {n : ℤ} (h : n < 0) (h' : -2147483648 ≤ n) : (sizeT n : ℤ) = 2 ^ 64 + n := by
  have hmod : n % 2 ^ 64 = 2 ^ 64 + n := by
    rw [← Int.add_emod_right, Int.emod_eq_of_lt (by omega) (by omega)]
    ring
  rw [sizeT, wrapUnsigned, hmod, Int.toNat_of_nonneg (by omega)]

/-- A request that comes out negative, or greater than the whole heap, is refused. -/
theorem Coherent.refused (C : Coherent base w A F) (hn : 0 < size)
    (h : getNewsize size < -32 ∨ (MAX_HEAP : ℤ) < getNewsize size) : OutOfMemory w.heap size := by
  have hbounds := getNewsize_bounds size
  have hmax := C.max
  have hstart := C.start
  have hbrk := C.inv.brk_le
  have hle := C.inv.start_le
  have hsmall : ∀ d ∈ F, d.size ≤ MAX_HEAP := fun d hd ↦ by
    have hin := C.inv.layout.inside (.inr hd)
    unfold stop at hin
    omega
  have hheap : MAX_HEAP = 209715200 := rfl
  have hnone : NoChunk F (getNewsize size) := by
    generalize getNewsize size = n at h hbounds
    have hT : (sizeT n : ℤ) = if n < 0 then 2 ^ 64 + n else n := by
      split_ifs with hneg
      · exact sizeT_of_neg hneg hbounds.1
      · obtain ⟨k, rfl⟩ := Int.eq_ofNat_of_zero_le (not_lt.mp hneg)
        rw [sizeT_of_nonneg (by omega)]
    refine ⟨fun d hd ↦ ?_, fun d hd ↦ ?_⟩
    · have := hsmall d hd
      split_ifs at hT <;> omega
    · have := hsmall d hd
      unfold headerSize
      split_ifs at hT <;> omega
  refine ⟨C.inv.findMemory_none hn hnone, ?_⟩
  obtain ⟨q, t, ht, rfl, rfl⟩ := (wp_memSbrk (n := getNewsize size) (s := w.heap)
    (Q := fun q t ↦ q = sbrkError ∧ t = w.heap)).mpr (by
      rw [if_pos (by omega)]
      exact ⟨rfl, rfl⟩)
  exact ht

theorem mmRealloc_outOfMemory (htop : s.memMaxAddr < 2 ^ 64) (hn : 0 < size)
    (h : OutOfMemory s size) : mmRealloc p size s = none := by
  have hno : ¬ wp (mmRealloc p size) (fun _ _ ↦ True) s := fun hw ↦ by
    rw [mmRealloc, wp_ite, if_pos hn, wp_bind] at hw
    obtain ⟨_, _, hm, _⟩ := hw
    rw [mmMalloc_outOfMemory htop hn h] at hm
    cases hm
  rcases hm : mmRealloc p size s with _ | ⟨q, s'⟩
  · rfl
  · exact absurd ⟨q, s', hm, trivial⟩ hno

theorem Coherent.not_stillLive (C : Coherent base w A F) (hp : w.live p = some b)
    (h : mmRealloc p 0 w.heap = some (NULL, s)) : ¬ StillLive w p b s := by
  obtain ⟨l, c, r, rfl, rfl, -⟩ := C.blocks.chunk hp
  have hp0 : c.addr + headerSize ≠ NULL := by unfold headerSize NULL; omega
  obtain ⟨⟨⟩, s', hfree, rfl⟩ := (wp_mmRealloc_zero hp0 (Q := fun _ s' ↦ s' = s)).mp
    ⟨NULL, s, h, rfl⟩
  obtain ⟨F', I, -⟩ := C.inv.mmFree.result hfree
  have hstop := C.inv.stop_lt (c := c) (by simp)
  rintro ⟨alloc, hl, hmem, -⟩
  rw [payloadToHeader_eq (by unfold stop at hstop; omega), hl.unique I.rep.lists.alloc] at hmem
  obtain ⟨d, hd, hdc⟩ := List.mem_map.mp hmem
  exact C.inv.addr_ne_middle d hd hdc

/-- Out of memory, `mm_malloc` returns only for size 0, which it answers before it asks
for memory; a reallocation never keeps its block. -/
theorem failsCleanly_iff (hb : Base base) (hw : ReachableWorld base w)
    (hmem : OutOfMemory w.heap size) :
    FailsCleanly w size ↔ size = 0 ∧ ∀ p, w.live p = none := by
  obtain ⟨A, F, C⟩ := hw.coherent hb
  constructor
  · rintro ⟨hmalloc, hrealloc⟩
    have hsize : size = 0 := by
      by_contra hne
      rw [mmMalloc_outOfMemory C.inv.top (Nat.pos_of_ne_zero hne) hmem] at hmalloc
      cases hmalloc
    subst hsize
    refine ⟨rfl, fun p ↦ ?_⟩
    rcases hp : w.live p with _ | b
    · rfl
    · obtain ⟨s, hs, hlive⟩ := hrealloc p b hp
      exact absurd hlive (C.not_stillLive hp hs)
  · rintro ⟨rfl, hnone⟩
    refine ⟨mmMalloc_zero _, fun p b hp ↦ ?_⟩
    rw [hnone] at hp
    cases hp

theorem findMemory_of_empty (h : s.globalFreeList = NULL) :
    findMemory size s = some (NULL, s) := by
  have hsearch : ∀ i n, searchLoop i n s.fuel NULL s = some (none, s) := fun i n ↦ by
    rw [Heap.fuel, searchLoop, if_pos rfl]
    rfl
  have hw : wp (findMemory size) (fun p s' ↦ p = NULL ∧ s' = s) s := by
    rw [findMemory, wp_ite]
    split_ifs
    · exact wp_pure.mpr ⟨rfl, rfl⟩
    · simp only [wp_bind, wp_get, h, wp_of_eq (hsearch _ _), wp_pure, and_self]
  obtain ⟨p, s', hp, rfl, rfl⟩ := hw
  exact hp

theorem outOfMemory_of_empty (h : s.globalFreeList = NULL)
    (hmax : (s.memBrk : ℤ) + getNewsize size > s.memMaxAddr) : OutOfMemory s size := by
  refine ⟨findMemory_of_empty h, ?_⟩
  obtain ⟨p, s', hp, rfl, rfl⟩ := (wp_memSbrk (n := getNewsize size) (s := s)
    (Q := fun p s' ↦ p = sbrkError ∧ s' = s)).mpr (by rw [if_pos (.inr hmax)]; exact ⟨rfl, rfl⟩)
  exact hp

theorem outOfMemory_emptyWorld : OutOfMemory emptyWorld.heap MAX_HEAP := by
  refine outOfMemory_of_empty rfl ?_
  rw [getNewsize_eq le_rfl]
  decide

theorem failsCleanly_iff_freedSecond : ∃ w, ReachableWorld 4096 w ∧ w.live 4128 = some (.fresh 24) ∧
    OutOfMemory w.heap MAX_HEAP ∧
    (FailsCleanly w MAX_HEAP ↔ MAX_HEAP = 0 ∧ ∀ p, w.live p = none) := by
  obtain ⟨w, hw, -, hp, -⟩ := reachable_freedSecond
  obtain ⟨A, F, C⟩ := hw.coherent base_4096
  have hmem : OutOfMemory w.heap MAX_HEAP := C.refused (by decide) (.inr (by decide))
  exact ⟨w, hw, hp, hmem, failsCleanly_iff base_4096 hw hmem⟩

theorem max_heap_faults : ReachableWorld 4096 emptyWorld ∧ OutOfMemory emptyWorld.heap MAX_HEAP ∧
    mmMalloc MAX_HEAP emptyWorld.heap ≠ some (NULL, emptyWorld.heap) := by
  refine ⟨reachable_emptyWorld, outOfMemory_emptyWorld, ?_⟩
  rw [mmMalloc_outOfMemory (by decide) (by decide) outOfMemory_emptyWorld]
  simp

end CsoLabs.Malloc
