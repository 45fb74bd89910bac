import CsoLabs.MallocNaive.Runs

namespace CsoLabs.MallocNaive

open Foundation
open Malloc (Heap World Op Block Package Provides Base Spares Isolated NULL MAX_HEAP memInit gain lose
  reallocated)

structure BumpCalls (base : ℕ) (w : World) : Prop where
  refuses : ∀ size ≤ MAX_HEAP, base + MAX_HEAP < w.heap.memBrk + chunkFor size →
    mmMalloc size w.heap = some (NULL, w.heap) ∧
      (0 < size → ∀ p, mmRealloc p size w.heap = some (NULL, w.heap))
  grows : ∀ size ≤ MAX_HEAP, w.heap.memBrk + chunkFor size ≤ base + MAX_HEAP →
    ∃ s, mmMalloc size w.heap = some (w.heap.memBrk + headerSize, s) ∧
      s.memBrk = w.heap.memBrk + chunkFor size
  moves : ∀ size ≤ MAX_HEAP, 0 < size → w.heap.memBrk + chunkFor size ≤ base + MAX_HEAP →
    ∀ p b, w.live p = some b → ∃ s,
      mmRealloc p size w.heap = some (w.heap.memBrk + headerSize, s) ∧
      s.memBrk = w.heap.memBrk + chunkFor size ∧
      ∀ i < min b.size size, s.mem (w.heap.memBrk + headerSize + i) = w.heap.mem (p + i)
  frees : ∀ p b, w.live p = some b → ((∃ s, mmFree p w.heap = some ((), s)) ↔ p < w.heap.memBrk)

/-- The checker visits the chunks in order and its totals are right: `cs` has every byte of the
heap in one chunk, and its chunks with the status bit are the blocks that the client holds. -/
def CheckerExact (base : ℕ) (w : World) : Prop :=
  ∃ cs, Tiles base cs w.heap.memBrk ∧
    (∀ p, (∃ b, w.live p = some b) ↔ ∃ c ∈ cs, c.status = true ∧ p = c.addr + headerSize) ∧
    ∀ v, ∃ t, mmCheckheap v w.heap =
        some (lines v cs ++ (if v > 0 then [.totals t] else []), w.heap) ∧
      t.allocated = cs.countP Chunk.status ∧ t.allocated + t.free = cs.length ∧
      t.allocatedSz = ((cs.filter Chunk.status).map Chunk.size).sum ∧
      t.allocatedSz + t.freeSz = w.heap.memBrk - base

variable {base size p q : ℕ} {w w' : World} {s s' : Heap} {cs l r : List Chunk} {c d : Chunk}
  {live : ℕ → Option Block} {b : Block} {op : Op} {t : Totals}

section Break

open Malloc (Alloc Grown SameBounds sameBounds_readWord sameBounds_writeWord sameBounds_memcpy
  grown_memSbrk)

theorem sameBounds_getChunkSize (x : ℕ) : Within SameBounds (getChunkSize x) :=
  .bind (sameBounds_readWord x) fun _ ↦ .pure _

theorem sameBounds_getChunkStatus (x : ℕ) : Within SameBounds (getChunkStatus x) :=
  .bind (sameBounds_readWord x) fun _ ↦ .pure _

theorem sameBounds_checkLoop (v : ℤ) (fuel h : ℕ) (t : Totals) :
    Within SameBounds (checkLoop v fuel h t) := by
  induction fuel generalizing h t with
  | zero => exact .failure
  | succ fuel ih =>
    refine .bind .get fun _ ↦ .ite ?_ (.pure _)
    exact .bind (sameBounds_getChunkSize h) fun _ ↦ .bind (sameBounds_getChunkStatus h) fun _ ↦
      .bind (.bind (sameBounds_getChunkSize h) fun _ ↦ .pure _) fun next ↦
      .bind (ih next _) fun _ ↦ .pure _

theorem sameBounds_mmFree (p : ℕ) : Within SameBounds (mmFree p) := by
  refine .bind .get fun _ ↦ .bind .assertThat fun _ ↦ .bind ?_ fun _ ↦
    .bind (sameBounds_getChunkStatus _) fun _ ↦ .bind .assertThat fun _ ↦ .map ?_
  · exact .bind (sameBounds_readWord _) fun _ ↦ sameBounds_writeWord _ _
  · exact .bind .get fun _ ↦ .bind (sameBounds_checkLoop _ _ _ _) fun _ ↦ .pure _

theorem grown_mmFree (p : ℕ) : Within Grown (mmFree p) :=
  (sameBounds_mmFree p).mono fun _ _ ↦ SameBounds.grown

theorem grown_mmMalloc (size : ℕ) : Within Grown (mmMalloc size) := by
  refine .bind (grown_memSbrk _) fun h ↦ .ite (.pure _) (.bind .assertThat fun _ ↦ ?_)
  have htail : Within SameBounds (do
      setChunkSizeStatus h (Malloc.sizeT (getNewsize size)) true
      assertThat ((← getChunkStatus h) = true)
      assertThat ((← getChunkSize h) = Malloc.sizeT (getNewsize size))
      pure (headerToPayload h)) :=
    .bind (sameBounds_writeWord _ _) fun _ ↦ .bind (sameBounds_getChunkStatus _) fun _ ↦
      .bind .assertThat fun _ ↦ .bind (sameBounds_getChunkSize _) fun _ ↦
      .bind .assertThat fun _ ↦ .pure _
  exact htail.mono fun _ _ ↦ SameBounds.grown

theorem grown_mmRealloc (p size : ℕ) : Within Grown (mmRealloc p size) := by
  have hsame : ∀ {α : Type} {c : Alloc α}, Within SameBounds c → Within Grown c :=
    fun h ↦ h.mono fun _ _ ↦ SameBounds.grown
  refine .ite (.bind (grown_mmMalloc size) fun q ↦ .ite (.pure _) (.bind (.onlyIf ?_) fun _ ↦ .pure q))
    (.bind (.onlyIf (grown_mmFree p)) fun _ ↦ .pure _)
  exact .bind (hsame (sameBounds_getChunkSize _)) fun _ ↦
    .bind (hsame (sameBounds_memcpy _ _ _)) fun _ ↦ grown_mmFree p

end Break

/-- No `size_t` counter wraps around on a walk over a heap. -/
theorem countAll_spec (hlen : t.allocated + t.free + cs.length < 2 ^ 64)
    (hsum : t.allocatedSz + t.freeSz + (cs.map Chunk.size).sum < 2 ^ 64) :
    (countAll t cs).allocated = t.allocated + cs.countP Chunk.status ∧
    (countAll t cs).allocated + (countAll t cs).free = t.allocated + t.free + cs.length ∧
    (countAll t cs).allocatedSz = t.allocatedSz + ((cs.filter Chunk.status).map Chunk.size).sum ∧
    (countAll t cs).allocatedSz + (countAll t cs).freeSz =
      t.allocatedSz + t.freeSz + (cs.map Chunk.size).sum := by
  induction cs generalizing t with
  | nil => simp [countAll]
  | cons c cs ih =>
    have hcons : countAll t (c :: cs) = countAll (t.count c.size c.status) cs := rfl
    rw [List.length_cons] at hlen
    rw [List.map_cons, List.sum_cons] at hsum
    rw [hcons, List.length_cons, List.map_cons, List.sum_cons]
    cases hst : c.status with
    | false =>
      have hcount : t.count c.size false =
          { t with freeSz := t.freeSz + c.size, free := t.free + 1 } := by
        unfold Totals.count
        simp only [Bool.false_eq_true, if_false]
        rw [Nat.mod_eq_of_lt (by omega), Nat.mod_eq_of_lt (by omega)]
      obtain ⟨h₁, h₂, h₃, h₄⟩ := ih (t := t.count c.size false)
        (by rw [hcount]; simp only; omega) (by rw [hcount]; simp only; omega)
      rw [List.countP_cons_of_neg (by simp [hst]), List.filter_cons_of_neg (by simp [hst])]
      rw [hcount] at h₁ h₂ h₃ h₄ ⊢
      dsimp only at h₁ h₂ h₃ h₄
      exact ⟨h₁, by omega, h₃, by omega⟩
    | true =>
      have hcount : t.count c.size true =
          { t with allocatedSz := t.allocatedSz + c.size, allocated := t.allocated + 1 } := by
        unfold Totals.count
        simp only [if_true]
        rw [Nat.mod_eq_of_lt (by omega), Nat.mod_eq_of_lt (by omega)]
      obtain ⟨h₁, h₂, h₃, h₄⟩ := ih (t := t.count c.size true)
        (by rw [hcount]; simp only; omega) (by rw [hcount]; simp only; omega)
      rw [List.countP_cons_of_pos (by simp [hst]), List.filter_cons_of_pos (by simp [hst]),
        List.map_cons, List.sum_cons]
      rw [hcount] at h₁ h₂ h₃ h₄ ⊢
      dsimp only at h₁ h₂ h₃ h₄
      exact ⟨by omega, by omega, by omega, by omega⟩

namespace Coherent

theorem bumpCalls (C : Coherent base w cs) : BumpCalls base w where
  refuses size hsize hfull := by
    rw [← C.max] at hfull
    refine ⟨Inv.mmMalloc_full hsize hfull, ?_⟩
    intro hn p
    exact Inv.mmRealloc_full hn hsize hfull
  grows size hsize hroom := by
    rw [← C.max] at hroom
    exact ⟨_, C.inv.mmMalloc_room hsize hroom, rfl⟩
  moves size hsize hn hroom p b hp := by
    rw [← C.max] at hroom
    obtain ⟨l, c, r, rfl, -, rfl, hfit⟩ := C.blocks.chunk hp
    obtain ⟨hcall, -⟩ := C.inv.mmRealloc_room hn hsize hroom
    refine ⟨_, hcall, rfl, ?_⟩
    intro i hi
    refine (C.inv.samePayloads_moved hroom).2 i (by omega) ?_
    unfold Chunk.stop
    omega
  frees p b hp := C.mmFree_iff hp

theorem malloc_result (C : Coherent base w cs) (hsize : size ≤ MAX_HEAP)
    (h : mmMalloc size w.heap = some (q, s)) :
    (q = NULL ∨ q = w.heap.memBrk + headerSize) ∧ w.heap.memBrk ≤ s.memBrk ∧
      s.memBrk ≤ w.heap.memBrk + chunkFor size := by
  rcases le_or_gt (w.heap.memBrk + chunkFor size) w.heap.memMaxAddr with hroom | hfull
  · rw [C.inv.mmMalloc_room hsize hroom] at h
    obtain ⟨rfl, rfl⟩ := Prod.ext_iff.mp (Option.some.inj h)
    exact ⟨.inr rfl, Nat.le_add_right _ _, le_rfl⟩
  · rw [Inv.mmMalloc_full hsize hfull] at h
    obtain ⟨rfl, rfl⟩ := Prod.ext_iff.mp (Option.some.inj h)
    exact ⟨.inl rfl, le_rfl, Nat.le_add_right _ _⟩

theorem free_result (C : Coherent base w cs) (hp : w.live p = some b)
    (h : mmFree p w.heap = some ((), s)) : s.memBrk = w.heap.memBrk := by
  have hlt := (C.mmFree_iff hp).mp ⟨s, h⟩
  obtain ⟨l, c, r, rfl, -, rfl, -⟩ := C.blocks.chunk hp
  rw [C.inv.mmFree_eq hlt] at h
  have hs : cleared w.heap c = s := (Prod.ext_iff.mp (Option.some.inj h)).2
  rw [← hs]
  rfl

theorem realloc_result (C : Coherent base w cs) (hp : w.live p = some b) (hsize : size ≤ MAX_HEAP)
    (h : mmRealloc p size w.heap = some (q, s)) :
    (q = NULL ∨ q = w.heap.memBrk + headerSize) ∧ w.heap.memBrk ≤ s.memBrk ∧
      s.memBrk ≤ w.heap.memBrk + chunkFor size := by
  rcases Nat.eq_zero_or_pos size with rfl | hn
  · have hw : wp (mmRealloc p 0) (fun q' s' ↦ q' = q ∧ s' = s) w.heap := ⟨q, s, h, rfl, rfl⟩
    rw [Inv.mmRealloc_zero (C.isolated.ne_null p b hp), wp_bind] at hw
    obtain ⟨⟨⟩, s₁, hfree, hw⟩ := hw
    obtain ⟨rfl, rfl⟩ := wp_pure.mp hw
    rw [C.free_result hp hfree]
    exact ⟨.inl rfl, le_rfl, Nat.le_add_right _ _⟩
  · rcases le_or_gt (w.heap.memBrk + chunkFor size) w.heap.memMaxAddr with hroom | hfull
    · obtain ⟨l, c, r, rfl, -, rfl, -⟩ := C.blocks.chunk hp
      rw [(C.inv.mmRealloc_room hn hsize hroom).1] at h
      obtain ⟨rfl, rfl⟩ := Prod.ext_iff.mp (Option.some.inj h)
      exact ⟨.inr rfl, Nat.le_add_right _ _, le_rfl⟩
    · rw [Inv.mmRealloc_full hn hsize hfull] at h
      obtain ⟨rfl, rfl⟩ := Prod.ext_iff.mp (Option.some.inj h)
      exact ⟨.inl rfl, le_rfl, Nat.le_add_right _ _⟩

theorem not_live (C : Coherent base w cs) (hq : q = NULL ∨ q = w.heap.memBrk + headerSize) :
    w.live q = none := by
  by_contra hne
  obtain ⟨b, hlive⟩ := Option.ne_none_iff_exists'.mp hne
  rcases hq with rfl | rfl
  · exact C.isolated.ne_null _ b hlive rfl
  · exact C.live_ne_top hlive rfl

end Coherent

/-- mm-naive.c implements the store of blocks; a request costs exactly the chunk it asks for. -/
theorem naive_provides (hb : Base base) :
    Provides naive base chunkFor fun w ↦ ∃ cs, Coherent base w cs where
  placed := by
    intro w ⟨cs, C⟩
    exact ⟨C.start, C.max, C.max ▸ C.inv.brk_le⟩
  isolated := by
    intro w ⟨cs, C⟩
    exact C.isolated
  init := by
    intro s hstart hbrk hmax
    have hs : memInit s base = s := by
      rw [memInit, ← hmax]
      cases s
      simp only at hstart hbrk
      rw [hstart, hbrk]
    have hw : naive.Start base ⟨s, fun _ ↦ none⟩ := ⟨rfl, s, by rw [hs]; rfl⟩
    exact wp_pure.mpr ⟨rfl, ⟨[], Start.coherent hb hw⟩, hbrk⟩
  malloc := by
    intro w size p s ⟨cs, C⟩ hn hsize h
    obtain ⟨hp, hbrk⟩ := C.malloc_result hsize h
    exact ⟨C.not_live hp, (C.mallocStep hsize h).1, hbrk⟩
  free := by
    intro w p b ⟨cs, C⟩ hp hpos
    have hlt : p < w.heap.memBrk := by
      have := (C.isolated.inside p b hp).2
      omega
    obtain ⟨s, h⟩ := (C.mmFree_iff hp).mpr hlt
    exact (wp_of_eq h).mpr ⟨(C.freeStep hp h).1, C.free_result hp h⟩
  realloc := by
    intro w p b size q s ⟨cs, C⟩ hp _ hn hsize h
    obtain ⟨hq, hbrk⟩ := C.realloc_result hp hsize h
    exact ⟨C.not_live hq, (C.reallocStep hp hsize h).1, hbrk⟩
  write := by
    intro w p b i v ⟨cs, C⟩ hp hi
    exact ⟨cs, (C.writeStep v hp hi).1⟩
  mallocRoom := by
    intro w size ⟨cs, C⟩ hn hsize hroom
    rw [← C.max] at hroom
    exact (wp_of_eq (C.inv.mmMalloc_room hsize hroom)).mpr (payload_ne_null _)
  reallocRoom := by
    intro w p b size ⟨cs, C⟩ hp _ hn hsize hroom
    rw [← C.max] at hroom
    obtain ⟨l, c, r, rfl, -, rfl, -⟩ := C.blocks.chunk hp
    exact (wp_of_eq (C.inv.mmRealloc_room hn hsize hroom).1).mpr (payload_ne_null _)

theorem Coherent.checkerExact (C : Coherent base w cs) : CheckerExact base w := by
  have htiles := C.inv.tiles
  rw [C.start] at htiles
  refine ⟨cs, htiles, C.blocks.live_iff, ?_⟩
  intro v
  obtain ⟨o, s', h, ho, hs⟩ := C.inv.mmCheckheap v
  have hsum := htiles.sum_size
  have hlen := htiles.length_le fun c hc ↦ (C.inv.wellSized c hc).le
  have hbrk := C.inv.brk_le
  have htop := C.inv.top
  obtain ⟨h₁, h₂, h₃, h₄⟩ := countAll_spec (t := ⟨0, 0, 0, 0⟩)
    (by unfold headerSize at hlen; omega : 0 + 0 + cs.length < 2 ^ 64)
    (by simp only; omega)
  refine ⟨_, ?_, h₁.trans (Nat.zero_add _), h₂.trans (by simp only; omega),
    h₃.trans (Nat.zero_add _), h₄.trans (by simp only; omega)⟩
  rw [h, ho, hs]

/-- In every run the blocks are isolated, and no call changes a block it is not about. -/
theorem naive_blocks_isolated (hb : Base base) (hw : naive.ReachableWorld base w) :
    Isolated w ∧ ∀ op w', naive.Step op w w' → Spares op w w' := by
  obtain ⟨cs, C⟩ := coherent_of_reachable hb hw
  exact ⟨C.isolated, fun op w' h ↦ (C.step h).2⟩

theorem reachable_emptyWorld : naive.ReachableWorld 4096 Malloc.emptyWorld :=
  .start ⟨rfl, Malloc.emptyWorld.heap, rfl⟩

theorem malloc_24 : ∃ w p, naive.Step (.malloc 24) Malloc.emptyWorld w ∧
    w.live p = some (.fresh 24) := by
  obtain ⟨cs, C⟩ := coherent_of_reachable Malloc.base_4096 reachable_emptyWorld
  have h := C.inv.mmMalloc_room (by decide : 24 ≤ MAX_HEAP) (by decide)
  refine ⟨_, Malloc.emptyWorld.heap.memBrk + headerSize, .malloc (by decide) h, ?_⟩
  simp [gain, payload_ne_null]

theorem reachable_malloc_24 : ∃ w p, naive.ReachableWorld 4096 w ∧ w.live p = some (.fresh 24) := by
  obtain ⟨w, p, hw, hp⟩ := malloc_24
  exact ⟨w, p, .next reachable_emptyWorld ⟨_, hw⟩, hp⟩

theorem naive_blocks_isolated_24 : ∃ w p, w.live p = some (.fresh 24) ∧ Isolated w ∧
    ∀ op w', naive.Step op w w' → Spares op w w' := by
  obtain ⟨w, p, hw, hp⟩ := reachable_malloc_24
  exact ⟨w, p, hp, naive_blocks_isolated Malloc.base_4096 hw⟩

/-- After every run the checker visits each chunk once, in order, and its totals are right. -/
theorem naive_checker_exact (hb : Base base) (hw : naive.ReachableWorld base w) :
    CheckerExact base w := by
  obtain ⟨cs, C⟩ := coherent_of_reachable hb hw
  exact C.checkerExact

theorem naive_checker_exact_24 : ∃ w p, w.live p = some (.fresh 24) ∧ CheckerExact 4096 w := by
  obtain ⟨w, p, hw, hp⟩ := reachable_malloc_24
  exact ⟨w, p, hp, naive_checker_exact Malloc.base_4096 hw⟩

end CsoLabs.MallocNaive
