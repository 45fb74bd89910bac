import CsoLabs.Malloc.Isolation

namespace CsoLabs.Malloc

open Foundation

structure SameBounds (s s' : Heap) : Prop where
  memStartBrk : s'.memStartBrk = s.memStartBrk
  memBrk : s'.memBrk = s.memBrk
  memMaxAddr : s'.memMaxAddr = s.memMaxAddr

structure Grown (s s' : Heap) : Prop where
  memStartBrk : s'.memStartBrk = s.memStartBrk
  memMaxAddr : s'.memMaxAddr = s.memMaxAddr
  le : s.memBrk ≤ s'.memBrk
  fits : s.memBrk ≤ s.memMaxAddr → s'.memBrk ≤ s'.memMaxAddr

instance : Std.Refl SameBounds := ⟨fun _ ↦ ⟨rfl, rfl, rfl⟩⟩

instance : IsTrans Heap SameBounds :=
  ⟨fun _ _ _ h h' ↦ ⟨h'.1.trans h.1, h'.2.trans h.2, h'.3.trans h.3⟩⟩

instance : Std.Refl Grown := ⟨fun _ ↦ ⟨rfl, rfl, le_rfl, id⟩⟩

instance : IsTrans Heap Grown :=
  ⟨fun _ _ _ h h' ↦ ⟨h'.1.trans h.1, h'.2.trans h.2, h.3.trans h'.3, fun hle ↦ h'.4 (h.4 hle)⟩⟩

theorem SameBounds.grown {s s' : Heap} (h : SameBounds s s') : Grown s s' :=
  ⟨h.1, h.3, h.2.ge, fun hle ↦ by rwa [h.2, h.3]⟩

theorem sameBounds_readWord (a : ℕ) : Within SameBounds (readWord a) :=
  .bind .get fun _ ↦ .ite (.pure _) .failure

theorem sameBounds_writeWord (a v : ℕ) : Within SameBounds (writeWord a v) :=
  .bind .get fun _ ↦ .ite (.of_modify fun _ ↦ ⟨rfl, rfl, rfl⟩) .failure

theorem sameBounds_setNext (x v : ℕ) : Within SameBounds (setNext x v) :=
  sameBounds_writeWord _ _

theorem sameBounds_setPrev (x v : ℕ) : Within SameBounds (setPrev x v) :=
  sameBounds_writeWord _ _

theorem sameBounds_getNext (x : ℕ) : Within SameBounds (getNext x) := sameBounds_readWord _

theorem sameBounds_getPrev (x : ℕ) : Within SameBounds (getPrev x) := sameBounds_readWord _

theorem sameBounds_getChunkSize (x : ℕ) : Within SameBounds (getChunkSize x) :=
  sameBounds_readWord _

theorem sameBounds_setChunkStatus (x : ℕ) (b : Bool) : Within SameBounds (setChunkStatus x b) :=
  sameBounds_writeWord _ _

theorem sameBounds_setFreeList (x : ℕ) : Within SameBounds (setFreeList x) :=
  .of_modify fun _ ↦ ⟨rfl, rfl, rfl⟩

theorem sameBounds_setAllocatedList (x : ℕ) : Within SameBounds (setAllocatedList x) :=
  .of_modify fun _ ↦ ⟨rfl, rfl, rfl⟩

theorem sameBounds_removeFromList (x : ℕ) : Within SameBounds (removeFromList x) := by
  refine .bind .get fun _ ↦ .bind (.onlyIf (.bind (sameBounds_getNext x) sameBounds_setFreeList))
    fun _ ↦ .bind .get fun _ ↦
      .bind (.onlyIf (.bind (sameBounds_getNext x) sameBounds_setAllocatedList)) fun _ ↦
      .bind (sameBounds_getPrev x) fun _ ↦ .bind (.onlyIf ?_) fun _ ↦
      .bind (sameBounds_getNext x) fun _ ↦ .onlyIf ?_
  · exact .bind (sameBounds_getPrev x) fun _ ↦ .bind (sameBounds_getNext x) fun _ ↦
      sameBounds_setNext _ _
  · exact .bind (sameBounds_getNext x) fun _ ↦ .bind (sameBounds_getPrev x) fun _ ↦
      sameBounds_setPrev _ _

theorem sameBounds_mergeRegions (x y : ℕ) : Within SameBounds (mergeRegions x y) := by
  refine .ite (.pure _) (.bind (sameBounds_getChunkSize x) fun _ ↦ .ite ?_ (.pure _))
  refine .bind (sameBounds_getNext y) fun _ ↦ .bind (sameBounds_setNext _ _) fun _ ↦
    .bind (sameBounds_getNext y) fun _ ↦ .bind (.onlyIf ?_) fun _ ↦
    .bind (sameBounds_getChunkSize x) fun _ ↦ .bind (sameBounds_getChunkSize y) fun _ ↦
    .bind ?_ fun _ ↦ .pure _
  · exact .bind (sameBounds_getNext y) fun _ ↦ sameBounds_setPrev _ _
  · exact .bind (sameBounds_writeWord _ _) fun _ ↦ sameBounds_setChunkStatus _ _

theorem sameBounds_insertLoop (x fuel temp last : ℕ) :
    Within SameBounds (insertLoop x fuel temp last) := by
  induction fuel generalizing temp last with
  | zero => exact .failure
  | succ fuel ih =>
    refine .ite (.pure _) (.ite ?_ (.bind (sameBounds_getNext temp) fun next ↦ ih next temp))
    exact .bind (sameBounds_setNext _ _) fun _ ↦ .bind (sameBounds_getPrev temp) fun _ ↦
      .bind (sameBounds_setNext _ _) fun _ ↦ .bind (sameBounds_getPrev temp) fun _ ↦
      .bind (sameBounds_setPrev _ _) fun _ ↦ .bind (sameBounds_setPrev _ _) fun _ ↦ .pure _

theorem sameBounds_linkFreeList (x temp : ℕ) : Within SameBounds (linkFreeList x temp) := by
  refine .ite ?_ (.bind .get fun s ↦ .bind (sameBounds_insertLoop x _ _ _) fun r ↦ .onlyIf ?_)
  · exact .bind (sameBounds_setNext _ _) fun _ ↦ .bind (sameBounds_setPrev _ _) fun _ ↦
      .bind (sameBounds_setPrev _ _) fun _ ↦ sameBounds_setFreeList _
  · exact .bind (sameBounds_setNext _ _) fun _ ↦ .bind (sameBounds_setPrev _ _) fun _ ↦
      sameBounds_setNext _ _

theorem sameBounds_mergeNeighbours (x : ℕ) : Within SameBounds (mergeNeighbours x) := by
  refine .bind (sameBounds_getNext x) fun _ ↦ .bind (sameBounds_mergeRegions _ _) fun _ ↦
    .bind (.onlyIf ?_) fun _ ↦ .bind (sameBounds_getPrev x) fun _ ↦
    .bind (sameBounds_mergeRegions _ _) fun _ ↦ .onlyIf ?_
  · exact .bind (sameBounds_getNext x) fun _ ↦ .map (sameBounds_mergeRegions _ _)
  · exact .bind (sameBounds_getPrev x) fun _ ↦ .map (sameBounds_mergeRegions _ _)

theorem sameBounds_memcpy (dst src n : ℕ) : Within SameBounds (memcpy dst src n) :=
  .bind .get fun _ ↦ .ite (.of_modify fun _ ↦ ⟨rfl, rfl, rfl⟩) .failure

theorem sameBounds_insertAllocatedList (x : ℕ) : Within SameBounds (insertAllocatedList x) := by
  refine .bind (sameBounds_setChunkStatus x true) fun _ ↦ .bind .get fun _ ↦
    .bind (sameBounds_setNext _ _) fun _ ↦ .bind .get fun _ ↦ .bind (.onlyIf ?_) fun _ ↦
    .bind (sameBounds_setPrev _ _) fun _ ↦ sameBounds_setAllocatedList _
  exact .bind .get fun _ ↦ sameBounds_setPrev _ _

theorem sameBounds_setChunkSizeStatus (x n : ℕ) (b : Bool) :
    Within SameBounds (setChunkSizeStatus x n b) :=
  .bind (sameBounds_writeWord _ _) fun _ ↦ sameBounds_setChunkStatus _ _

theorem sameBounds_insertFreeList (x : ℕ) : Within SameBounds (insertFreeList x) := by
  refine .bind .get fun s ↦ .bind (sameBounds_setChunkStatus _ _) fun _ ↦ .ite ?_ ?_
  · exact .bind (sameBounds_setFreeList _) fun _ ↦ .bind (sameBounds_setPrev _ _) fun _ ↦
      sameBounds_setNext _ _
  · exact .bind (sameBounds_linkFreeList _ _) fun _ ↦ sameBounds_mergeNeighbours _

theorem sameBounds_mmFree (p : ℕ) : Within SameBounds (mmFree p) :=
  .bind (sameBounds_removeFromList _) fun _ ↦ sameBounds_insertFreeList _

theorem sameBounds_tryChunk (i : ℕ) (n : ℤ) (temp : ℕ) :
    Within SameBounds (tryChunk i n temp) := by
  refine .bind (.bind (sameBounds_readWord _) fun _ ↦ .pure _) fun _ ↦ .ite ?_ (.pure _)
  refine .bind (sameBounds_getChunkSize _) fun _ ↦ .ite ?_ (.ite ?_ (.pure _))
  · refine .bind (.lift _) fun _ ↦ .ite (.map ?_) (.pure _)
    exact .bind (sameBounds_removeFromList _) fun _ ↦
      .bind (sameBounds_insertAllocatedList _) fun _ ↦ .pure _
  · refine .map (.bind (sameBounds_setChunkSizeStatus _ _ _) fun _ ↦
      .bind (sameBounds_removeFromList _) fun _ ↦ .bind (sameBounds_insertAllocatedList _) fun _ ↦
      .bind ?_ fun _ ↦ .bind (sameBounds_setChunkSizeStatus _ _ _) fun _ ↦
      .bind (sameBounds_insertFreeList _) fun _ ↦ .pure _)
    exact .bind (sameBounds_setNext _ _) fun _ ↦ .bind (sameBounds_setPrev _ _) fun _ ↦
      sameBounds_setChunkStatus _ _

theorem sameBounds_searchLoop (i : ℕ) (n : ℤ) (fuel temp : ℕ) :
    Within SameBounds (searchLoop i n fuel temp) := by
  induction fuel generalizing temp with
  | zero => exact .failure
  | succ fuel ih =>
    refine .ite (.pure _) (.bind (sameBounds_tryChunk i n temp) fun o ↦ ?_)
    cases o with
    | none => exact .bind (sameBounds_getNext _) fun next ↦ ih next
    | some p => exact .pure _

theorem sameBounds_findMemory (size : ℕ) : Within SameBounds (findMemory size) := by
  refine .ite (.pure _) (.bind .get fun _ ↦ .bind (sameBounds_searchLoop _ _ _ _) fun o ↦ ?_)
  cases o with
  | some p => exact .pure _
  | none =>
    refine .bind .get fun _ ↦ .bind (sameBounds_searchLoop _ _ _ _) fun o ↦ ?_
    cases o with
    | some p => exact .pure _
    | none => exact .pure _

theorem grown_memSbrk (n : ℤ) : Within Grown (memSbrk n) := by
  intro s a s' h
  have hw := (wp_memSbrk (Q := fun a' t ↦ a' = a ∧ t = s')).mp ⟨a, s', h, rfl, rfl⟩
  split_ifs at hw with hfull
  · exact hw.2 ▸ Std.Refl.refl s
  · rw [← hw.2]
    exact ⟨rfl, rfl, Nat.le_add_right _ _, fun _ ↦ by simp only; omega⟩

/-- Only `mem_sbrk` moves the break, on whatever heap `mm_malloc` runs. -/
theorem grown_mmMalloc (size : ℕ) : Within Grown (mmMalloc size) := by
  have hsame : ∀ {α : Type} {c : Alloc α}, Within SameBounds c → Within Grown c :=
    fun h ↦ h.mono fun _ _ ↦ SameBounds.grown
  refine .ite (.pure _) (.bind (hsame (sameBounds_findMemory size)) fun _ ↦ .ite (.pure _) ?_)
  exact .bind (grown_memSbrk _) fun _ ↦ .bind (hsame (sameBounds_setChunkSizeStatus _ _ _)) fun _ ↦
    .bind (hsame (sameBounds_insertAllocatedList _)) fun _ ↦ .pure _

theorem grown_mmFree (p : ℕ) : Within Grown (mmFree p) :=
  (sameBounds_mmFree p).mono fun _ _ ↦ SameBounds.grown

theorem grown_mmRealloc (p size : ℕ) : Within Grown (mmRealloc p size) := by
  have hsame : ∀ {α : Type} {c : Alloc α}, Within SameBounds c → Within Grown c :=
    fun h ↦ h.mono fun _ _ ↦ SameBounds.grown
  have htail : ∀ q : ℕ, Within Grown (do onlyIf (p ≠ NULL) (mmFree p); pure q) :=
    fun q ↦ .bind (.onlyIf (grown_mmFree p)) fun _ ↦ .pure q
  refine .ite (.bind (grown_mmMalloc size) fun q ↦ .bind (.onlyIf ?_) fun _ ↦
    .bind (.pure q) htail) (.bind (.pure NULL) htail)
  exact .bind (hsame (sameBounds_getChunkSize _)) fun _ ↦ hsame (sameBounds_memcpy _ _ _)

end CsoLabs.Malloc
