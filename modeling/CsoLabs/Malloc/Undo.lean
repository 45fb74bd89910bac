import CsoLabs.Malloc.Coalescing
import CsoLabs.Malloc.Truncation

namespace CsoLabs.Malloc

open Foundation Extent

variable {base size p : ℕ} {w : World} {s : Heap} {A F : List Extent}

/-- The free list is determined by the allocated chunks and the break, so it is enough that these
are as before. -/
theorem Inv.free_mmMalloc (I : Inv w.heap A F) (hn : 0 < size) (hn' : size ≤ MAX_HEAP)
    (h : Malloc.mmMalloc size w.heap = some (p, s)) (hbrk : s.memBrk = w.heap.memBrk) :
    ∃ s', Malloc.mmFree p s = some ((), s') ∧ Inv s' A F := by
  have hmem : ¬ OutOfMemory w.heap size := fun hoom ↦ by
    rw [mmMalloc_outOfMemory I.top hn hoom] at h
    cases h
  obtain ⟨c, F₁, rfl, -, I₁, hf₁⟩ := (I.mmMalloc hn hn' hmem).result h
  obtain ⟨⟨⟩, s', hfree, F₂, I₂, hbrk₂, hf₂⟩ := Inv.mmFree (l := []) I₁
  refine ⟨s', hfree, ?_⟩
  have L := I.layout
  have L₂ := I₂.layout
  rw [List.nil_append, hbrk₂, hbrk, hf₂.memStartBrk, hf₁.memStartBrk] at L₂
  obtain rfl := L.free_eq L₂ fun _ ↦ Iff.rfl
  exact I₂

/-- A free right after an allocation that was served from the free list restores both lists. -/
theorem free_undoes_malloc (hb : Base base) (hw : ReachableWorld base w) (hn : 0 < size)
    (hn' : size ≤ MAX_HEAP) (h : mmMalloc size w.heap = some (p, s))
    (hbrk : s.memBrk = w.heap.memBrk) :
    ∃ A F s', AllocatedList w.heap A ∧ FreeList w.heap F ∧ mmFree p s = some ((), s') ∧
      AllocatedList s' A ∧ FreeList s' F := by
  obtain ⟨A, F, C⟩ := hw.coherent hb
  obtain ⟨s', hfree, I⟩ := C.inv.free_mmMalloc hn hn' h hbrk
  exact ⟨A, F, s', C.inv.allocatedList, C.inv.freeList, hfree, I.allocatedList, I.freeList⟩

theorem free_undoes_malloc_freedSecond : ∃ w p s, ReachableWorld 4096 w ∧
    mmMalloc 24 w.heap = some (p, s) ∧ s.memBrk = w.heap.memBrk ∧
    ∃ A F s', AllocatedList w.heap A ∧ FreeList w.heap F ∧ mmFree p s = some ((), s') ∧
      AllocatedList s' A ∧ FreeList s' F := by
  obtain ⟨w, hw, hrun, -, -⟩ := reachable_freedSecond
  have hbrk : (freedSecond emptyWorld.heap).map (fun r ↦ r.2.memBrk) = some 4224 := by
    decide +kernel
  have hbrk' : ((freedSecond >>= fun _ ↦ mmMalloc 24) emptyWorld.heap).map (fun r ↦ r.2.memBrk) =
      some 4224 := by
    decide +kernel
  rw [hrun, Option.map_some, Option.some_inj] at hbrk
  simp only [bind, StateT.bind, hrun, Option.bind_some] at hbrk'
  obtain ⟨⟨p, s⟩, hmalloc, hs⟩ := Option.map_eq_some_iff.mp hbrk'
  have hsame : s.memBrk = w.heap.memBrk := hs.trans hbrk.symm
  exact ⟨w, p, s, hw, hmalloc, hsame,
    free_undoes_malloc base_4096 hw (by decide) (by decide) hmalloc hsame⟩

end CsoLabs.Malloc
