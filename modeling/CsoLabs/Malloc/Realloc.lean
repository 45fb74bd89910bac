import CsoLabs.Malloc.Coalescing

namespace CsoLabs.Malloc

open Foundation Extent

structure Moved (w : World) (p : ℕ) (b : Block) (size q : ℕ) (s : Heap) : Prop where
  inside : s.memStartBrk ≤ q ∧ q + size ≤ s.memBrk
  disjoint : ∀ p' b', w.live p' = some b' → p' ≠ p → q + size ≤ p' ∨ p' + b'.size ≤ q
  kept : ∀ i < min b.size size, s.mem (q + i) = w.heap.mem (p + i)
  others : ∀ p' b', w.live p' = some b' → p' ≠ p →
    ∀ i < b'.size, s.mem (p' + i) = w.heap.mem (p' + i)
  released : ∃ A F, AllocatedList s A ∧ FreeList s F ∧ payloadToHeader p ∉ A.map addr ∧
    ∀ a, payloadToHeader p ≤ a → a < payloadToHeader p + (w.heap.hdr (payloadToHeader p)).size →
      Covered F a

variable {base size p q : ℕ} {w : World} {b : Block} {s : Heap} {A F : List Extent}

theorem mmRealloc_zero (hp : p ≠ NULL) :
    mmRealloc p 0 s = (mmFree p s).map fun r ↦ (NULL, r.2) := by
  have hcall : mmRealloc p 0 = mmFree p >>= fun _ ↦ pure NULL := by
    simp only [mmRealloc, lt_irrefl, if_false, onlyIf, if_pos hp, pure_bind]
  rw [hcall]
  simp only [bind, StateT.bind]
  cases mmFree p s <;> rfl

theorem Coherent.moved (C : Coherent base w A F) (hp : w.live p = some b) (hn : 0 < size)
    (hsize : size ≤ MAX_HEAP) (hmem : ¬ OutOfMemory w.heap size) :
    ∃ q s, mmRealloc p size w.heap = some (q, s) ∧ Moved w p b size q s := by
  obtain ⟨l, c, r, rfl, rfl, hbc⟩ := C.blocks.chunk hp
  obtain ⟨q, s, h, d, F', rfl, hfit, I, hf, hcopy, hdc, hbrk, -⟩ := C.inv.mmRealloc hn hsize hmem
  have hstop := C.inv.stop_lt (c := c) (by simp)
  have hhdr : payloadToHeader (c.addr + headerSize) = c.addr :=
    payloadToHeader_eq (by unfold stop at hstop; omega)
  have hsz : (w.heap.hdr c.addr).size = c.size := C.inv.size_eq (.inl (by simp))
  have B := C.blocks.lose C.inv.addr_ne_middle
  have hold : ∀ p' b', w.live p' = some b' → p' ≠ c.addr + headerSize →
      lose w.live (c.addr + headerSize) p' = some b' := fun p' b' hp' hne ↦ by
    rwa [lose, Function.update_of_ne hne]
  refine ⟨_, s, h, ?_, fun p' b' hp' hne ↦ ?_, fun i hi ↦ ?_, fun p' b' hp' hne ↦ ?_, ?_⟩
  · have hin := I.layout.inside (c := d) (by simp)
    unfold stop at hin
    omega
  · obtain ⟨e, he, rfl⟩ := (B.live_iff p').mp ⟨b', hold p' b' hp' hne⟩
    have hap : d.Apart e := (List.pairwise_cons.mp I.layout.apart).1 e he
    have hbe := B.fits e he b' (hold _ b' hp' hne)
    unfold Extent.Apart stop at hap
    omega
  · exact hcopy i (by omega) (by unfold stop; omega)
  · exact hf.block B (hold p' b' hp' hne)
  · refine ⟨_, F', I.allocatedList, I.freeList, fun hmem' ↦ ?_, fun a ha ha' ↦ ?_⟩
    · obtain ⟨e, he, hec⟩ := List.mem_map.mp hmem'
      rw [hhdr] at hec
      rcases List.mem_cons.mp he with rfl | he
      · have := (C.inv.layout.wellSized c (by simp)).pos
        have := (I.layout.wellSized e (by simp)).pos
        unfold Extent.Apart stop at hdc
        omega
      · exact C.inv.addr_ne_middle e he hec
    · rw [hhdr] at ha
      rw [hhdr, hsz] at ha'
      have hin := C.inv.layout.inside (c := c) (by simp)
      have htile := (I.layout.tile a).mp
        ⟨by rw [hf.memStartBrk]; omega, by unfold stop at hbrk; omega⟩
      refine htile.resolve_left fun hcov ↦ ?_
      obtain ⟨e, he, hea⟩ := hcov
      have hce : c.Apart e := by
        rcases List.mem_cons.mp he with rfl | he
        · exact hdc.symm
        · exact C.inv.layout.addr_apart (.inl (by simp)) (.inl (mem_middle he))
            (C.inv.addr_ne_middle e he).symm
      unfold Extent.Apart at hce
      unfold Has at hea
      unfold stop at *
      omega

/-- A block that is reallocated keeps its data, and its old chunk is free again. -/
theorem realloc_keeps_data (hb : Base base) (hw : ReachableWorld base w) :
    (∀ p b size, w.live p = some b → 0 < size → size ≤ MAX_HEAP → ¬ OutOfMemory w.heap size →
      ∃ q s, mmRealloc p size w.heap = some (q, s) ∧ Moved w p b size q s) ∧
    (∀ size, 0 < size → mmRealloc NULL size w.heap = mmMalloc size w.heap) ∧
    ∀ p b, w.live p = some b →
      mmRealloc p 0 w.heap = (mmFree p w.heap).map fun r ↦ (NULL, r.2) := by
  obtain ⟨A, F, C⟩ := hw.coherent hb
  refine ⟨fun p b size hp hn hsize hmem ↦ C.moved hp hn hsize hmem,
    fun size hn ↦ mmRealloc_null hn w.heap, fun p b hp ↦ mmRealloc_zero ?_⟩
  obtain ⟨c, -, rfl⟩ := (C.blocks.live_iff p).mp ⟨b, hp⟩
  unfold headerSize NULL
  omega

theorem realloc_keeps_data_written : ∃ w q s, ReachableWorld 4096 w ∧
    w.live 4128 = some ((Block.fresh 24).write 3 7) ∧
    mmRealloc 4128 100 w.heap = some (q, s) ∧ s.mem (q + 3) = 7 := by
  obtain ⟨w, hw, hrun, hp, -⟩ := reachable_freedSecond
  have hbrk : (freedSecond emptyWorld.heap).map (fun r ↦ (r.2.memBrk, r.2.memMaxAddr)) =
      some (4224, 4096 + MAX_HEAP) := by
    decide +kernel
  rw [hrun, Option.map_some, Option.some_inj, Prod.mk.injEq] at hbrk
  obtain ⟨hbrk, hmax⟩ := hbrk
  have hwrite := Step.write (v := 7) hp (by decide : 3 < (Block.fresh 24).size)
  set w' : World := ⟨{ w.heap with mem := Function.update w.heap.mem (4128 + 3) 7 },
    Function.update w.live 4128 (some ((Block.fresh 24).write 3 7))⟩ with hw'
  have hreach : ReachableWorld 4096 w' := hw.next ⟨_, hwrite⟩
  have hlive : w'.live 4128 = some ((Block.fresh 24).write 3 7) := by simp [hw']
  have hmem : ¬ OutOfMemory w'.heap 100 := by
    rintro ⟨-, hsbrk⟩
    have hn : getNewsize 100 = 144 := getNewsize_eq (by decide)
    rw [hn] at hsbrk
    have hfail := (wp_of_eq (Q := fun p _ ↦ p = sbrkError) hsbrk).mpr rfl
    have hbrk' : w'.heap.memBrk = 4224 := hbrk
    have hmax' : w'.heap.memMaxAddr = 4096 + MAX_HEAP := hmax
    rw [wp_memSbrk, hbrk', hmax', if_neg (by decide)] at hfail
    exact absurd hfail (by decide)
  obtain ⟨q, s, hrealloc, hmoved⟩ := (realloc_keeps_data base_4096 hreach).1 4128 _ 100 hlive
    (by decide) (by decide) hmem
  have hkept := hmoved.kept 3 (by decide)
  exact ⟨w', q, s, hreach, hlive, hrealloc, by simpa [hw'] using hkept⟩

end CsoLabs.Malloc
