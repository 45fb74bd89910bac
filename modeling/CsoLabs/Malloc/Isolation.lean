import CsoLabs.Malloc.HeapInvariant

namespace CsoLabs.Malloc

open Foundation Extent

structure Isolated (w : World) : Prop where
  ne_null : ∀ p b, w.live p = some b → p ≠ NULL
  aligned : ∀ p b, w.live p = some b → 16 ∣ p
  inside : ∀ p b, w.live p = some b →
    w.heap.memStartBrk ≤ p ∧ p + b.size ≤ w.heap.memBrk
  disjoint : ∀ p b q b', w.live p = some b → w.live q = some b' → p ≠ q →
    p + b.size ≤ q ∨ q + b'.size ≤ p
  intact : ∀ p b i v, w.live p = some b → b.bytes i = some v → w.heap.mem (p + i) = v

variable {base : ℕ} {w w' : World} {A F : List Extent}

theorem Coherent.isolated (C : Coherent base w A F) : Isolated w where
  ne_null p b hp := by
    obtain ⟨c, -, rfl⟩ := (C.blocks.live_iff p).mp ⟨b, hp⟩
    unfold headerSize NULL
    omega
  aligned p b hp := by
    obtain ⟨c, hc, rfl⟩ := (C.blocks.live_iff p).mp ⟨b, hp⟩
    exact Nat.dvd_add (C.inv.layout.wellSized c (.inl hc)).1 (by decide)
  inside p b hp := by
    obtain ⟨l, c, r, rfl, rfl, hfit⟩ := C.blocks.chunk hp
    have hin := C.inv.layout.inside (c := c) (by simp)
    unfold stop at hin
    omega
  disjoint p b q b' hp hq hpq := by
    have := C.disjoint hp hq hpq
    omega
  intact := C.intact

/-- Live blocks are isolated in every run, and no call changes a block it is not about. -/
theorem live_blocks_isolated (hb : Base base) (hw : ReachableWorld base w) :
    Isolated w ∧ ∀ op w', Step op w w' → Spares op w w' := by
  obtain ⟨A, F, C⟩ := hw.coherent hb
  exact ⟨C.isolated, fun op w' h ↦ (C.step h).2⟩

theorem live_blocks_isolated_write_24 : ∃ w w' p, Step (.malloc 24) emptyWorld w ∧
    Step (.write p 3 7) w w' ∧ Isolated w' ∧ ∀ op w'', Step op w' w'' → Spares op w' w'' := by
  obtain ⟨w, p, hw, hp⟩ := malloc_24
  have hwrite := Step.write (v := 7) hp (by decide : 3 < (Block.fresh 24).size)
  exact ⟨w, _, p, hw, hwrite, live_blocks_isolated base_4096
    (.next (.next reachable_emptyWorld ⟨_, hw⟩) ⟨_, hwrite⟩)⟩

end CsoLabs.Malloc
