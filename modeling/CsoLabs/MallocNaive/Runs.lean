import CsoLabs.MallocNaive.Calls

namespace CsoLabs.MallocNaive

open Foundation
open Malloc (Heap World Op Block Package Provides Base Intact Spares Isolated NULL MAX_HEAP memInit
  gain lose reallocated)

def naive : Package := ⟨mmInit, mmMalloc, mmFree, mmRealloc⟩

structure Blocks (live : ℕ → Option Block) (cs : List Chunk) : Prop where
  live_iff : ∀ p, (∃ b, live p = some b) ↔ ∃ c ∈ cs, c.status = true ∧ p = c.addr + headerSize
  fits : ∀ c ∈ cs, ∀ b, live (c.addr + headerSize) = some b → b.size + headerSize ≤ c.size
  written : ∀ p b i v, live p = some b → b.bytes i = some v → i < b.size

structure Coherent (base : ℕ) (w : World) (cs : List Chunk) : Prop where
  inv : Inv w.heap cs
  start : w.heap.memStartBrk = base
  max : w.heap.memMaxAddr = base + MAX_HEAP
  blocks : Blocks w.live cs
  intact : Intact w.live w.heap.mem

variable {base size p q : ℕ} {w w' : World} {s s' : Heap} {cs l r : List Chunk} {c d : Chunk}
  {live : ℕ → Option Block} {b : Block} {op : Op}

theorem Inv.addr_ne (I : Inv s (l ++ c :: r)) : ∀ d ∈ l ++ r, d.addr ≠ c.addr := by
  intro d hd
  have hc := (I.wellSized c (by simp)).le
  have haround := I.tiles.around
  have hsub : d ∈ l ++ c :: r :=
    List.mem_append.mpr ((List.mem_append.mp hd).imp_right (List.mem_cons_of_mem _))
  have hle := (I.wellSized d hsub).le
  rcases List.mem_append.mp hd with hd | hd
  · have := haround.1 d hd
    unfold Chunk.stop headerSize at *
    omega
  · have := haround.2 d hd
    unfold Chunk.stop headerSize at *
    omega

theorem payload_ne_null (a : ℕ) : a + headerSize ≠ NULL := by
  unfold headerSize NULL
  omega

namespace Blocks

theorem empty : Blocks (fun _ ↦ none) [] := ⟨by simp, by simp, by simp⟩

theorem gain (B : Blocks live cs) (hst : c.status = true) (hfit : b.size + headerSize ≤ c.size)
    (hw : ∀ i v, b.bytes i = some v → i < b.size) (hne : ∀ d ∈ cs, d.addr ≠ c.addr) :
    Blocks (gain live (c.addr + headerSize) b) (cs ++ [c]) := by
  rw [Malloc.gain, if_neg (payload_ne_null _)]
  refine ⟨fun p ↦ ?_, fun d hd b' hb' ↦ ?_, fun p b' i v hp hv ↦ ?_⟩
  · by_cases hpc : p = c.addr + headerSize
    · simp [hpc, hst]
    · rw [Function.update_of_ne hpc, B.live_iff]
      simp [hpc, or_and_right, exists_or]
  · rcases List.mem_append.mp hd with hd | hd
    · rw [Function.update_of_ne (by have := hne d hd; omega)] at hb'
      exact B.fits d hd b' hb'
    · rw [List.mem_singleton.mp hd, Function.update_self, Option.some.injEq] at hb'
      rw [List.mem_singleton.mp hd, ← hb']
      exact hfit
  · by_cases hpc : p = c.addr + headerSize
    · rw [hpc, Function.update_self, Option.some.injEq] at hp
      rw [← hp] at hv ⊢
      exact hw i v hv
    · rw [Function.update_of_ne hpc] at hp
      exact B.written p b' i v hp hv

theorem lose (B : Blocks live (l ++ c :: r)) (hne : ∀ d ∈ l ++ r, d.addr ≠ c.addr) :
    Blocks (lose live (c.addr + headerSize)) (l ++ c.setStatus false :: r) := by
  refine ⟨fun p ↦ ?_, fun d hd b' hb' ↦ ?_, fun p b' i v hp hv ↦ ?_⟩
  · by_cases hpc : p = c.addr + headerSize
    · rw [hpc, Malloc.lose, Function.update_self]
      constructor
      · rintro ⟨_, h⟩
        cases h
      · rintro ⟨d, hd, hst, he⟩
        simp only [List.mem_append, List.mem_cons] at hd
        rcases hd with hd | hd | hd
        · exact absurd (by omega) (hne d (by simp [hd]))
        · rw [hd] at hst
          cases hst
        · exact absurd (by omega) (hne d (by simp [hd]))
    · rw [Malloc.lose, Function.update_of_ne hpc, B.live_iff]
      constructor
      · rintro ⟨d, hd, hst, he⟩
        refine ⟨d, ?_, hst, he⟩
        simp only [List.mem_append, List.mem_cons] at hd ⊢
        rcases hd with hd | hd | hd
        · exact .inl hd
        · rw [hd] at he
          exact absurd he hpc
        · exact .inr (.inr hd)
      · rintro ⟨d, hd, hst, he⟩
        refine ⟨d, ?_, hst, he⟩
        simp only [List.mem_append, List.mem_cons] at hd ⊢
        rcases hd with hd | hd | hd
        · exact .inl hd
        · rw [hd] at hst
          cases hst
        · exact .inr (.inr hd)
  · have hd' : d.addr = c.addr ∨ d ∈ l ++ r := by
      simp only [List.mem_append, List.mem_cons] at hd ⊢
      rcases hd with hd | hd | hd
      · exact .inr (.inl hd)
      · exact .inl (by rw [hd]; rfl)
      · exact .inr (.inr hd)
    rcases hd' with he | hd'
    · rw [he, Malloc.lose, Function.update_self] at hb'
      cases hb'
    · rw [Malloc.lose, Function.update_of_ne (by have := hne d hd'; omega)] at hb'
      refine B.fits d ?_ b' hb'
      exact List.mem_append.mpr ((List.mem_append.mp hd').imp_right (List.mem_cons_of_mem _))
  · by_cases hpc : p = c.addr + headerSize
    · rw [hpc, Malloc.lose, Function.update_self] at hp
      cases hp
    · rw [Malloc.lose, Function.update_of_ne hpc] at hp
      exact B.written p b' i v hp hv

theorem write (B : Blocks live cs) {i : ℕ} (v : UInt8) (hp : live p = some b) (hi : i < b.size) :
    Blocks (Function.update live p (some (b.write i v))) cs := by
  refine ⟨fun q ↦ ?_, fun d hd b' hb' ↦ ?_, fun q b' j u hq hu ↦ ?_⟩
  · by_cases hq : q = p
    · rw [hq, ← B.live_iff, Function.update_self]
      exact ⟨fun _ ↦ ⟨b, hp⟩, fun _ ↦ ⟨_, rfl⟩⟩
    · rw [Function.update_of_ne hq]
      exact B.live_iff q
  · by_cases hdp : d.addr + headerSize = p
    · rw [hdp, Function.update_self, Option.some.injEq] at hb'
      rw [← hb']
      exact B.fits d hd b (hdp ▸ hp)
    · rw [Function.update_of_ne hdp] at hb'
      exact B.fits d hd b' hb'
  · by_cases hqp : q = p
    · rw [hqp, Function.update_self, Option.some.injEq] at hq
      rw [← hq] at hu ⊢
      by_cases hji : j = i
      · exact hji ▸ hi
      · rw [Malloc.Block.write_bytes, Function.update_of_ne hji] at hu
        exact B.written p b j u hp hu
    · rw [Function.update_of_ne hqp] at hq
      exact B.written q b' j u hq hu

theorem chunk (B : Blocks live cs) (hp : live p = some b) :
    ∃ l c r, cs = l ++ c :: r ∧ c.status = true ∧ p = c.addr + headerSize ∧
      b.size + headerSize ≤ c.size := by
  obtain ⟨c, hc, hst, rfl⟩ := (B.live_iff p).mp ⟨b, hp⟩
  obtain ⟨l, r, rfl⟩ := List.append_of_mem hc
  exact ⟨l, c, r, rfl, hst, rfl, B.fits c hc b hp⟩

end Blocks

def SamePayloads (cs : List Chunk) (m m' : ByteMemory.Memory) : Prop :=
  ∀ c ∈ cs, ∀ a, c.addr + headerSize ≤ a → a < c.stop → m' a = m a

namespace SamePayloads

variable {m m' m'' : ByteMemory.Memory}

theorem block (h : SamePayloads cs m m') (B : Blocks live cs) (hp : live p = some b) :
    ∀ i < b.size, m' (p + i) = m (p + i) := by
  obtain ⟨l, c, r, rfl, -, rfl, hfit⟩ := B.chunk hp
  intro i hi
  exact h c (by simp) _ (by omega) (by unfold Chunk.stop; omega)

theorem intact (h : SamePayloads cs m m') (B : Blocks live cs) (hi : Intact live m) :
    Intact live m' := by
  intro p b i v hp hv
  rw [h.block B hp i (B.written p b i v hp hv)]
  exact hi p b i v hp hv

end SamePayloads

namespace Inv

theorem samePayloads_grown (I : Inv s cs) (n : ℕ) : SamePayloads cs s.mem (grown s n).mem := by
  intro c hc a _ ha
  have hin := (I.tiles.inside hc).2
  exact ByteMemory.store_of_outside _ _ _ _ (by omega)

theorem samePayloads_cleared (I : Inv s (l ++ c :: r)) :
    SamePayloads (l ++ c :: r) s.mem (cleared s c).mem := by
  intro d hd a ha ha'
  have hc : c ∈ l ++ c :: r := by simp
  refine ByteMemory.store_of_outside _ _ _ _ ?_
  by_cases hcd : c = d
  · rw [hcd]
    unfold headerSize at ha
    omega
  · have hap := I.tiles.apart hc hd hcd
    have hle := (I.wellSized c hc).le
    unfold Chunk.Apart Chunk.stop headerSize at *
    omega

theorem samePayloads_moved (I : Inv s (l ++ c :: r))
    (hroom : s.memBrk + chunkFor size ≤ s.memMaxAddr) :
    SamePayloads (l ++ c :: r) s.mem (moved s c (chunkFor size) size).mem ∧
    ∀ i < size, c.addr + headerSize + i < c.stop →
      (moved s c (chunkFor size) size).mem (s.memBrk + headerSize + i) =
        s.mem (c.addr + headerSize + i) := by
  have hc : c ∈ l ++ c :: r := by simp
  have I₂ := I.copied hroom
  have hclear := I₂.samePayloads_cleared
  have hgrown := I.samePayloads_grown (chunkFor size)
  constructor
  · intro d hd a ha ha'
    have hd₂ : d ∈ l ++ c :: (r ++ [topChunk s (chunkFor size)]) := by
      rw [← List.cons_append, ← List.append_assoc]
      exact List.mem_append_left _ hd
    have hin := (I.tiles.inside hd).2
    have hcopy := hclear d hd₂ a ha ha'
    rw [moved, hcopy]
    refine (ByteMemory.copy_of_outside _ _ _ _ (.inl (by omega))).trans ?_
    exact hgrown d hd a ha ha'
  · intro i hi hstop
    have htop : topChunk s (chunkFor size) ∈ l ++ c :: (r ++ [topChunk s (chunkFor size)]) := by
      simp
    have hspec := (chunkFor_spec size).2.2
    have hcopy := hclear _ htop (s.memBrk + headerSize + i) (Nat.le_add_right _ _) (by
      unfold topChunk Chunk.stop
      simp only
      omega)
    rw [moved, hcopy]
    refine (ByteMemory.copy_inside _ _ _ ?_).trans ?_
    · unfold Chunk.stop at hstop
      omega
    · exact hgrown c hc _ (by omega) hstop

end Inv

namespace Coherent

theorem live_ne_top (C : Coherent base w cs) (hp : w.live p = some b) :
    p ≠ w.heap.memBrk + headerSize := by
  obtain ⟨l, c, r, rfl, -, rfl, -⟩ := C.blocks.chunk hp
  have hin := (C.inv.tiles.inside (c := c) (by simp)).2
  have hle := (C.inv.wellSized c (by simp)).le
  unfold Chunk.stop headerSize at *
  omega

theorem gain_of_ne {live : ℕ → Option Block} (hne : q ≠ p) (b : Block) :
    gain live p b q = live q := by
  unfold gain
  split_ifs
  · rfl
  · exact Function.update_of_ne hne _ _

theorem lose_of_ne {live : ℕ → Option Block} (hne : q ≠ p) : lose live p q = live q :=
  Function.update_of_ne hne _ _

theorem addr_ne_top (C : Coherent base w cs) (n : ℕ) :
    ∀ d ∈ cs, d.addr ≠ (topChunk w.heap n).addr := by
  intro d hd he
  have hin := (C.inv.tiles.inside hd).2
  have hle := (C.inv.wellSized d hd).le
  unfold topChunk Chunk.stop headerSize at *
  simp only at he
  omega

theorem mallocRoom (C : Coherent base w cs)
    (hroom : w.heap.memBrk + chunkFor size ≤ w.heap.memMaxAddr) :
    Coherent base ⟨grown w.heap (chunkFor size),
      gain w.live (w.heap.memBrk + headerSize) (.fresh size)⟩
      (cs ++ [topChunk w.heap (chunkFor size)]) := by
  obtain ⟨h₁, h₂, h₃⟩ := chunkFor_spec size
  have hsame := C.inv.samePayloads_grown (chunkFor size)
  refine ⟨C.inv.extend h₁ h₂ hroom, C.start, C.max, ?_, ?_⟩
  · exact C.blocks.gain (b := .fresh size) (c := topChunk w.heap (chunkFor size)) rfl h₃
      (by simp [Block.fresh]) (C.addr_ne_top _)
  · exact (hsame.intact C.blocks C.intact).gain (p := w.heap.memBrk + headerSize)
      (b := .fresh size) (by simp [Block.fresh])

theorem mallocStep (C : Coherent base w cs) (hsize : size ≤ MAX_HEAP)
    (h : mmMalloc size w.heap = some (p, s)) :
    (∃ cs', Coherent base ⟨s, gain w.live p (.fresh size)⟩ cs') ∧
      Spares (.malloc size) w ⟨s, gain w.live p (.fresh size)⟩ := by
  rcases le_or_gt (w.heap.memBrk + chunkFor size) w.heap.memMaxAddr with hroom | hfull
  · rw [C.inv.mmMalloc_room hsize hroom] at h
    obtain ⟨rfl, rfl⟩ := Prod.ext_iff.mp (Option.some.inj h)
    refine ⟨⟨_, C.mallocRoom hroom⟩, ?_⟩
    intro q b hq _
    refine ⟨?_, (C.inv.samePayloads_grown _).block C.blocks hq⟩
    exact (gain_of_ne (C.live_ne_top hq) _).trans hq
  · rw [Inv.mmMalloc_full hsize hfull] at h
    obtain ⟨rfl, rfl⟩ := Prod.ext_iff.mp (Option.some.inj h)
    exact ⟨⟨cs, C⟩, fun q b hq _ ↦ ⟨hq, fun _ _ ↦ rfl⟩⟩

theorem freed (C : Coherent base w (l ++ c :: r)) :
    Coherent base ⟨cleared w.heap c, lose w.live (c.addr + headerSize)⟩
      (l ++ c.setStatus false :: r) := by
  have hsame := C.inv.samePayloads_cleared
  refine ⟨C.inv.clear, C.start, C.max, C.blocks.lose C.inv.addr_ne, ?_⟩
  exact (hsame.intact C.blocks C.intact).lose _

/-- `mm_free` returns for every live block but an empty one at the end of the heap. -/
theorem mmFree_iff (C : Coherent base w cs) (hp : w.live p = some b) :
    (∃ s, mmFree p w.heap = some ((), s)) ↔ p < w.heap.memBrk := by
  obtain ⟨l, c, r, rfl, -, rfl, hfit⟩ := C.blocks.chunk hp
  constructor
  · intro ⟨s, h⟩
    by_contra hge
    rw [C.inv.mmFree_abort (by omega)] at h
    cases h
  · intro hlt
    exact ⟨_, C.inv.mmFree_eq hlt⟩

theorem freeStep (C : Coherent base w cs) (hp : w.live p = some b)
    (h : mmFree p w.heap = some ((), s)) :
    (∃ cs', Coherent base ⟨s, lose w.live p⟩ cs') ∧ Spares (.free p) w ⟨s, lose w.live p⟩ := by
  have hlt := (C.mmFree_iff hp).mp ⟨s, h⟩
  obtain ⟨l, c, r, rfl, -, rfl, hfit⟩ := C.blocks.chunk hp
  rw [C.inv.mmFree_eq hlt] at h
  obtain ⟨-, rfl⟩ := Prod.ext_iff.mp (Option.some.inj h)
  refine ⟨⟨_, C.freed⟩, ?_⟩
  intro q b' hq hne
  refine ⟨?_, C.inv.samePayloads_cleared.block C.blocks hq⟩
  exact (lose_of_ne (Ne.symm hne)).trans hq

theorem movedRoom (C : Coherent base w (l ++ c :: r)) (hp : w.live (c.addr + headerSize) = some b)
    (hroom : w.heap.memBrk + chunkFor size ≤ w.heap.memMaxAddr)
    (I : Inv (moved w.heap c (chunkFor size) size)
      (l ++ c.setStatus false :: (r ++ [topChunk w.heap (chunkFor size)]))) :
    Coherent base ⟨moved w.heap c (chunkFor size) size,
      gain (lose w.live (c.addr + headerSize)) (w.heap.memBrk + headerSize) (b.resize size)⟩
      (l ++ c.setStatus false :: (r ++ [topChunk w.heap (chunkFor size)])) := by
  obtain ⟨hsame, hcopy⟩ := C.inv.samePayloads_moved hroom
  have hresize : ∀ i v, (b.resize size).bytes i = some v → i < size ∧ b.bytes i = some v := by
    intro i v hv
    simpa [Block.resize] using hv
  have hfit := C.blocks.fits c (by simp) b hp
  have hne : ∀ d ∈ l ++ c.setStatus false :: r,
      d.addr ≠ (topChunk w.heap (chunkFor size)).addr := by
    intro d hd
    simp only [List.mem_append, List.mem_cons] at hd
    rcases hd with hd | hd | hd
    · exact C.addr_ne_top _ d (by simp [hd])
    · rw [hd]
      exact C.addr_ne_top _ c (by simp)
    · exact C.addr_ne_top _ d (by simp [hd])
  refine ⟨I, C.start, C.max, ?_, ?_⟩
  · have B := (C.blocks.lose C.inv.addr_ne).gain (c := topChunk w.heap (chunkFor size))
      (b := b.resize size) rfl (chunkFor_spec _).2.2 (fun i v hv ↦ (hresize i v hv).1) hne
    rw [List.append_assoc, List.cons_append] at B
    exact B
  · refine ((hsame.intact C.blocks C.intact).lose (c.addr + headerSize)).gain
      (p := w.heap.memBrk + headerSize) (b := b.resize size) ?_
    intro i v hv
    obtain ⟨hi, hv⟩ := hresize i v hv
    have hib := C.blocks.written _ b i v hp hv
    rw [hcopy i hi (by unfold Chunk.stop; omega)]
    exact C.intact _ b i v hp hv

theorem reallocStep (C : Coherent base w cs) (hp : w.live p = some b) (hsize : size ≤ MAX_HEAP)
    (h : mmRealloc p size w.heap = some (q, s)) :
    (∃ cs', Coherent base ⟨s, reallocated w.live p size q b⟩ cs') ∧
      Spares (.realloc p size) w ⟨s, reallocated w.live p size q b⟩ := by
  obtain ⟨l, c, r, rfl, -, rfl, hfit⟩ := C.blocks.chunk hp
  rcases Nat.eq_zero_or_pos size with rfl | hn
  · have hw : wp (mmRealloc (c.addr + headerSize) 0) (fun q' s' ↦ q' = q ∧ s' = s) w.heap :=
      ⟨q, s, h, rfl, rfl⟩
    rw [Inv.mmRealloc_zero (payload_ne_null _), wp_bind] at hw
    obtain ⟨⟨⟩, s₁, hfree, hw⟩ := hw
    obtain ⟨rfl, rfl⟩ := wp_pure.mp hw
    have hlive : reallocated w.live (c.addr + headerSize) 0 NULL b =
        lose w.live (c.addr + headerSize) := by simp [reallocated, gain]
    rw [hlive]
    exact C.freeStep hp hfree
  · rcases le_or_gt (w.heap.memBrk + chunkFor size) w.heap.memMaxAddr with hroom | hfull
    · obtain ⟨hcall, I⟩ := C.inv.mmRealloc_room hn hsize hroom
      rw [hcall] at h
      obtain ⟨rfl, rfl⟩ := Prod.ext_iff.mp (Option.some.inj h)
      have hlive : reallocated w.live (c.addr + headerSize) size (w.heap.memBrk + headerSize) b =
          gain (lose w.live (c.addr + headerSize)) (w.heap.memBrk + headerSize) (b.resize size) :=
        if_neg fun hnull ↦ payload_ne_null _ hnull.1
      rw [hlive]
      refine ⟨⟨_, C.movedRoom hp hroom I⟩, ?_⟩
      intro q b' hq hne
      refine ⟨?_, (C.inv.samePayloads_moved hroom).1.block C.blocks hq⟩
      exact ((gain_of_ne (C.live_ne_top hq) _).trans (lose_of_ne (Ne.symm hne))).trans hq
    · rw [Inv.mmRealloc_full hn hsize hfull] at h
      obtain ⟨rfl, rfl⟩ := Prod.ext_iff.mp (Option.some.inj h)
      have hlive : reallocated w.live (c.addr + headerSize) size NULL b = w.live :=
        if_pos ⟨rfl, hn⟩
      rw [hlive]
      exact ⟨⟨_, C⟩, fun q b hq _ ↦ ⟨hq, fun _ _ ↦ rfl⟩⟩

theorem disjoint (C : Coherent base w cs) {b' : Block} (hp : w.live p = some b)
    (hq : w.live q = some b') (hpq : p ≠ q) :
    p + b.size + headerSize ≤ q ∨ q + b'.size + headerSize ≤ p := by
  obtain ⟨c, hc, -, rfl⟩ := (C.blocks.live_iff p).mp ⟨b, hp⟩
  obtain ⟨d, hd, -, rfl⟩ := (C.blocks.live_iff q).mp ⟨b', hq⟩
  have hap := C.inv.tiles.apart hc hd (by rintro rfl; exact hpq rfl)
  have h₁ := C.blocks.fits c hc b hp
  have h₂ := C.blocks.fits d hd b' hq
  unfold Chunk.Apart Chunk.stop at hap
  omega

theorem writeStep (C : Coherent base w cs) {i : ℕ} (v : UInt8) (hp : w.live p = some b)
    (hi : i < b.size) :
    Coherent base ⟨{ w.heap with mem := Function.update w.heap.mem (p + i) v },
      Function.update w.live p (some (b.write i v))⟩ cs ∧
    Spares (.write p i v) w ⟨{ w.heap with mem := Function.update w.heap.mem (p + i) v },
      Function.update w.live p (some (b.write i v))⟩ := by
  obtain ⟨c, hc, hst, rfl⟩ := (C.blocks.live_iff p).mp ⟨b, hp⟩
  have hfit := C.blocks.fits c hc b hp
  have hother : ∀ q b', w.live q = some b' → q ≠ c.addr + headerSize → ∀ j < b'.size,
      q + j ≠ c.addr + headerSize + i := by
    intro q b' hq hne j hj he
    have := C.disjoint hq hp hne
    omega
  have I : Inv { w.heap with mem := Function.update w.heap.mem (c.addr + headerSize + i) v } cs := by
    refine C.inv.of_payload ?_
    intro d hd a ha ha'
    refine Function.update_of_ne ?_ _ _
    intro he
    by_cases hcd : c = d
    · rw [hcd] at he
      unfold headerSize at he
      omega
    · have hap := C.inv.tiles.apart hc hd hcd
      have hle := (C.inv.wellSized d hd).le
      unfold Chunk.Apart Chunk.stop headerSize at *
      omega
  refine ⟨⟨I, C.start, C.max, C.blocks.write v hp hi, C.intact.write v hp ?_⟩, ?_⟩
  · intro q b' j u hq hu hne
    exact hother q b' hq hne j (C.blocks.written q b' j u hq hu)
  · intro q b' hq hqp
    have hne : q ≠ c.addr + headerSize := Ne.symm hqp
    refine ⟨(Function.update_of_ne hne _ _).trans hq, ?_⟩
    intro j hj
    exact Function.update_of_ne (hother q b' hq hne j hj) _ _

theorem isolated (C : Coherent base w cs) : Isolated w where
  ne_null p b hp := by
    obtain ⟨l, c, r, -, -, rfl, -⟩ := C.blocks.chunk hp
    exact payload_ne_null _
  aligned p b hp := by
    obtain ⟨c, hc, -, rfl⟩ := (C.blocks.live_iff p).mp ⟨b, hp⟩
    exact Nat.dvd_add (C.inv.wellSized c hc).addr (by decide)
  inside p b hp := by
    obtain ⟨l, c, r, rfl, -, rfl, hfit⟩ := C.blocks.chunk hp
    have hin := C.inv.tiles.inside (c := c) (by simp)
    unfold Chunk.stop at hin
    omega
  disjoint p b q b' hp hq hpq := by
    have := C.disjoint hp hq hpq
    omega
  intact := C.intact

theorem step (C : Coherent base w cs) (h : naive.Step op w w') :
    (∃ cs', Coherent base w' cs') ∧ Spares op w w' := by
  cases h with
  | malloc hsize h => exact C.mallocStep hsize h
  | free hp h => exact C.freeStep hp h
  | realloc hp hsize h => exact C.reallocStep hp hsize h
  | @reallocNull _ size q s hsize h =>
    rcases Nat.eq_zero_or_pos size with rfl | hn
    · change mmRealloc NULL 0 w.heap = some (q, s) at h
      rw [Inv.mmRealloc_null_zero] at h
      obtain ⟨rfl, rfl⟩ := Prod.ext_iff.mp (Option.some.inj h)
      exact ⟨⟨cs, C⟩, fun q b hq _ ↦ ⟨hq, fun _ _ ↦ rfl⟩⟩
    · change mmRealloc NULL size w.heap = some (q, s) at h
      rw [Inv.mmRealloc_null_eq hn] at h
      obtain ⟨hC, hsp⟩ := C.mallocStep hsize h
      exact ⟨hC, fun q b hq _ ↦ hsp q b hq id⟩
  | write hp hi =>
    obtain ⟨C', hsp⟩ := C.writeStep _ hp hi
    exact ⟨⟨cs, C'⟩, hsp⟩

end Coherent

theorem Start.coherent (hb : Base base) (h : naive.Start base w) : Coherent base w [] := by
  obtain ⟨hlive, s, hs⟩ := h
  have hw : w.heap = memInit s base := (Prod.ext_iff.mp (Option.some.inj hs)).2.symm
  have I : Inv w.heap [] := by
    rw [hw]
    exact ⟨hb.pos, hb.fits, Nat.le_add_right _ _, hb.aligned, rfl, by simp, by simp⟩
  refine ⟨I, by rw [hw]; rfl, by rw [hw]; rfl, ?_, ?_⟩
  · rw [hlive]
    exact Blocks.empty
  · simp [Intact, hlive]

theorem coherent_of_reachable (hb : Base base) (hw : naive.ReachableWorld base w) :
    ∃ cs, Coherent base w cs :=
  Reachable.invariant (I := fun w ↦ ∃ cs, Coherent base w cs) hw
    (fun _ h ↦ ⟨[], Start.coherent hb h⟩) fun _ _ ⟨_, C⟩ ⟨_, h⟩ ↦ (C.step h).1

end CsoLabs.MallocNaive
