import CsoLabs.Foundation.Transition
import CsoLabs.Malloc.Allocation

namespace CsoLabs.Malloc

open Foundation Extent

/-- A block that the client holds: the size it asked for and what it last wrote there. -/
structure Block where
  size : ℕ
  bytes : ℕ → Option UInt8

structure World where
  heap : Heap
  live : ℕ → Option Block

inductive Op
  | malloc (size : ℕ)
  | free (p : ℕ)
  | realloc (p size : ℕ)
  | write (p i : ℕ) (v : UInt8)

def Op.On : Op → ℕ → Prop
  | .malloc _, _ => False
  | .free p, q => p = q
  | .realloc p _, q => p = q
  | .write p _ _, q => p = q

def Block.fresh (size : ℕ) : Block := ⟨size, fun _ ↦ none⟩

/-- A reallocated block keeps what fits into its new size. -/
def Block.resize (b : Block) (size : ℕ) : Block := ⟨size, fun i ↦ if i < size then b.bytes i else none⟩

def Block.write (b : Block) (i : ℕ) (v : UInt8) : Block := ⟨b.size, Function.update b.bytes i (some v)⟩

@[simp] theorem Block.write_size (b : Block) (i : ℕ) (v : UInt8) : (b.write i v).size = b.size := rfl

@[simp] theorem Block.write_bytes (b : Block) (i : ℕ) (v : UInt8) :
    (b.write i v).bytes = Function.update b.bytes i (some v) := rfl

def gain (live : ℕ → Option Block) (p : ℕ) (b : Block) : ℕ → Option Block :=
  if p = NULL then live else Function.update live p (some b)

def lose (live : ℕ → Option Block) (p : ℕ) : ℕ → Option Block := Function.update live p none

inductive Step : Op → World → World → Prop
  | malloc {w : World} {size p : ℕ} {s : Heap} (hsize : size ≤ MAX_HEAP)
      (h : mmMalloc size w.heap = some (p, s)) :
      Step (.malloc size) w ⟨s, gain w.live p (.fresh size)⟩
  | free {w : World} {p : ℕ} {b : Block} {s : Heap} (hp : w.live p = some b)
      (h : mmFree p w.heap = some ((), s)) : Step (.free p) w ⟨s, lose w.live p⟩
  | realloc {w : World} {p size q : ℕ} {b : Block} {s : Heap} (hp : w.live p = some b)
      (hsize : size ≤ MAX_HEAP) (h : mmRealloc p size w.heap = some (q, s)) :
      Step (.realloc p size) w ⟨s, gain (lose w.live p) q (b.resize size)⟩
  | reallocNull {w : World} {size q : ℕ} {s : Heap} (hsize : size ≤ MAX_HEAP)
      (h : mmRealloc NULL size w.heap = some (q, s)) :
      Step (.realloc NULL size) w ⟨s, gain w.live q (.fresh size)⟩
  | write {w : World} {p i : ℕ} {b : Block} {v : UInt8} (hp : w.live p = some b) (hi : i < b.size) :
      Step (.write p i v) w
        ⟨{ w.heap with mem := Function.update w.heap.mem (p + i) v },
          Function.update w.live p (some (b.write i v))⟩

structure Base (base : ℕ) : Prop where
  pos : 0 < base
  aligned : 16 ∣ base
  fits : base + MAX_HEAP < 2 ^ 64

/-- After `mem_init` and `mm_init`, whatever was in memory and in the globals. -/
def Start (base : ℕ) (w : World) : Prop :=
  w.live = (fun _ ↦ none) ∧ ∃ s, mmInit (memInit s base) = some (0, w.heap)

abbrev ReachableWorld (base : ℕ) : World → Prop :=
  Reachable (Start base) fun w w' ↦ ∃ op, Step op w w'

structure Blocks (live : ℕ → Option Block) (A : List Extent) : Prop where
  live_iff : ∀ p, (∃ b, live p = some b) ↔ ∃ c ∈ A, p = c.addr + headerSize
  fits : ∀ c ∈ A, ∀ b, live (c.addr + headerSize) = some b → b.size + headerSize ≤ c.size
  written : ∀ p b i v, live p = some b → b.bytes i = some v → i < b.size

def Intact (live : ℕ → Option Block) (m : ByteMemory.Memory) : Prop :=
  ∀ p b i v, live p = some b → b.bytes i = some v → m (p + i) = v

structure Coherent (base : ℕ) (w : World) (A F : List Extent) : Prop where
  inv : Inv w.heap A F
  start : w.heap.memStartBrk = base
  max : w.heap.memMaxAddr = base + MAX_HEAP
  blocks : Blocks w.live A
  intact : Intact w.live w.heap.mem

variable {base size p : ℕ} {w w' : World} {s s' : Heap} {A F l r : List Extent} {c d : Extent}
  {live : ℕ → Option Block} {b : Block} {op : Op}

theorem Start.coherent (hb : Base base) (h : Start base w) : Coherent base w [] [] := by
  obtain ⟨hlive, s, hs⟩ := h
  have hw : w.heap =
      { memInit s base with globalFreeList := NULL, globalAllocatedListHead := NULL } := by
    have : mmInit (memInit s base) = some (0, { memInit s base with
      globalFreeList := NULL, globalAllocatedListHead := NULL }) := rfl
    rw [this] at hs
    exact (Prod.ext_iff.mp (Option.some.inj hs)).2.symm
  have hL : Layout [] [] w.heap.memStartBrk w.heap.memBrk := by
    refine ⟨fun b ↦ ?_, by simp, by simp, by simp [Separated], by simp⟩
    rw [hw]
    simp only [memInit, covered_nil, or_self, iff_false]
    omega
  have h₁ : 0 < w.heap.memStartBrk := by rw [hw]; exact hb.pos
  have h₂ : w.heap.memMaxAddr < 2 ^ 64 := by rw [hw]; exact hb.fits
  have h₃ : w.heap.memBrk ≤ w.heap.memMaxAddr := by rw [hw]; exact Nat.le_add_right _ _
  refine ⟨⟨h₁, h₂, by rw [hw]; exact le_rfl, h₃, by rw [hw]; exact hb.aligned,
    ⟨⟨hL.nodes h₁ h₂ h₃, ?_, ?_, by simp, by simp⟩, by simp, by simp⟩, hL⟩, by rw [hw]; rfl,
    by rw [hw]; rfl, ⟨by simp [hlive], by simp, by simp [hlive]⟩, by simp [Intact, hlive]⟩
  · rw [hw]
    exact DList.of_nil
  · rw [hw]
    exact DList.of_nil

namespace Blocks

theorem gain (B : Blocks live A) (hfit : b.size + headerSize ≤ c.size)
    (hw : ∀ i v, b.bytes i = some v → i < b.size) (hne : ∀ d ∈ A, d.addr ≠ c.addr) :
    Blocks (gain live (c.addr + headerSize) b) (c :: A) := by
  have hp : c.addr + headerSize ≠ NULL := by unfold headerSize NULL; omega
  rw [Malloc.gain, if_neg hp]
  refine ⟨fun p ↦ ?_, fun d hd b' hb' ↦ ?_, fun p b' i v hp hv ↦ ?_⟩
  · by_cases hpc : p = c.addr + headerSize
    · simp [hpc]
    · rw [Function.update_of_ne hpc, B.live_iff]
      simp [hpc]
  · rcases List.mem_cons.mp hd with rfl | hd
    · rw [Function.update_self, Option.some.injEq] at hb'
      exact hb' ▸ hfit
    · rw [Function.update_of_ne (by have := hne d hd; omega)] at hb'
      exact B.fits d hd b' hb'
  · by_cases hpc : p = c.addr + headerSize
    · subst hpc
      rw [Function.update_self, Option.some.injEq] at hp
      subst hp
      exact hw i v hv
    · rw [Function.update_of_ne hpc] at hp
      exact B.written p b' i v hp hv

theorem lose (B : Blocks live (l ++ c :: r)) (hne : ∀ d ∈ l ++ r, d.addr ≠ c.addr) :
    Blocks (lose live (c.addr + headerSize)) (l ++ r) := by
  refine ⟨fun p ↦ ?_, fun d hd b' hb' ↦ ?_, fun p b' i v hp hv ↦ ?_⟩
  · by_cases hpc : p = c.addr + headerSize
    · subst hpc
      rw [Malloc.lose, Function.update_self]
      constructor
      · rintro ⟨_, ⟨⟩⟩
      · rintro ⟨d, hd, he⟩
        exact absurd (by omega) (hne d hd)
    · rw [Malloc.lose, Function.update_of_ne hpc, B.live_iff]
      constructor
      · rintro ⟨d, hd, rfl⟩
        refine ⟨d, ?_, rfl⟩
        simp only [List.mem_append, List.mem_cons] at hd ⊢
        rcases hd with hd | rfl | hd
        · exact .inl hd
        · exact absurd rfl hpc
        · exact .inr hd
      · rintro ⟨d, hd, rfl⟩
        exact ⟨d, mem_middle hd, rfl⟩
  · rw [Malloc.lose, Function.update_of_ne (by have := hne d hd; omega)] at hb'
    exact B.fits d (mem_middle hd) b' hb'
  · by_cases hpc : p = c.addr + headerSize
    · subst hpc
      simp [Malloc.lose] at hp
    · rw [Malloc.lose, Function.update_of_ne hpc] at hp
      exact B.written p b' i v hp hv

theorem write (B : Blocks live A) {i : ℕ} (v : UInt8) (hp : live p = some b) (hi : i < b.size) :
    Blocks (Function.update live p (some (b.write i v))) A := by
  refine ⟨fun q ↦ ?_, fun d hd b' hb' ↦ ?_, fun q b' j u hq hu ↦ ?_⟩
  · by_cases hq : q = p
    · subst hq
      rw [← B.live_iff, Function.update_self]
      exact ⟨fun _ ↦ ⟨b, hp⟩, fun _ ↦ ⟨_, rfl⟩⟩
    · rw [Function.update_of_ne hq]
      exact B.live_iff q
  · by_cases hdp : d.addr + headerSize = p
    · rw [hdp, Function.update_self, Option.some.injEq] at hb'
      subst hb'
      exact B.fits d hd b (hdp ▸ hp)
    · rw [Function.update_of_ne hdp] at hb'
      exact B.fits d hd b' hb'
  · by_cases hqp : q = p
    · subst hqp
      rw [Function.update_self, Option.some.injEq] at hq
      subst hq
      by_cases hji : j = i
      · exact hji ▸ hi
      · rw [Block.write_bytes, Function.update_of_ne hji] at hu
        exact B.written _ b j u hp hu
    · rw [Function.update_of_ne hqp] at hq
      exact B.written q b' j u hq hu

theorem chunk (B : Blocks live A) (hp : live p = some b) :
    ∃ l c r, A = l ++ c :: r ∧ p = c.addr + headerSize ∧ b.size + headerSize ≤ c.size := by
  obtain ⟨c, hc, rfl⟩ := (B.live_iff p).mp ⟨b, hp⟩
  obtain ⟨l, r, rfl⟩ := List.append_of_mem hc
  exact ⟨l, c, r, rfl, rfl, B.fits c hc b hp⟩

end Blocks

theorem Inv.addr_ne_middle (I : Inv s (l ++ c :: r) F) : ∀ d ∈ l ++ r, d.addr ≠ c.addr := by
  intro d hd he
  exact I.rep.notMem_alloc (he ▸ List.mem_map_of_mem hd)

theorem Inv.addr_ne (I : Inv s (c :: A) F) : ∀ d ∈ A, d.addr ≠ c.addr :=
  Inv.addr_ne_middle (l := []) I

theorem Frame.block (hf : Frame A s s') (B : Blocks live A) (hp : live p = some b) :
    ∀ i < b.size, s'.mem (p + i) = s.mem (p + i) := by
  obtain ⟨l, c, r, rfl, rfl, hfit⟩ := B.chunk hp
  intro i hi
  exact hf.payload c (by simp) _ (by omega) (by unfold stop; omega)

namespace Intact

variable {m : ByteMemory.Memory}

theorem frame (hi : Intact live s.mem) (B : Blocks live A) (hf : Frame A s s') :
    Intact live s'.mem := fun p b i v hp hv ↦
  (hf.block B hp i (B.written p b i v hp hv)).trans (hi p b i v hp hv)

theorem gain (hi : Intact live m) (hb : ∀ i v, b.bytes i = some v → m (p + i) = v) :
    Intact (gain live p b) m := by
  intro q b' i v hq hv
  unfold Malloc.gain at hq
  split_ifs at hq with hp
  · exact hi q b' i v hq hv
  · by_cases hqp : q = p
    · subst hqp
      rw [Function.update_self, Option.some.injEq] at hq
      subst hq
      exact hb i v hv
    · rw [Function.update_of_ne hqp] at hq
      exact hi q b' i v hq hv

theorem lose (hi : Intact live m) (p : ℕ) : Intact (lose live p) m := by
  intro q b' i v hq hv
  by_cases hqp : q = p
  · subst hqp
    simp [Malloc.lose] at hq
  · rw [Malloc.lose, Function.update_of_ne hqp] at hq
    exact hi q b' i v hq hv

theorem write (hi : Intact live m) {i : ℕ} (v : UInt8) (hp : live p = some b)
    (hother : ∀ q b' j u, live q = some b' → b'.bytes j = some u → q ≠ p → q + j ≠ p + i) :
    Intact (Function.update live p (some (b.write i v))) (Function.update m (p + i) v) := by
  intro q b' j u hq hu
  by_cases hqp : q = p
  · subst hqp
    rw [Function.update_self, Option.some.injEq] at hq
    subst hq
    by_cases hji : j = i
    · subst hji
      rw [Block.write_bytes, Function.update_self, Option.some.injEq] at hu
      rw [Function.update_self, hu]
    · rw [Block.write_bytes, Function.update_of_ne hji] at hu
      rw [Function.update_of_ne (by omega)]
      exact hi _ b j u hp hu
  · rw [Function.update_of_ne hqp] at hq
    rw [Function.update_of_ne (hother q b' j u hq hu hqp)]
    exact hi q b' j u hq hu

end Intact

def Spares (op : Op) (w w' : World) : Prop :=
  ∀ p b, w.live p = some b → ¬ op.On p →
    w'.live p = some b ∧ ∀ i < b.size, w'.heap.mem (p + i) = w.heap.mem (p + i)

namespace Coherent

variable {q : ℕ} {b' : Block}

theorem disjoint (C : Coherent base w A F) (hp : w.live p = some b) (hq : w.live q = some b')
    (hpq : p ≠ q) : p + b.size + headerSize ≤ q ∨ q + b'.size + headerSize ≤ p := by
  obtain ⟨c, hc, rfl⟩ := (C.blocks.live_iff p).mp ⟨b, hp⟩
  obtain ⟨d, hd, rfl⟩ := (C.blocks.live_iff q).mp ⟨b', hq⟩
  have hap := C.inv.layout.addr_apart (.inl hc) (.inl hd) (by omega)
  have h₁ := C.blocks.fits c hc b hp
  have h₂ := C.blocks.fits d hd b' hq
  unfold Extent.Apart stop at hap
  omega

theorem mallocStep (C : Coherent base w A F) {s : Heap} (hsize : size ≤ MAX_HEAP)
    (h : mmMalloc size w.heap = some (p, s)) :
    (∃ A' F', Coherent base ⟨s, gain w.live p (.fresh size)⟩ A' F') ∧
      Spares (.malloc size) w ⟨s, gain w.live p (.fresh size)⟩ := by
  rcases Nat.eq_zero_or_pos size with rfl | hn
  · obtain ⟨rfl, rfl⟩ : NULL = p ∧ w.heap = s := by
      rw [mmMalloc_zero] at h
      simpa using h
    exact ⟨⟨A, F, C⟩, fun q b hq _ ↦ ⟨hq, fun _ _ ↦ rfl⟩⟩
  · have hmem : ¬ OutOfMemory w.heap size := fun hoom ↦ by
      rw [mmMalloc_outOfMemory C.inv.top hn hoom] at h
      cases h
    obtain ⟨c, F', rfl, hfit, I, hf⟩ := (C.inv.mmMalloc hn hsize hmem).result h
    have B := C.blocks.gain (b := .fresh size) hfit (by simp [Block.fresh]) I.addr_ne
    have hi : Intact (gain w.live (c.addr + headerSize) (.fresh size)) s.mem :=
      (C.intact.frame C.blocks hf).gain (by simp [Block.fresh])
    refine ⟨⟨c :: A, F', I, hf.1.trans C.start, hf.2.trans C.max, B, hi⟩,
      fun q b hq _ ↦ ⟨?_, hf.block C.blocks hq⟩⟩
    have hqc : q ≠ c.addr + headerSize := by
      rintro rfl
      obtain ⟨d, hd, he⟩ := (C.blocks.live_iff _).mp ⟨b, hq⟩
      exact I.addr_ne d hd (by omega)
    change gain w.live (c.addr + headerSize) _ q = _
    unfold gain
    split_ifs
    · exact hq
    · rwa [Function.update_of_ne hqc]

theorem freeStep (C : Coherent base w A F) {s : Heap} (hp : w.live p = some b)
    (h : mmFree p w.heap = some ((), s)) :
    (∃ A' F', Coherent base ⟨s, lose w.live p⟩ A' F' ∧ s.memBrk = w.heap.memBrk ∧
      ∀ c, c ∈ A' ↔ c ∈ A ∧ c.addr + headerSize ≠ p) ∧
      Spares (.free p) w ⟨s, lose w.live p⟩ := by
  obtain ⟨l, c, r, rfl, rfl, -⟩ := C.blocks.chunk hp
  obtain ⟨F', I, hbrk, hf⟩ := C.inv.mmFree.result h
  have hne := C.inv.addr_ne_middle
  refine ⟨⟨l ++ r, F', ⟨I, hf.1.trans C.start, hf.2.trans C.max, C.blocks.lose hne,
    (C.intact.frame C.blocks hf).lose _⟩, hbrk, fun d ↦ ⟨fun hd ↦ ⟨?_, ?_⟩, fun ⟨hd, hdc⟩ ↦ ?_⟩⟩,
    fun q b' hq hqp ↦ ⟨?_, hf.block C.blocks hq⟩⟩
  · exact mem_middle hd
  · have := hne d hd
    omega
  · simp only [List.mem_append, List.mem_cons] at hd ⊢
    rcases hd with hd | rfl | hd
    · exact .inl hd
    · exact absurd rfl hdc
    · exact .inr hd
  · change lose w.live _ q = _
    rwa [lose, Function.update_of_ne (Ne.symm hqp)]

theorem reallocStep (C : Coherent base w A F) {s : Heap} (hp : w.live p = some b)
    (hsize : size ≤ MAX_HEAP) (h : mmRealloc p size w.heap = some (q, s)) :
    (∃ A' F', Coherent base ⟨s, gain (lose w.live p) q (b.resize size)⟩ A' F') ∧
      Spares (.realloc p size) w ⟨s, gain (lose w.live p) q (b.resize size)⟩ := by
  obtain ⟨l, c, r, rfl, rfl, hbc⟩ := C.blocks.chunk hp
  have hp0 : c.addr + headerSize ≠ NULL := by unfold headerSize NULL; omega
  rcases Nat.eq_zero_or_pos size with rfl | hn
  · obtain ⟨⟨⟩, s', hfree, hres⟩ := (wp_mmRealloc_zero hp0 (Q := fun q' s' ↦ q' = q ∧ s' = s)).mp
      ⟨q, s, h, rfl, rfl⟩
    obtain ⟨rfl, rfl⟩ := hres
    obtain ⟨⟨A', F', C', -⟩, hsp⟩ := C.freeStep hp hfree
    exact ⟨⟨A', F', C'⟩, hsp⟩
  · have hmem : ¬ OutOfMemory w.heap size := fun hoom ↦ by
      have hnone := mmMalloc_outOfMemory C.inv.top hn hoom
      have := (wp_of_eq (Q := fun _ _ ↦ True) h).mpr trivial
      rw [mmRealloc, wp_ite, if_pos hn, wp_bind] at this
      obtain ⟨_, _, hm, _⟩ := this
      rw [hnone] at hm
      cases hm
    obtain ⟨d, F', rfl, hfit, I, hf, hcopy, -⟩ := (C.inv.mmRealloc hn hsize hmem).result h
    have B := C.blocks.lose C.inv.addr_ne_middle
    have hloses := C.intact.lose (c.addr + headerSize)
    have hresize : ∀ i v, (b.resize size).bytes i = some v → i < size ∧ b.bytes i = some v := by
      intro i v hv
      simpa [Block.resize] using hv
    have hi : Intact (gain (lose w.live (c.addr + headerSize)) (d.addr + headerSize)
        (b.resize size)) s.mem := (hloses.frame B hf).gain fun i v hv ↦ by
      obtain ⟨hi, hv⟩ := hresize i v hv
      have hib := C.blocks.written _ b i v hp hv
      rw [hcopy i hi (by unfold stop; omega)]
      exact C.intact _ b i v hp hv
    refine ⟨⟨d :: (l ++ r), F', I, hf.1.trans C.start, hf.2.trans C.max,
      B.gain hfit (fun i v hv ↦ (hresize i v hv).1) I.addr_ne, hi⟩,
      fun q' b' hq' hne ↦ ⟨?_, ?_⟩⟩
    · have hold : lose w.live (c.addr + headerSize) q' = some b' := by
        rwa [lose, Function.update_of_ne (Ne.symm hne)]
      have hqd : q' ≠ d.addr + headerSize := by
        rintro rfl
        obtain ⟨e, he, hed⟩ := (B.live_iff _).mp ⟨b', hold⟩
        exact I.addr_ne e he (by omega)
      change gain _ (d.addr + headerSize) _ q' = _
      unfold gain
      split_ifs
      · exact hold
      · rwa [Function.update_of_ne hqd]
    · refine hf.block B (?_ : lose w.live (c.addr + headerSize) q' = some b')
      rwa [lose, Function.update_of_ne (Ne.symm hne)]

theorem writeStep (C : Coherent base w A F) {i : ℕ} (v : UInt8) (hp : w.live p = some b)
    (hi : i < b.size) :
    Coherent base ⟨{ w.heap with mem := Function.update w.heap.mem (p + i) v },
      Function.update w.live p (some (b.write i v))⟩ A F ∧
      Spares (.write p i v) w ⟨{ w.heap with mem := Function.update w.heap.mem (p + i) v },
        Function.update w.live p (some (b.write i v))⟩ := by
  obtain ⟨c, hc, rfl⟩ := (C.blocks.live_iff p).mp ⟨b, hp⟩
  have hfit := C.blocks.fits c hc b hp
  have hother : ∀ q b', w.live q = some b' → q ≠ c.addr + headerSize → ∀ j < b'.size,
      q + j ≠ c.addr + headerSize + i := fun q b' hq hne j hj he ↦ by
    have := C.disjoint hq hp hne
    omega
  have I : Inv { w.heap with mem := Function.update w.heap.mem (c.addr + headerSize + i) v } A F :=
    C.inv.of_payload fun x ↦ by
      by_cases hx : x = c.addr + headerSize + i
      · exact .inl (C.inv.layout.payload_outside hc (by omega) (by unfold stop; omega))
      · exact .inr (Function.update_of_ne hx _ _)
  refine ⟨⟨I, C.start, C.max, C.blocks.write v hp hi, C.intact.write v hp fun q b' j u hq hu hne ↦
    hother q b' hq hne j (C.blocks.written q b' j u hq hu)⟩, fun q b' hq hqp ↦ ⟨?_, fun j hj ↦ ?_⟩⟩
  · change Function.update w.live _ _ q = _
    rwa [Function.update_of_ne (Ne.symm hqp)]
  · exact Function.update_of_ne (hother q b' hq (Ne.symm hqp) j hj) _ _

theorem step (C : Coherent base w A F) (h : Step op w w') :
    (∃ A' F', Coherent base w' A' F') ∧ Spares op w w' := by
  cases h with
  | malloc hsize h => exact C.mallocStep hsize h
  | free hp h =>
    obtain ⟨⟨A', F', C', -⟩, hsp⟩ := C.freeStep hp h
    exact ⟨⟨A', F', C'⟩, hsp⟩
  | realloc hp hsize h => exact C.reallocStep hp hsize h
  | @reallocNull _ size q s hsize h =>
    rcases Nat.eq_zero_or_pos size with rfl | hn
    · obtain ⟨rfl, rfl⟩ : NULL = q ∧ w.heap = s := by
        rw [mmRealloc_null_zero] at h
        simpa using h
      exact ⟨⟨A, F, C⟩, fun q b hq _ ↦ ⟨hq, fun _ _ ↦ rfl⟩⟩
    · rw [mmRealloc_null hn] at h
      obtain ⟨hC, hsp⟩ := C.mallocStep hsize h
      exact ⟨hC, fun q b hq _ ↦ hsp q b hq id⟩
  | write hp hi =>
    obtain ⟨C', hsp⟩ := C.writeStep _ hp hi
    exact ⟨⟨A, F, C'⟩, hsp⟩

end Coherent

theorem ReachableWorld.coherent (hb : Base base) (hw : ReachableWorld base w) :
    ∃ A F, Coherent base w A F :=
  Reachable.invariant (I := fun w ↦ ∃ A F, Coherent base w A F) hw
    (fun _ h ↦ ⟨[], [], h.coherent hb⟩) fun _ _ ⟨_, _, C⟩ ⟨_, h⟩ ↦ (C.step h).1

end CsoLabs.Malloc
