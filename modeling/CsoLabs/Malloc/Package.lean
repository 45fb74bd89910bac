import CsoLabs.Malloc.Break
import CsoLabs.Malloc.Realloc

namespace CsoLabs.Malloc

open Foundation Extent

structure Package where
  mmInit : Alloc ℤ
  mmMalloc : ℕ → Alloc ℕ
  mmFree : ℕ → Alloc Unit
  mmRealloc : ℕ → ℕ → Alloc ℕ

/-- What the client holds after `mm_realloc(p, size)` has returned `q`; it reads a NULL for a
size other than 0 as a refusal. -/
def reallocated (live : ℕ → Option Block) (p size q : ℕ) (b : Block) : ℕ → Option Block :=
  if q = NULL ∧ 0 < size then live else gain (lose live p) q (b.resize size)

namespace Package

inductive Step (P : Package) : Op → World → World → Prop
  | malloc {w : World} {size p : ℕ} {s : Heap} (hsize : size ≤ MAX_HEAP)
      (h : P.mmMalloc size w.heap = some (p, s)) :
      Step P (.malloc size) w ⟨s, gain w.live p (.fresh size)⟩
  | free {w : World} {p : ℕ} {b : Block} {s : Heap} (hp : w.live p = some b)
      (h : P.mmFree p w.heap = some ((), s)) : Step P (.free p) w ⟨s, lose w.live p⟩
  | realloc {w : World} {p size q : ℕ} {b : Block} {s : Heap} (hp : w.live p = some b)
      (hsize : size ≤ MAX_HEAP) (h : P.mmRealloc p size w.heap = some (q, s)) :
      Step P (.realloc p size) w ⟨s, reallocated w.live p size q b⟩
  | reallocNull {w : World} {size q : ℕ} {s : Heap} (hsize : size ≤ MAX_HEAP)
      (h : P.mmRealloc NULL size w.heap = some (q, s)) :
      Step P (.realloc NULL size) w ⟨s, gain w.live q (.fresh size)⟩
  | write {w : World} {p i : ℕ} {b : Block} {v : UInt8} (hp : w.live p = some b) (hi : i < b.size) :
      Step P (.write p i v) w
        ⟨{ w.heap with mem := Function.update w.heap.mem (p + i) v },
          Function.update w.live p (some (b.write i v))⟩

def Start (P : Package) (base : ℕ) (w : World) : Prop :=
  w.live = (fun _ ↦ none) ∧ ∃ s, P.mmInit (memInit s base) = some (0, w.heap)

abbrev ReachableWorld (P : Package) (base : ℕ) : World → Prop :=
  Reachable (P.Start base) fun w w' ↦ ∃ op, P.Step op w w'

end Package

/-- The package `P` implements a store of blocks: `R` holds of the heaps that show the blocks the
client holds, and each call does to them what the client expects. A request of `size` bytes takes
at most `cost size` bytes of new heap. -/
structure Provides (P : Package) (base : ℕ) (cost : ℕ → ℕ) (R : World → Prop) : Prop where
  placed : ∀ {w}, R w → w.heap.memStartBrk = base ∧ w.heap.memMaxAddr = base + MAX_HEAP ∧
    w.heap.memBrk ≤ base + MAX_HEAP
  isolated : ∀ {w}, R w → Isolated w
  init : ∀ {s : Heap}, s.memStartBrk = base → s.memBrk = base →
    s.memMaxAddr = base + MAX_HEAP →
    wp P.mmInit (fun r s' ↦ r = 0 ∧ R ⟨s', fun _ ↦ none⟩ ∧ s'.memBrk = base) s
  malloc : ∀ {w size p s}, R w → 0 < size → size ≤ MAX_HEAP →
    P.mmMalloc size w.heap = some (p, s) →
    w.live p = none ∧ R ⟨s, gain w.live p (.fresh size)⟩ ∧
      w.heap.memBrk ≤ s.memBrk ∧ s.memBrk ≤ w.heap.memBrk + cost size
  free : ∀ {w p b}, R w → w.live p = some b → 0 < b.size →
    wp (P.mmFree p) (fun _ s ↦ R ⟨s, lose w.live p⟩ ∧ s.memBrk = w.heap.memBrk) w.heap
  realloc : ∀ {w p b size q s}, R w → w.live p = some b → 0 < b.size → 0 < size →
    size ≤ MAX_HEAP → P.mmRealloc p size w.heap = some (q, s) →
    w.live q = none ∧ R ⟨s, reallocated w.live p size q b⟩ ∧
      w.heap.memBrk ≤ s.memBrk ∧ s.memBrk ≤ w.heap.memBrk + cost size
  write : ∀ {w p b i} (v : UInt8), R w → w.live p = some b → i < b.size →
    R ⟨{ w.heap with mem := Function.update w.heap.mem (p + i) v },
      Function.update w.live p (some (b.write i v))⟩
  mallocRoom : ∀ {w size}, R w → 0 < size → size ≤ MAX_HEAP →
    w.heap.memBrk + cost size ≤ base + MAX_HEAP →
    wp (P.mmMalloc size) (fun p _ ↦ p ≠ NULL) w.heap
  reallocRoom : ∀ {w p b size}, R w → w.live p = some b → 0 < b.size → 0 < size →
    size ≤ MAX_HEAP → w.heap.memBrk + cost size ≤ base + MAX_HEAP →
    wp (P.mmRealloc p size) (fun q _ ↦ q ≠ NULL) w.heap

def mm : Package := ⟨mmInit, mmMalloc, mmFree, mmRealloc⟩

variable {base size p q : ℕ} {w : World} {b : Block} {s s' : Heap} {A F : List Extent}

/-- A reallocation is an allocation, a copy and a free, and only the first moves the break. -/
theorem mmRealloc_memBrk (hn : 0 < size) (h : mmRealloc p size s = some (q, s')) :
    ∃ s₁, mmMalloc size s = some (q, s₁) ∧ s'.memBrk = s₁.memBrk := by
  have hw : wp (mmRealloc p size) (fun q' t ↦ q' = q ∧ t = s') s := ⟨q, s', h, rfl, rfl⟩
  rw [Malloc.mmRealloc, wp_ite, if_pos hn, wp_bind] at hw
  obtain ⟨q₁, s₁, hm, hw⟩ := hw
  rw [wp_bind] at hw
  obtain ⟨_, s₂, hcopy, hw⟩ := hw
  have hbrk₂ : s₂.memBrk = s₁.memBrk := by
    have hu : Within SameBounds (onlyIf (p ≠ NULL) do
        let h := payloadToHeader p
        let copySize := ((← getChunkSize h) + (2 ^ 64 - headerSize)) % 2 ^ 64
        memcpy q₁ p (if size < copySize then size else copySize)) :=
      .onlyIf (.bind (sameBounds_getChunkSize _) fun _ ↦ sameBounds_memcpy _ _ _)
    exact (hu _ _ _ hcopy).memBrk
  rw [wp_bind, wp_pure, wp_bind] at hw
  obtain ⟨_, s₃, hfree, hw⟩ := hw
  have hbrk₃ : s₃.memBrk = s₂.memBrk :=
    (Within.onlyIf (sameBounds_mmFree p) _ _ _ hfree).memBrk
  obtain ⟨rfl, rfl⟩ := wp_pure.mp hw
  exact ⟨s₁, hm, hbrk₃.trans hbrk₂⟩

theorem not_outOfMemory_of_returns (htop : s.memMaxAddr < 2 ^ 64) (hn : 0 < size)
    (h : mmMalloc size s = some (p, s')) : ¬ OutOfMemory s size := by
  intro hoom
  rw [mmMalloc_outOfMemory htop hn hoom] at h
  cases h

theorem not_outOfMemory_of_room (hn' : size ≤ MAX_HEAP) (htop : s.memMaxAddr < 2 ^ 64)
    (hroom : s.memBrk + chunkFor size ≤ s.memMaxAddr) : ¬ OutOfMemory s size := by
  rintro ⟨-, h⟩
  have hw := (wp_of_eq (Q := fun p _ ↦ p = sbrkError) h).mpr rfl
  rw [getNewsize_eq hn', wp_memSbrk, if_neg (by omega)] at hw
  unfold sbrkError at hw
  unfold chunkFor at hroom
  omega

theorem Inv.mmMalloc_memBrk (I : Inv s A F) (hn : 0 < size) (hn' : size ≤ MAX_HEAP)
    (h : Malloc.mmMalloc size s = some (p, s')) :
    s.memBrk ≤ s'.memBrk ∧ s'.memBrk ≤ s.memBrk + chunkFor size := by
  have hmem := not_outOfMemory_of_returns I.top hn h
  rcases (I.mmMalloc_placed hn hn' hmem).result h with ⟨-, hg⟩ | ⟨i, -, -, hp⟩
  · rw [hg.memBrk]
    exact ⟨Nat.le_add_right _ _, le_rfl⟩
  · obtain ⟨_, _, _, -, -, -, -, hbrk⟩ := hp
    rw [hbrk]
    exact ⟨le_rfl, Nat.le_add_right _ _⟩

namespace Coherent

theorem malloc_fresh (C : Coherent base w A F) (hn : 0 < size) (hn' : size ≤ MAX_HEAP)
    (h : mmMalloc size w.heap = some (p, s)) : p ≠ NULL ∧ w.live p = none := by
  have hmem := not_outOfMemory_of_returns C.inv.top hn h
  obtain ⟨c, F', rfl, -, I, -⟩ := (C.inv.mmMalloc hn hn' hmem).result h
  constructor
  · unfold headerSize NULL
    omega
  · by_contra hne
    obtain ⟨b, hb⟩ := Option.ne_none_iff_exists'.mp hne
    obtain ⟨d, hd, he⟩ := (C.blocks.live_iff _).mp ⟨b, hb⟩
    exact I.addr_ne d hd (by omega)

theorem realloc_fresh (C : Coherent base w A F) (hn : 0 < size) (hn' : size ≤ MAX_HEAP)
    (h : mmRealloc p size w.heap = some (q, s)) : q ≠ NULL ∧ w.live q = none := by
  obtain ⟨s₁, hm, -⟩ := mmRealloc_memBrk hn h
  exact C.malloc_fresh hn hn' hm

theorem realloc_memBrk (C : Coherent base w A F) (hn : 0 < size) (hn' : size ≤ MAX_HEAP)
    (h : mmRealloc p size w.heap = some (q, s)) :
    w.heap.memBrk ≤ s.memBrk ∧ s.memBrk ≤ w.heap.memBrk + chunkFor size := by
  obtain ⟨s₁, hm, hbrk⟩ := mmRealloc_memBrk hn h
  rw [hbrk]
  exact C.inv.mmMalloc_memBrk hn hn' hm

theorem not_outOfMemory (C : Coherent base w A F) (hn' : size ≤ MAX_HEAP)
    (hroom : w.heap.memBrk + chunkFor size ≤ base + MAX_HEAP) : ¬ OutOfMemory w.heap size :=
  not_outOfMemory_of_room hn' C.inv.top (by rw [C.max]; exact hroom)

end Coherent

/-- mm.c implements the store of blocks; a request costs at most the chunk it asks for. -/
theorem mm_provides (hb : Base base) :
    Provides mm base chunkFor fun w ↦ ∃ A F, Coherent base w A F where
  placed := by
    intro w ⟨A, F, C⟩
    exact ⟨C.start, C.max, C.max ▸ C.inv.brk_le⟩
  isolated := by
    intro w ⟨A, F, C⟩
    exact C.isolated
  init := by
    intro s hstart hbrk hmax
    have hs : memInit s base = s := by
      rw [memInit, ← hmax]
      cases s
      simp only at hstart hbrk
      rw [hstart, hbrk]
    have hinit : mmInit s = some (0, { s with
      globalFreeList := NULL, globalAllocatedListHead := NULL }) := rfl
    refine (wp_of_eq hinit).mpr ⟨rfl, ⟨[], [], Start.coherent hb ⟨rfl, s, ?_⟩⟩, hbrk⟩
    rw [hs]
    exact hinit
  malloc := by
    intro w size p s ⟨A, F, C⟩ hn hn' h
    exact ⟨(C.malloc_fresh hn hn' h).2, (C.mallocStep hn' h).1, C.inv.mmMalloc_memBrk hn hn' h⟩
  free := by
    intro w p b ⟨A, F, C⟩ hp _
    obtain ⟨w', hstep⟩ := C.callsReturn.free p b hp
    cases hstep with
    | free _ h =>
      obtain ⟨⟨A', F', C', hbrk, -⟩, -⟩ := C.freeStep hp h
      exact (wp_of_eq h).mpr ⟨⟨A', F', C'⟩, hbrk⟩
  realloc := by
    intro w p b size q s ⟨A, F, C⟩ hp _ hn hn' h
    obtain ⟨hq, hfresh⟩ := C.realloc_fresh hn hn' h
    have hlive : reallocated w.live p size q b = gain (lose w.live p) q (b.resize size) :=
      if_neg fun hnull ↦ hq hnull.1
    rw [hlive]
    exact ⟨hfresh, (C.reallocStep hp hn' h).1, C.realloc_memBrk hn hn' h⟩
  write := by
    intro w p b i v ⟨A, F, C⟩ hp hi
    exact ⟨A, F, (C.writeStep v hp hi).1⟩
  mallocRoom := by
    intro w size ⟨A, F, C⟩ hn hn' hroom
    obtain ⟨p, s, h⟩ := C.malloc_returns hn' (C.not_outOfMemory hn' hroom)
    exact (wp_of_eq h).mpr (C.malloc_fresh hn hn' h).1
  reallocRoom := by
    intro w p b size ⟨A, F, C⟩ hp _ hn hn' hroom
    obtain ⟨q, s, h, -⟩ := C.moved hp hn hn' (C.not_outOfMemory hn' hroom)
    exact (wp_of_eq h).mpr (C.realloc_fresh hn hn' h).1

end CsoLabs.Malloc
