import CsoLabs.Malloc.Coalescing
import CsoLabs.Malloc.OutOfMemory

namespace CsoLabs.Malloc

open Foundation Extent

def FitsWhole (n : ℕ) (c : Extent) : Prop := n ≤ c.size ∧ c.size < n + MIN_GUARD.toNat

def FitsSplit (n : ℕ) (c : Extent) : Prop := n + MIN_GUARD.toNat ≤ c.size

/-- How a request of `size` bytes, `n` with its header, is served from the free chunks `F`,
which are in ascending order. -/
structure PlacementPolicy (size n : ℕ) (s : Heap) (A F : List Extent) : Prop where
  ascending : F.Pairwise fun c d ↦ c.addr < d.addr
  whole : (∃ c ∈ F, FitsWhole n c) →
    ∃ l c r s', F = l ++ c :: r ∧ FitsWhole n c ∧ (∀ d ∈ l, ¬ FitsWhole n d) ∧
      mmMalloc size s = some (c.addr + headerSize, s') ∧ s'.memBrk = s.memBrk ∧
      AllocatedList s' (c :: A) ∧ FreeList s' (l ++ r)
  split : (∀ d ∈ F, ¬ FitsWhole n d) → (∃ c ∈ F, FitsSplit n c) →
    ∃ l c r s', F = l ++ c :: r ∧ FitsSplit n c ∧ (∀ d ∈ l, ¬ FitsSplit n d) ∧
      mmMalloc size s = some (c.addr + headerSize, s') ∧ s'.memBrk = s.memBrk ∧
      AllocatedList s' (⟨c.addr, n⟩ :: A) ∧
      FreeList s' (l ++ ⟨c.addr + n, c.size - n⟩ :: r) ∧ MIN_GUARD.toNat ≤ c.size - n
  grow : (∀ d ∈ F, ¬ FitsWhole n d) → (∀ d ∈ F, ¬ FitsSplit n d) →
    (∀ d ∈ F, d.size < n) ∧ findMemory size s = some (NULL, s) ∧
      (memSbrk (getNewsize size) s ≠ some (sbrkError, s) →
        ∃ s', mmMalloc size s = some (s.memBrk + headerSize, s') ∧ s'.memBrk = s.memBrk + n ∧
          AllocatedList s' (⟨s.memBrk, n⟩ :: A) ∧ FreeList s' F)
  growsOnly : ∀ p s', mmMalloc size s = some (p, s') → s'.memBrk ≠ s.memBrk → ∀ d ∈ F, d.size < n

def BoundedWaste (live : ℕ → Option Block) (A : List Extent) : Prop :=
  ∀ c ∈ A, ∃ b, live (c.addr + headerSize) = some b ∧
    c.size < align b.size + headerSize + MIN_GUARD.toNat

variable {base size n p i : ℕ} {w w' : World} {s s' : Heap} {A A' F F' l r : List Extent}
  {c d : Extent} {live : ℕ → Option Block} {b : Block} {op : Op}

theorem suits_zero : Suits 0 n c ↔ FitsWhole n c := Iff.rfl

theorem suits_one (h : ¬ FitsWhole n c) : Suits 1 n c ↔ FitsSplit n c := by
  have hguard : MIN_GUARD.toNat = 1024 := rfl
  unfold FitsWhole at h
  rw [Suits, if_neg one_ne_zero, FitsSplit]
  unfold headerSize
  omega

theorem forall_suits (h₀ : ∀ d ∈ F, ¬ FitsWhole n d) (h₁ : ∀ d ∈ F, ¬ FitsSplit n d) :
    ∀ i < 2, ∀ d ∈ F, ¬ Suits i n d := by
  intro i hi d hd
  rcases Nat.lt_succ_iff_lt_or_eq.mp hi with hi | rfl
  · rw [Nat.lt_one_iff.mp hi, suits_zero]
    exact h₀ d hd
  · rw [suits_one (h₀ d hd)]
    exact h₁ d hd

theorem lt_of_unsuited (h₀ : ¬ Suits 0 n c) (h₁ : ¬ Suits 1 n c) : c.size < n := by
  rw [suits_zero] at h₀
  rw [suits_one h₀] at h₁
  unfold FitsWhole at h₀
  unfold FitsSplit at h₁
  omega

theorem Inv.mmMalloc_pass (I : Inv s A F) (hn : 0 < size) (hn' : size ≤ MAX_HEAP)
    (hi : i < 2) (hnone : ∀ j < i, ∀ d ∈ F, ¬ Suits j (chunkFor size) d) (hc : c ∈ F)
    (hsuits : Suits i (chunkFor size) c) : ∃ p s', Malloc.mmMalloc size s = some (p, s') ∧
      PassTakes i (chunkFor size) s A F p s' := by
  obtain ⟨p, s', hfind, hp⟩ := I.findMemory hn hn'
  rcases hp with ⟨-, -, hno⟩ | ⟨j, hj, hnone', hp⟩
  · exact absurd hsuits (hno i hi c hc)
  · have hcall := mmMalloc_of_find hn hfind hp.ne_null
    obtain rfl : i = j := by
      rcases lt_trichotomy i j with hij | hij | hij
      · exact absurd hsuits (hnone' i hij c hc)
      · exact hij
      · obtain ⟨l, e, r, rfl, he, -⟩ := hp
        exact absurd he (hnone j hij e (by simp))
    exact ⟨p, s', hcall, hp⟩

theorem Inv.placementPolicy (I : Inv s A F) (hn : 0 < size) (hn' : size ≤ MAX_HEAP) :
    PlacementPolicy size (chunkFor size) s A F where
  ascending := I.layout.separated.imp fun h ↦ (Nat.le_add_right _ _).trans_lt h
  whole := by
    rintro ⟨c, hcF, hc⟩
    obtain ⟨p, s', h, l, c, r, hF, hc, hl, ⟨rfl, I', -⟩, hbrk⟩ :=
      I.mmMalloc_pass hn hn' Nat.two_pos (by simp) hcF (suits_zero.mpr hc)
    exact ⟨l, c, r, s', hF, hc, hl, h, hbrk, I'.allocatedList, I'.freeList⟩
  split := by
    rintro hnone ⟨c, hcF, hc⟩
    obtain ⟨p, s', h, l, c, r, rfl, hc, hl, ⟨rfl, I', -⟩, hbrk⟩ :=
      I.mmMalloc_pass hn hn' Nat.one_lt_two
        (fun j hj d hd ↦ by rw [Nat.lt_one_iff.mp hj]; exact hnone d hd) hcF
        ((suits_one (hnone c hcF)).mpr hc)
    have hcs := (suits_one (hnone c (by simp))).mp hc
    refine ⟨l, c, r, s', rfl, hcs, fun d hd ↦ ?_, h, hbrk, I'.allocatedList, I'.freeList, ?_⟩
    · rw [← suits_one (hnone d (by simp [hd]))]
      exact hl d hd
    · unfold FitsSplit at hcs
      omega
  grow := by
    intro h₀ h₁
    have hnone := forall_suits h₀ h₁
    have hfind := I.findMemory_null hn hn' hnone
    refine ⟨fun d hd ↦ lt_of_unsuited (hnone 0 (by simp) d hd) (hnone 1 (by simp) d hd), hfind,
      fun hsbrk ↦ ?_⟩
    obtain ⟨p, s', h, hg, hbrk⟩ := I.grow hn hn' hfind hsbrk
    rw [hg.ptr] at h
    exact ⟨s', h, hbrk, hg.inv.allocatedList, hg.inv.freeList⟩
  growsOnly := by
    intro p s' h hbrk d hd
    have hmem : ¬ OutOfMemory s size := fun hoom ↦ by
      rw [mmMalloc_outOfMemory I.top hn hoom] at h
      cases h
    rcases (I.mmMalloc_placed hn hn' hmem).result h with ⟨hnone, -⟩ | ⟨i, -, -, hp⟩
    · exact lt_of_unsuited (hnone 0 (by simp) d hd) (hnone 1 (by simp) d hd)
    · obtain ⟨_, _, _, -, -, -, -, hbrk'⟩ := hp
      exact absurd hbrk' hbrk

def Snug (live : ℕ → Option Block) (A : List Extent) : Prop :=
  ∀ c ∈ A, ∀ b, live (c.addr + headerSize) = some b →
    c.size < chunkFor b.size + MIN_GUARD.toNat

namespace Snug

theorem gain (h : Snug live A) (hfit : c.size < chunkFor b.size + MIN_GUARD.toNat)
    (hne : ∀ d ∈ A, d.addr ≠ c.addr) : Snug (gain live (c.addr + headerSize) b) (c :: A) := by
  have hp : c.addr + headerSize ≠ NULL := by unfold headerSize NULL; omega
  rw [Malloc.gain, if_neg hp]
  intro d hd b' hb'
  rcases List.mem_cons.mp hd with rfl | hd
  · rw [Function.update_self, Option.some.injEq] at hb'
    exact hb' ▸ hfit
  · rw [Function.update_of_ne (by have := hne d hd; omega)] at hb'
    exact h d hd b' hb'

theorem lose (h : Snug live A) (hsub : ∀ c ∈ A', c ∈ A) : Snug (lose live p) A' := by
  intro d hd b' hb'
  by_cases hdp : d.addr + headerSize = p
  · rw [hdp, Malloc.lose, Function.update_self] at hb'
    cases hb'
  · rw [Malloc.lose, Function.update_of_ne hdp] at hb'
    exact h d (hsub d hd) b' hb'

theorem write (h : Snug live A) (v : UInt8) (hp : live p = some b) :
    Snug (Function.update live p (some (b.write i v))) A := by
  intro d hd b' hb'
  by_cases hdp : d.addr + headerSize = p
  · rw [hdp, Function.update_self, Option.some.injEq] at hb'
    subst hb'
    exact h d hd b (hdp ▸ hp)
  · rw [Function.update_of_ne hdp] at hb'
    exact h d hd b' hb'

theorem malloc (hS : Snug w.live A) (C : Coherent base w A F) (hsize : size ≤ MAX_HEAP)
    (h : mmMalloc size w.heap = some (p, s))
    (C' : Coherent base ⟨s, Malloc.gain w.live p (.fresh size)⟩ A' F') :
    Snug (Malloc.gain w.live p (.fresh size)) A' := by
  rcases Nat.eq_zero_or_pos size with rfl | hn
  · obtain ⟨rfl, rfl⟩ : NULL = p ∧ w.heap = s := by
      rw [mmMalloc_zero] at h
      simpa using h
    rw [C'.inv.allocatedList.unique C.inv.allocatedList]
    simpa [Malloc.gain] using hS
  · have hmem : ¬ OutOfMemory w.heap size := fun hoom ↦ by
      rw [mmMalloc_outOfMemory C.inv.top hn hoom] at h
      cases h
    obtain ⟨c, F₁, ⟨rfl, I, -⟩, -, hsnug⟩ := (C.inv.mmMalloc_snug hn hsize hmem).result h
    rw [C'.inv.allocatedList.unique I.allocatedList]
    exact hS.gain hsnug I.addr_ne

theorem free (hS : Snug w.live A) (C : Coherent base w A F) (hp : w.live p = some b)
    (h : mmFree p w.heap = some ((), s)) (C' : Coherent base ⟨s, Malloc.lose w.live p⟩ A' F') :
    Snug (Malloc.lose w.live p) A' := by
  obtain ⟨A₁, F₁, C₁, -, hsub⟩ := (C.freeStep hp h).1
  rw [C'.inv.allocatedList.unique C₁.inv.allocatedList]
  exact hS.lose fun c hc ↦ ((hsub c).mp hc).1

theorem realloc {q : ℕ} (hS : Snug w.live A) (C : Coherent base w A F) (hp : w.live p = some b)
    (hsize : size ≤ MAX_HEAP) (h : mmRealloc p size w.heap = some (q, s))
    (C' : Coherent base ⟨s, Malloc.gain (Malloc.lose w.live p) q (b.resize size)⟩ A' F') :
    Snug (Malloc.gain (Malloc.lose w.live p) q (b.resize size)) A' := by
  obtain ⟨l, c, r, rfl, rfl, hbc⟩ := C.blocks.chunk hp
  rcases Nat.eq_zero_or_pos size with rfl | hn
  · have hp0 : c.addr + headerSize ≠ NULL := by unfold headerSize NULL; omega
    obtain ⟨⟨⟩, s', hfree, hres⟩ := (wp_mmRealloc_zero hp0 (Q := fun q' s' ↦ q' = q ∧ s' = s)).mp
      ⟨q, s, h, rfl, rfl⟩
    obtain ⟨rfl, rfl⟩ := hres
    exact hS.free C hp hfree C'
  · have hmem : ¬ OutOfMemory w.heap size := fun hoom ↦ by
      rw [mmRealloc_outOfMemory C.inv.top hn hoom] at h
      cases h
    obtain ⟨d, F₁, rfl, -, I, -, -, -, -, hsnug⟩ := (C.inv.mmRealloc hn hsize hmem).result h
    rw [C'.inv.allocatedList.unique I.allocatedList]
    exact (hS.lose fun e he ↦ mem_middle he).gain hsnug I.addr_ne

theorem step (hS : Snug w.live A) (C : Coherent base w A F) (h : Step op w w')
    (C' : Coherent base w' A' F') : Snug w'.live A' := by
  cases h with
  | malloc hsize h => exact hS.malloc C hsize h C'
  | free hp h => exact hS.free C hp h C'
  | realloc hp hsize h => exact hS.realloc C hp hsize h C'
  | @reallocNull _ size q s hsize h =>
    rcases Nat.eq_zero_or_pos size with rfl | hn
    · obtain ⟨rfl, rfl⟩ : NULL = q ∧ w.heap = s := by
        rw [mmRealloc_null_zero] at h
        simpa using h
      exact hS.malloc C hsize (mmMalloc_zero _) C'
    · rw [mmRealloc_null hn] at h
      exact hS.malloc C hsize h C'
  | write hp hi =>
    rw [C'.inv.allocatedList.unique (C.writeStep _ hp hi).1.inv.allocatedList]
    exact hS.write _ hp

theorem boundedWaste (hS : Snug w.live A) (C : Coherent base w A F) :
    BoundedWaste w.live A := by
  intro c hc
  obtain ⟨b, hb⟩ := (C.blocks.live_iff _).mpr ⟨c, hc, rfl⟩
  have hsnug := hS c hc b hb
  have hfit := C.blocks.fits c hc b hb
  have hstop := C.inv.stop_lt (.inl hc)
  rw [chunkFor_eq (by unfold stop headerSize at *; omega)] at hsnug
  exact ⟨b, hb, hsnug⟩

end Snug

theorem ReachableWorld.snug (hb : Base base) (hw : ReachableWorld base w) :
    ∃ A F, Coherent base w A F ∧ Snug w.live A := by
  refine Reachable.invariant (I := fun w ↦ ∃ A F, Coherent base w A F ∧ Snug w.live A) hw
    (fun w h ↦ ⟨[], [], h.coherent hb, fun c hc ↦ absurd hc List.not_mem_nil⟩) ?_
  rintro w w' ⟨A, F, C, hS⟩ ⟨op, h⟩
  obtain ⟨⟨A', F', C'⟩, -⟩ := C.step h
  exact ⟨A', F', C', hS.step C h C'⟩

/-- Where `mm_malloc` puts a block, and how much an allocated chunk can waste. -/
theorem placement_policy (hb : Base base) (hw : ReachableWorld base w) :
    ∃ A F, AllocatedList w.heap A ∧ FreeList w.heap F ∧ BoundedWaste w.live A ∧
      ∀ size, 0 < size → size ≤ MAX_HEAP →
        PlacementPolicy size (align size + headerSize) w.heap A F := by
  obtain ⟨A, F, C, hS⟩ := hw.snug hb
  refine ⟨A, F, C.inv.allocatedList, C.inv.freeList, hS.boundedWaste C, fun size hn hn' ↦ ?_⟩
  rw [← chunkFor_eq (by unfold MAX_HEAP at hn'; omega)]
  exact C.inv.placementPolicy hn hn'

theorem placement_policy_freedSecond : ∃ w : World, w.live 4128 = some (.fresh 24) ∧
    w.heap.globalFreeList = 4160 ∧
    ∃ A F, AllocatedList w.heap A ∧ FreeList w.heap F ∧ BoundedWaste w.live A ∧
      ∀ size, 0 < size → size ≤ MAX_HEAP →
        PlacementPolicy size (align size + headerSize) w.heap A F := by
  obtain ⟨w, hw, -, hp, hfree⟩ := reachable_freedSecond
  exact ⟨w, hp, hfree, placement_policy base_4096 hw⟩

end CsoLabs.Malloc
