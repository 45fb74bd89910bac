import CsoLabs.Malloc.Runs

namespace CsoLabs.Malloc

open Foundation Extent

structure WellFormed (s : Heap) (alloc free : List ℕ) : Prop where
  allocated : Linked s.hdr s.globalAllocatedListHead alloc
  freed : Linked s.hdr s.globalFreeList free
  headPrev : ∀ x, x = s.globalAllocatedListHead ∨ x = s.globalFreeList → x ≠ NULL →
    (s.hdr x).prev = NULL
  nextPrev : ∀ x, x ∈ alloc ∨ x ∈ free → (s.hdr x).next ≠ NULL → (s.hdr (s.hdr x).next).prev = x
  disjoint : ∀ x ∈ alloc, x ∉ free
  status : ∀ x, x ∈ alloc ∨ x ∈ free → ((s.hdr x).status ≠ 0 ↔ x ∈ alloc)
  ascending : free.Pairwise (· < ·)
  sizes : ∀ x, x ∈ alloc ∨ x ∈ free → 16 ∣ (s.hdr x).size ∧ 48 ≤ (s.hdr x).size
  noGap : ∀ b, s.memStartBrk ≤ b ∧ b < s.memBrk ↔
    ∃ x, (x ∈ alloc ∨ x ∈ free) ∧ x ≤ b ∧ b < x + (s.hdr x).size
  noOverlap : ∀ x y, x ∈ alloc ∨ x ∈ free → y ∈ alloc ∨ y ∈ free → x ≠ y →
    x + (s.hdr x).size ≤ y ∨ y + (s.hdr y).size ≤ x

structure CallsReturn (w : World) : Prop where
  malloc : ∀ size ≤ MAX_HEAP, ¬ OutOfMemory w.heap size → ∃ w', Step (.malloc size) w w'
  free : ∀ p b, w.live p = some b → ∃ w', Step (.free p) w w'
  realloc : ∀ p b, w.live p = some b → ∀ size ≤ MAX_HEAP, ¬ OutOfMemory w.heap size →
    ∃ w', Step (.realloc p size) w w'
  reallocNull : ∀ size ≤ MAX_HEAP, ¬ OutOfMemory w.heap size →
    ∃ w', Step (.realloc NULL size) w w'

variable {base size x : ℕ} {w : World} {s : Heap} {A F : List Extent}

theorem Inv.size_eq (I : Inv s A F) {c : Extent} (hc : c ∈ A ∨ c ∈ F) :
    (s.hdr c.addr).size = c.size :=
  hc.elim (fun h ↦ (I.rep.alloc c h).1) fun h ↦ (I.rep.free c h).1

theorem mem_addrs : x ∈ A.map addr ∨ x ∈ F.map addr ↔ ∃ c, (c ∈ A ∨ c ∈ F) ∧ c.addr = x := by
  simp only [List.mem_map]
  constructor
  · rintro (⟨c, hc, rfl⟩ | ⟨c, hc, rfl⟩)
    · exact ⟨c, .inl hc, rfl⟩
    · exact ⟨c, .inr hc, rfl⟩
  · rintro ⟨c, hc | hc, rfl⟩
    · exact .inl ⟨c, hc, rfl⟩
    · exact .inr ⟨c, hc, rfl⟩

theorem Inv.wellFormed (I : Inv s A F) : WellFormed s (A.map addr) (F.map addr) where
  allocated := I.rep.lists.alloc
  freed := I.rep.lists.free
  headPrev := by
    rintro x (rfl | rfl) hx
    · exact I.rep.lists.alloc.prev_head hx
    · exact I.rep.lists.free.prev_head hx
  nextPrev := by
    rintro x (hx | hx) hn
    · exact I.rep.lists.alloc.prev_next hx hn
    · exact I.rep.lists.free.prev_next hx hn
  disjoint := I.rep.lists.disj
  status := by
    rintro x (hx | hx) <;> obtain ⟨c, hc, rfl⟩ := List.mem_map.mp hx
    · simp only [(I.rep.alloc c hc).2, hx, iff_true]
      decide
    · have : c.addr ∉ A.map addr := fun h ↦ I.rep.lists.disj _ h hx
      simp only [(I.rep.free c hc).2, this, iff_false]
      decide
  ascending := by
    refine List.pairwise_map.mpr (List.Pairwise.imp (fun h ↦ ?_) I.layout.separated)
    unfold stop at h
    omega
  sizes := by
    intro x hx
    obtain ⟨c, hc, rfl⟩ := mem_addrs.mp hx
    rw [I.size_eq hc]
    exact (I.layout.wellSized c hc).2
  noGap := by
    intro b
    rw [I.layout.tile]
    constructor
    · rintro (⟨c, hc, hb⟩ | ⟨c, hc, hb⟩)
      · exact ⟨c.addr, mem_addrs.mpr ⟨c, .inl hc, rfl⟩, by rwa [I.size_eq (.inl hc)]⟩
      · exact ⟨c.addr, mem_addrs.mpr ⟨c, .inr hc, rfl⟩, by rwa [I.size_eq (.inr hc)]⟩
    · rintro ⟨x, hx, hb⟩
      obtain ⟨c, hc, rfl⟩ := mem_addrs.mp hx
      rw [I.size_eq hc] at hb
      exact hc.imp (fun h ↦ ⟨c, h, hb⟩) fun h ↦ ⟨c, h, hb⟩
  noOverlap := by
    intro x y hx hy hne
    obtain ⟨c, hc, rfl⟩ := mem_addrs.mp hx
    obtain ⟨d, hd, rfl⟩ := mem_addrs.mp hy
    rw [I.size_eq hc, I.size_eq hd]
    exact I.layout.addr_apart hc hd hne

theorem Coherent.malloc_returns (C : Coherent base w A F) (hsize : size ≤ MAX_HEAP)
    (hmem : ¬ OutOfMemory w.heap size) : ∃ p s', mmMalloc size w.heap = some (p, s') := by
  rcases Nat.eq_zero_or_pos size with rfl | hn
  · exact ⟨_, _, mmMalloc_zero _⟩
  · obtain ⟨p, s', h, -⟩ := C.inv.mmMalloc hn hsize hmem
    exact ⟨p, s', h⟩

theorem Coherent.callsReturn (C : Coherent base w A F) : CallsReturn w where
  malloc size hsize hmem := by
    obtain ⟨p, s', h⟩ := C.malloc_returns hsize hmem
    exact ⟨_, .malloc hsize h⟩
  free p b hp := by
    obtain ⟨l, c, r, rfl, rfl, -⟩ := C.blocks.chunk hp
    obtain ⟨⟨⟩, s', h, -⟩ := C.inv.mmFree
    exact ⟨_, .free hp h⟩
  realloc p b hp size hsize hmem := by
    obtain ⟨l, c, r, rfl, rfl, -⟩ := C.blocks.chunk hp
    rcases Nat.eq_zero_or_pos size with rfl | hn
    · have hp0 : c.addr + headerSize ≠ NULL := by unfold headerSize NULL; omega
      obtain ⟨q, s', h, -⟩ := (wp_mmRealloc_zero hp0 (Q := fun _ _ ↦ True)).mpr
        (C.inv.mmFree.mono fun _ _ _ ↦ trivial)
      exact ⟨_, .realloc hp hsize h⟩
    · obtain ⟨q, s', h, -⟩ := C.inv.mmRealloc hn hsize hmem
      exact ⟨_, .realloc hp hsize h⟩
  reallocNull size hsize hmem := by
    rcases Nat.eq_zero_or_pos size with rfl | hn
    · exact ⟨_, .reallocNull hsize (mmRealloc_null_zero _)⟩
    · obtain ⟨p, s', h⟩ := C.malloc_returns hsize hmem
      exact ⟨_, .reallocNull hsize ((mmRealloc_null hn _).trans h)⟩

/-- Between calls the heap is well formed, and a call fails only when memory runs out. -/
theorem heap_invariant (hb : Base base) (hw : ReachableWorld base w) :
    (∃ alloc free, WellFormed w.heap alloc free) ∧ CallsReturn w := by
  obtain ⟨A, F, C⟩ := hw.coherent hb
  exact ⟨⟨_, _, C.inv.wellFormed⟩, C.callsReturn⟩

def emptyWorld : World := ⟨⟨fun _ ↦ 0, 4096, 4096, 4096 + MAX_HEAP, NULL, NULL⟩, fun _ ↦ none⟩

theorem base_4096 : Base 4096 := ⟨by decide, by decide, by decide⟩

theorem reachable_emptyWorld : ReachableWorld 4096 emptyWorld :=
  .start ⟨rfl, emptyWorld.heap, rfl⟩

theorem not_outOfMemory_emptyWorld : ¬ OutOfMemory emptyWorld.heap 24 := by
  rintro ⟨-, h⟩
  have hn : getNewsize 24 = 64 := getNewsize_eq (by decide)
  rw [hn] at h
  have := (wp_of_eq (Q := fun p _ ↦ p = sbrkError) h).mpr rfl
  rw [wp_memSbrk, if_neg (by decide)] at this
  exact absurd this (by decide)

theorem malloc_24 : ∃ w p, Step (.malloc 24) emptyWorld w ∧ w.live p = some (.fresh 24) := by
  obtain ⟨A, F, C⟩ := reachable_emptyWorld.coherent base_4096
  obtain ⟨p, s, h, c, F', rfl, -⟩ := C.inv.mmMalloc (by decide) (by decide) not_outOfMemory_emptyWorld
  refine ⟨_, c.addr + headerSize, .malloc (by decide) h, ?_⟩
  have hp : c.addr + headerSize ≠ NULL := by unfold headerSize NULL; omega
  simp [gain, hp]

def freedSecond : Alloc Unit := do
  let _ ← mmMalloc 24
  let q ← mmMalloc 24
  mmFree q

theorem reachable_freedSecond :
    ∃ w, ReachableWorld 4096 w ∧ freedSecond emptyWorld.heap = some ((), w.heap) ∧
      w.live 4128 = some (.fresh 24) ∧ w.heap.globalFreeList = 4160 := by
  have hsome : (freedSecond emptyWorld.heap).isSome := by decide +kernel
  obtain ⟨⟨⟨⟩, s⟩, hrun⟩ := Option.isSome_iff_exists.mp hsome
  obtain ⟨p, s₁, h₁, q, s₂, h₂, hfree⟩ : ∃ p s₁, mmMalloc 24 emptyWorld.heap = some (p, s₁) ∧
      ∃ q s₂, mmMalloc 24 s₁ = some (q, s₂) ∧ mmFree q s₂ = some ((), s) := by
    have hw := (wp_of_eq (Q := fun _ s' ↦ s' = s) hrun).mpr rfl
    simp only [freedSecond, wp_bind] at hw
    obtain ⟨p, s₁, h₁, q, s₂, h₂, ⟨⟩, s', hfree, rfl⟩ := hw
    exact ⟨p, s₁, h₁, q, s₂, h₂, hfree⟩
  have hw₁ := Reachable.next reachable_emptyWorld ⟨_, Step.malloc (by decide) h₁⟩
  have hw₂ := Reachable.next hw₁ ⟨_, Step.malloc (by decide) h₂⟩
  have hp : p = 4128 := by
    have hfst : (mmMalloc 24 emptyWorld.heap).map Prod.fst = some 4128 := by decide +kernel
    rw [h₁] at hfst
    exact Option.some_inj.mp hfst
  have hq : q = 4192 := by
    have hfst : ((mmMalloc 24 >>= fun _ ↦ mmMalloc 24) emptyWorld.heap).map Prod.fst = some 4192 := by
      decide +kernel
    have hbind : (mmMalloc 24 >>= fun _ ↦ mmMalloc 24) emptyWorld.heap = some (q, s₂) := by
      simp only [bind, StateT.bind, h₁, Option.bind_some, h₂]
    rw [hbind, Option.map_some, Option.some_inj] at hfst
    exact hfst
  have hlist : s.globalFreeList = 4160 := by
    have hrest : (freedSecond emptyWorld.heap).map (fun r ↦ r.2.globalFreeList) = some 4160 := by
      decide +kernel
    rw [hrun] at hrest
    exact Option.some_inj.mp hrest
  obtain rfl := hp
  obtain rfl := hq
  exact ⟨_, .next hw₂ ⟨_, Step.free (b := .fresh 24) (by simp [gain, NULL]) hfree⟩, hrun,
    by simp [gain, lose, NULL], hlist⟩

theorem heap_invariant_freedSecond : ∃ w, w.live 4128 = some (.fresh 24) ∧
    w.heap.globalFreeList = 4160 ∧ (∃ alloc free, WellFormed w.heap alloc free) ∧ CallsReturn w := by
  obtain ⟨w, hw, -, hp, hfree⟩ := reachable_freedSecond
  exact ⟨w, hp, hfree, heap_invariant base_4096 hw⟩

end CsoLabs.Malloc
