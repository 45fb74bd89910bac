import CsoLabs.Malloc.HeapInvariant

namespace CsoLabs.Malloc

open Foundation Extent

def AllocatedList (s : Heap) (A : List Extent) : Prop :=
  Linked s.hdr s.globalAllocatedListHead (A.map addr) ∧ ∀ c ∈ A, (s.hdr c.addr).size = c.size

def FreeList (s : Heap) (F : List Extent) : Prop :=
  Linked s.hdr s.globalFreeList (F.map addr) ∧ ∀ c ∈ F, (s.hdr c.addr).size = c.size

inductive Frees : List ℕ → World → World → Prop
  | nil {w : World} : Frees [] w w
  | cons {p : ℕ} {ps : List ℕ} {w w' w'' : World} (h : Step (.free p) w w')
      (hs : Frees ps w' w'') : Frees (p :: ps) w w''

variable {base : ℕ} {w w' w₁ w₂ : World} {s : Heap} {A A' F F' A₁ A₂ : List Extent} {ps qs : List ℕ}

theorem eq_of_addr_eq {xs ys : List Extent} (h : ℕ → Hdr) (ha : xs.map addr = ys.map addr)
    (hx : ∀ c ∈ xs, (h c.addr).size = c.size) (hy : ∀ c ∈ ys, (h c.addr).size = c.size) :
    xs = ys := by
  induction xs generalizing ys with
  | nil => simpa using ha.symm
  | cons c xs ih =>
    cases ys with
    | nil => simp at ha
    | cons d ys =>
      rw [List.map_cons, List.map_cons, List.cons.injEq] at ha
      have hc := hx c (by simp)
      have hd := hy d (by simp)
      rw [ih ha.2 (fun e he ↦ hx e (by simp [he])) fun e he ↦ hy e (by simp [he]),
        Extent.ext ha.1 (by rw [← hc, ← hd, ha.1])]

theorem FreeList.unique (h : FreeList s F) (h' : FreeList s F') : F = F' :=
  eq_of_addr_eq s.hdr (h.1.unique h'.1) h.2 h'.2

theorem AllocatedList.unique (h : AllocatedList s A) (h' : AllocatedList s A') : A = A' :=
  eq_of_addr_eq s.hdr (h.1.unique h'.1) h.2 h'.2

theorem Inv.freeList (I : Inv s A F) : FreeList s F :=
  ⟨I.rep.lists.free, fun c hc ↦ (I.rep.free c hc).1⟩

theorem Inv.allocatedList (I : Inv s A F) : AllocatedList s A :=
  ⟨I.rep.lists.alloc, fun c hc ↦ (I.rep.alloc c hc).1⟩

/-- The free extents are the maximal gaps that the allocated ones leave below the break. -/
theorem Layout.free_eq {lo hi : ℕ} (L : Layout A F lo hi) (L' : Layout A' F' lo hi)
    (hA : ∀ c, c ∈ A ↔ c ∈ A') : F = F' := by
  have hgap : ∀ {A F : List Extent}, Layout A F lo hi →
      ∀ b, Covered F b ↔ (lo ≤ b ∧ b < hi) ∧ ¬ Covered A b := by
    intro A F L b
    rw [L.tile]
    constructor
    · rintro ⟨d, hd, hdb⟩
      refine ⟨.inr ⟨d, hd, hdb⟩, fun ⟨c, hc, hcb⟩ ↦ ?_⟩
      exact (apart_iff (L.wellSized c (.inl hc)).pos (L.wellSized d (.inr hd)).pos).mp
        (L.cross c hc d hd) b ⟨hcb, hdb⟩
    · rintro ⟨h | h, hn⟩
      · exact absurd h hn
      · exact h
  refine L.separated.eq_of_covered L'.separated (fun c hc ↦ (L.wellSized c (.inr hc)).pos)
    (fun c hc ↦ (L'.wellSized c (.inr hc)).pos) fun b ↦ ?_
  rw [hgap L, hgap L']
  simp only [Covered, hA]

theorem Layout.free_of_nil {lo hi : ℕ} (L : Layout [] F lo hi) (h : lo < hi) :
    F = [⟨lo, hi - lo⟩] := by
  refine L.separated.eq_of_covered (List.pairwise_singleton _ _)
    (fun c hc ↦ (L.wellSized c (.inr hc)).pos) (by simpa using h) fun b ↦ ?_
  have := L.tile b
  simp only [covered_nil, false_or] at this
  rw [← this, covered_cons, Has, stop]
  simp only [covered_nil, or_false]
  omega

theorem Layout.ne_of_free {lo hi : ℕ} (L : Layout A F lo hi) {c d : Extent} (hc : c ∈ F)
    (hd : d ∈ F) : c.stop ≠ d.addr := by
  intro he
  have hpos := (L.wellSized c (.inr hc)).pos
  have hpos' := (L.wellSized d (.inr hd)).pos
  obtain ⟨l, r, rfl⟩ := List.append_of_mem hc
  have hsep := List.pairwise_append.mp L.separated
  rcases List.mem_append.mp hd with hd | hd
  · have := hsep.2.2 d hd c (by simp)
    unfold stop at *
    omega
  · rcases List.mem_cons.mp hd with rfl | hd
    · unfold stop at he
      omega
    · have := (List.pairwise_cons.mp hsep.2.1).1 d hd
      omega

theorem Coherent.frees (C : Coherent base w A F) (h : Frees ps w w') :
    ∃ A' F', Coherent base w' A' F' ∧ w'.heap.memBrk = w.heap.memBrk ∧
      ∀ c, c ∈ A' ↔ c ∈ A ∧ c.addr + headerSize ∉ ps := by
  induction h generalizing A F with
  | nil => exact ⟨A, F, C, rfl, by simp⟩
  | cons hstep _ ih =>
    cases hstep with
    | free hp hfree =>
      obtain ⟨A₁, F₁, C₁, hbrk, hA₁⟩ := (C.freeStep hp hfree).1
      obtain ⟨A₂, F₂, C₂, hbrk₂, hA₂⟩ := ih C₁
      refine ⟨A₂, F₂, C₂, hbrk₂.trans hbrk, fun c ↦ ?_⟩
      rw [hA₂, hA₁, List.mem_cons, not_or, and_assoc]

theorem Coherent.frees_exist (C : Coherent base w A F) (hd : ps.Nodup)
    (hps : ∀ p ∈ ps, ∃ b, w.live p = some b) : ∃ w', Frees ps w w' := by
  induction ps generalizing w A F with
  | nil => exact ⟨w, .nil⟩
  | cons p ps ih =>
    obtain ⟨hpn, hd⟩ := List.nodup_cons.mp hd
    obtain ⟨b, hp⟩ := hps p (by simp)
    obtain ⟨w₁, h₁⟩ := C.callsReturn.free p b hp
    obtain ⟨⟨A₁, F₁, C₁⟩, hs⟩ := C.step h₁
    obtain ⟨w₂, h₂⟩ := ih C₁ hd fun q hq ↦ by
      obtain ⟨b', hq'⟩ := hps q (by simp [hq])
      exact ⟨b', (hs q b' hq' fun he ↦ hpn (he ▸ hq)).1⟩
    exact ⟨w₂, .cons h₁ h₂⟩

def Canonical (w w' : World) : Prop :=
  ∀ A A' F F', AllocatedList w.heap A → AllocatedList w'.heap A' → (∀ c, c ∈ A ↔ c ∈ A') →
    w.heap.memBrk = w'.heap.memBrk → FreeList w.heap F → FreeList w'.heap F' → F = F'

def FreesCommute (w : World) : Prop :=
  ∀ ps, ps.Nodup → (∀ p ∈ ps, ∃ b, w.live p = some b) → (∃ w', Frees ps w w') ∧
    ∀ qs, qs.Perm ps → ∀ w₁ w₂ F₁ F₂, Frees ps w w₁ → Frees qs w w₂ →
      FreeList w₁.heap F₁ → FreeList w₂.heap F₂ → F₁ = F₂

theorem Coherent.canonical (C : Coherent base w A₁ F) (C' : Coherent base w' A₂ F') :
    Canonical w w' := by
  intro A A' E E' hA hA' hAA hbrk hE hE'
  obtain rfl := hA.unique C.inv.allocatedList
  obtain rfl := hA'.unique C'.inv.allocatedList
  obtain rfl := hE.unique C.inv.freeList
  obtain rfl := hE'.unique C'.inv.freeList
  have L := C.inv.layout
  have L' := C'.inv.layout
  rw [C.start, hbrk] at L
  rw [C'.start] at L'
  exact L.free_eq L' hAA

theorem Coherent.freesCommute (C : Coherent base w A F) : FreesCommute w := by
  intro ps hd hps
  refine ⟨C.frees_exist hd hps, fun qs hperm w₁ w₂ F₁ F₂ h₁ h₂ hF₁ hF₂ ↦ ?_⟩
  obtain ⟨A₁, E₁, C₁, hbrk₁, hA₁⟩ := C.frees h₁
  obtain ⟨A₂, E₂, C₂, hbrk₂, hA₂⟩ := C.frees h₂
  refine C₁.canonical C₂ A₁ A₂ F₁ F₂ C₁.inv.allocatedList C₂.inv.allocatedList (fun c ↦ ?_)
    (hbrk₁.trans hbrk₂.symm) hF₁ hF₂
  rw [hA₁, hA₂, hperm.mem_iff]

/-- Coalescing is complete and canonical. -/
theorem coalescing_canonical (hb : Base base) (hw : ReachableWorld base w) :
    (∃ F, FreeList w.heap F ∧ (∀ c ∈ F, ∀ d ∈ F, c.stop ≠ d.addr) ∧
      ((∀ p, w.live p = none) → w.heap.memStartBrk < w.heap.memBrk →
        F = [⟨w.heap.memStartBrk, w.heap.memBrk - w.heap.memStartBrk⟩])) ∧
    (∀ w', ReachableWorld base w' → Canonical w w') ∧ FreesCommute w := by
  obtain ⟨A, F, C⟩ := hw.coherent hb
  refine ⟨⟨F, C.inv.freeList, fun c hc d hd ↦ C.inv.layout.ne_of_free hc hd, fun hnone hlt ↦ ?_⟩,
    fun w' hw' ↦ ?_, C.freesCommute⟩
  · have hA : A = [] := List.eq_nil_iff_forall_not_mem.mpr fun c hc ↦ by
      obtain ⟨b, hlive⟩ := (C.blocks.live_iff (c.addr + headerSize)).mpr ⟨c, hc, rfl⟩
      rw [hnone] at hlive
      cases hlive
    have L := C.inv.layout
    rw [hA] at L
    exact L.free_of_nil hlt
  · obtain ⟨A', F', C'⟩ := hw'.coherent hb
    exact C.canonical C'

theorem coalescing_canonical_freedSecond : ∃ w, w.live 4128 = some (.fresh 24) ∧
    w.heap.globalFreeList = 4160 ∧
    (∃ F, FreeList w.heap F ∧ (∀ c ∈ F, ∀ d ∈ F, c.stop ≠ d.addr) ∧
      ((∀ p, w.live p = none) → w.heap.memStartBrk < w.heap.memBrk →
        F = [⟨w.heap.memStartBrk, w.heap.memBrk - w.heap.memStartBrk⟩])) ∧
    (∀ w', ReachableWorld 4096 w' → Canonical w w') ∧ FreesCommute w := by
  obtain ⟨w, hw, -, hp, hfree⟩ := reachable_freedSecond
  exact ⟨w, hp, hfree, coalescing_canonical base_4096 hw⟩

end CsoLabs.Malloc
