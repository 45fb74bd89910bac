import CsoLabs.Malloc.Coalescing

namespace CsoLabs.Malloc

open Foundation Extent

structure Totals where
  allocated : ℕ
  allocatedSz : ℕ
  free : ℕ
  freeSz : ℕ
  visited : List ℕ

def Totals.visit (t : Totals) (h size : ℕ) (status : Bool) : Totals :=
  if status then
    { t with
      allocated := (t.allocated + 1) % 2 ^ 64
      allocatedSz := (t.allocatedSz + size) % 2 ^ 64
      visited := t.visited ++ [h] }
  else
    { t with
      free := (t.free + 1) % 2 ^ 64
      freeSz := (t.freeSz + size) % 2 ^ 64
      visited := t.visited ++ [h] }

/-- The body of the `while` loop, up to the step to the next chunk. The argument of `my_assert`
is evaluated, though its result is not used. -/
def checkChunk (h : ℕ) (t : Totals) : Alloc Totals := do
  let _ ← getChunkSize h
  let next ← getNext h
  let _ ← getChunkSize next
  let status ← getChunkStatus h
  let size ← getChunkSize h
  pure (t.visit h size status)

/-- `mem_heap_hi` is one below the break. Running out of `fuel` stands for a walk that does not
end. -/
def checkLoop : ℕ → ℕ → Totals → Alloc Totals
  | 0, _, _ => failure
  | fuel + 1, h, t => do
    if h < (← get).memBrk - 1 then do
      let t ← checkChunk h t
      checkLoop fuel (headerToNextHeader h (← getChunkSize h)) t
    else pure t

def mmCheckheap (fuel : ℕ) : Alloc Totals := do
  checkLoop fuel (← get).memStartBrk ⟨0, 0, 0, 0, []⟩

def CheckerExact (s : Heap) : Prop :=
  ∃ A F fuel t, AllocatedList s A ∧ FreeList s F ∧ mmCheckheap fuel s = some (t, s) ∧
    t.visited.Pairwise (· < ·) ∧ t.visited.Perm ((A ++ F).map addr) ∧
    t.allocated = A.length ∧ t.allocatedSz = (A.map Extent.size).sum ∧
    t.free = F.length ∧ t.freeSz = (F.map Extent.size).sum

variable {base : ℕ} {w : World} {s : Heap} {A F : List Extent} {c d : Extent} {b : ℕ} {t : Totals}

theorem Layout.cover {lo hi : ℕ} (L : Layout A F lo hi) (hlo : lo ≤ b) (hhi : b < hi) :
    ∃ c, (c ∈ A ∨ c ∈ F) ∧ c.Has b := by
  rcases (L.tile b).mp ⟨hlo, hhi⟩ with ⟨c, hc, hb⟩ | ⟨c, hc, hb⟩
  · exact ⟨c, .inl hc, hb⟩
  · exact ⟨c, .inr hc, hb⟩

theorem Layout.first {lo hi : ℕ} (L : Layout A F lo hi) (h : lo < hi) :
    ∃ c, (c ∈ A ∨ c ∈ F) ∧ c.addr = lo := by
  obtain ⟨c, hc, hle, -⟩ := L.cover le_rfl h
  exact ⟨c, hc, le_antisymm hle (L.inside hc).1⟩

theorem Layout.following {lo hi : ℕ} (L : Layout A F lo hi) (hc : c ∈ A ∨ c ∈ F) (h : c.stop < hi) :
    ∃ d, (d ∈ A ∨ d ∈ F) ∧ d.addr = c.stop := by
  have hlo := (L.inside hc).1
  have hcpos := (L.wellSized c hc).pos
  obtain ⟨d, hd, hle, hlt⟩ := L.cover (b := c.stop) (by unfold stop; omega) h
  refine ⟨d, hd, ?_⟩
  have hne : c ≠ d := by
    rintro rfl
    exact lt_irrefl _ hlt
  have hap := L.apart_of_ne hc hd hne
  unfold Extent.Apart stop at *
  omega

theorem Linked.exists_tail {h : HdrMap} {head : ℕ} {xs : List Extent}
    (hl : Linked h head (xs.map addr)) (hne : xs ≠ []) : ∃ d ∈ xs, (h d.addr).next = NULL := by
  obtain ⟨l, d, rfl⟩ := (List.eq_nil_or_concat' xs).resolve_left hne
  rw [List.map_append] at hl
  exact ⟨d, by simp, DList.next_eq hl⟩

theorem Inv.exists_tail (I : Inv s A F) (hc : c ∈ A ∨ c ∈ F) :
    ∃ d, (d ∈ A ∨ d ∈ F) ∧ (s.hdr d.addr).next = NULL := by
  rcases hc with hc | hc
  · obtain ⟨d, hd, hnext⟩ := Linked.exists_tail I.rep.lists.alloc (List.ne_nil_of_mem hc)
    exact ⟨d, .inl hd, hnext⟩
  · obtain ⟨d, hd, hnext⟩ := Linked.exists_tail I.rep.lists.free (List.ne_nil_of_mem hc)
    exact ⟨d, .inr hd, hnext⟩

theorem Inv.next_mem (I : Inv s A F) (hc : c ∈ A ∨ c ∈ F) :
    (s.hdr c.addr).next = NULL ∨ (s.hdr c.addr).next ∈ headers A F := by
  rcases hc with hc | hc
  · exact (DList.next_mem I.rep.lists.alloc (List.mem_map_of_mem hc)).imp_right
      fun h ↦ I.rep.lists.mem _ (.inl h)
  · exact (DList.next_mem I.rep.lists.free (List.mem_map_of_mem hc)).imp_right
      fun h ↦ I.rep.lists.mem _ (.inr h)

theorem not_wp_readWord {a : ℕ} {Q : ℕ → Heap → Prop} (ha : ¬ s.Mapped a 8) :
    ¬ wp (readWord a) Q s := by
  simp [readWord, wp_ite, ha]

section Walk

variable {Q : Totals → Heap → Prop}

theorem Inv.checkChunk_fault (I : Inv s A F) (hc : c ∈ A ∨ c ∈ F)
    (hnext : (s.hdr c.addr).next = NULL) : ¬ wp (checkChunk c.addr t) Q s := by
  have hv := View.refl I.rep.lists.nodes
  have hcN : c.addr ∈ headers A F := ⟨c, hc, rfl⟩
  have hnull : ¬ s.Mapped NULL 8 := fun h ↦ absurd h.1 (Nat.not_le.mpr I.pos)
  rw [checkChunk, wp_bind, hv.getChunkSize hcN, wp_bind, hv.getNext hcN, hnext, wp_bind]
  exact not_wp_readWord hnull

theorem Inv.checkChunk_visit (I : Inv s A F) (hc : c ∈ A ∨ c ∈ F)
    (hnext : (s.hdr c.addr).next ∈ headers A F) : wp (checkChunk c.addr t) Q s ↔
      Q (t.visit c.addr c.size (decide ((s.hdr c.addr).status ≠ 0))) s := by
  have hv := View.refl I.rep.lists.nodes
  have hcN : c.addr ∈ headers A F := ⟨c, hc, rfl⟩
  rw [checkChunk, wp_bind, hv.getChunkSize hcN, wp_bind, hv.getNext hcN, wp_bind,
    hv.getChunkSize hnext, wp_bind, hv.getChunkStatus hcN, wp_bind, hv.getChunkSize hcN, wp_pure,
    I.size_eq hc]

/-- No walk gets past a chunk at the tail of its list. -/
theorem Inv.checkLoop_fault (I : Inv s A F) {fuel : ℕ} (hd : d ∈ A ∨ d ∈ F)
    (hnext : (s.hdr d.addr).next = NULL) (hc : c ∈ A ∨ c ∈ F) (hle : c.addr ≤ d.addr) :
    ¬ wp (checkLoop fuel c.addr t) Q s := by
  induction fuel generalizing c t with
  | zero => exact wp_failure
  | succ fuel ih =>
    have hv := View.refl I.rep.lists.nodes
    have hcN : c.addr ∈ headers A F := ⟨c, hc, rfl⟩
    have hcin := I.layout.inside hc
    have hdin := I.layout.inside hd
    have hcsize := (I.layout.wellSized c hc).2.2
    have hdsize := (I.layout.wellSized d hd).pos
    rw [checkLoop, wp_bind, wp_get, wp_ite, if_pos (by unfold stop at hcin; omega), wp_bind]
    rcases I.next_mem hc with hnull | hlink
    · exact I.checkChunk_fault hc hnull
    · have hne : c.addr ≠ d.addr := by
        intro he
        rw [he, hnext] at hlink
        exact I.rep.lists.nodes.ne_null hlink rfl
      have hap := I.layout.addr_apart hc hd hne
      have hstop : c.stop ≤ d.addr := by
        unfold Extent.Apart stop at *
        omega
      obtain ⟨e, he, heq⟩ := I.layout.following hc (by unfold stop at *; omega)
      have hstep : headerToNextHeader c.addr c.size = e.addr := by
        rw [heq]
        exact Nat.mod_eq_of_lt (I.stop_lt hc)
      rw [I.checkChunk_visit hc hlink, wp_bind, hv.getChunkSize hcN, I.size_eq hc, hstep]
      exact ih he (heq ▸ hstop)

end Walk

theorem Inv.mmCheckheap_fault (I : Inv s A F) (hlt : s.memStartBrk < s.memBrk) {fuel : ℕ}
    {Q : Totals → Heap → Prop} : ¬ wp (mmCheckheap fuel) Q s := by
  obtain ⟨c, hc, hstart⟩ := I.layout.first hlt
  obtain ⟨d, hd, hnext⟩ := I.exists_tail hc
  have hle := (I.layout.inside hd).1
  rw [mmCheckheap, wp_bind, wp_get, ← hstart]
  exact I.checkLoop_fault hd hnext hc (hstart ▸ hle)

/-- The checker works on the empty heap only: every other walk meets the tail of a list. -/
theorem checkerExact_iff (hb : Base base) (hw : ReachableWorld base w) :
    CheckerExact w.heap ↔ w.heap.memBrk = w.heap.memStartBrk := by
  obtain ⟨A, F, C⟩ := hw.coherent hb
  constructor
  · rintro ⟨-, -, fuel, t, -, -, hrun, -⟩
    by_contra hne
    have hlt := lt_of_le_of_ne C.inv.start_le (Ne.symm hne)
    exact C.inv.mmCheckheap_fault hlt ((wp_of_eq (Q := fun _ _ ↦ True) hrun).mpr trivial)
  · intro hempty
    have hnone : ∀ c, ¬(c ∈ A ∨ c ∈ F) := fun c hc ↦ by
      have hin := C.inv.layout.inside hc
      have hpos := (C.inv.layout.wellSized c hc).pos
      unfold stop at hin
      omega
    obtain rfl : A = [] := List.eq_nil_iff_forall_not_mem.mpr fun c hc ↦ hnone c (.inl hc)
    obtain rfl : F = [] := List.eq_nil_iff_forall_not_mem.mpr fun c hc ↦ hnone c (.inr hc)
    refine ⟨[], [], 1, ⟨0, 0, 0, 0, []⟩, C.inv.allocatedList, C.inv.freeList, ?_,
      .nil, .nil, rfl, rfl, rfl, rfl⟩
    have hstop : ¬ w.heap.memStartBrk < w.heap.memBrk - 1 := by omega
    obtain ⟨t, s', hrun, rfl, rfl⟩ := (show wp (mmCheckheap 1)
      (fun t s' ↦ t = ⟨0, 0, 0, 0, []⟩ ∧ s' = w.heap) w.heap by
        rw [mmCheckheap, wp_bind, wp_get, checkLoop, wp_bind, wp_get, wp_ite, if_neg hstop, wp_pure]
        exact ⟨rfl, rfl⟩)
    exact hrun

theorem checkerExact_iff_malloc_24 : ∃ (w : World) (p : ℕ), w.live p = some (.fresh 24) ∧
    (CheckerExact w.heap ↔ w.heap.memBrk = w.heap.memStartBrk) := by
  obtain ⟨w, p, hw, hp⟩ := malloc_24
  exact ⟨w, p, hp, checkerExact_iff base_4096 (.next reachable_emptyWorld ⟨_, hw⟩)⟩

theorem checkheap_faults_malloc_24 : ¬ ∀ base w, Base base → ReachableWorld base w →
    CheckerExact w.heap := by
  intro h
  obtain ⟨w, p, hw, hp⟩ := malloc_24
  have hreach : ReachableWorld 4096 w := .next reachable_emptyWorld ⟨_, hw⟩
  obtain ⟨A, F, C⟩ := hreach.coherent base_4096
  obtain ⟨c, hc, -⟩ := (C.blocks.live_iff p).mp ⟨_, hp⟩
  have hin := C.inv.layout.inside (.inl hc)
  have hpos := (C.inv.layout.wellSized c (.inl hc)).pos
  obtain ⟨-, -, fuel, t, -, -, hrun, -⟩ := h 4096 w base_4096 hreach
  exact C.inv.mmCheckheap_fault (by unfold stop at hin; omega)
    ((wp_of_eq (Q := fun _ _ ↦ True) hrun).mpr trivial)

end CsoLabs.Malloc
