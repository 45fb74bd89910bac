import CsoLabs.Malloc.Calls

namespace CsoLabs.Malloc

open Foundation CInt Extent

variable {N : Set ℕ} {s s' : Heap} {A F l r : List Extent} {c d : Extent} {x n size p : ℕ}
  {h : HdrMap}

theorem Rep.of_view (R : Rep N s A F)
    (hv : View N s s' s.globalFreeList s.globalAllocatedListHead h) (hh : ∀ y ≠ x, h y = s.hdr y)
    (hxA : x ∉ A.map addr) (hxF : x ∉ F.map addr) : Rep N s' A F := by
  have hne : ∀ y, y ∈ A.map addr ∨ y ∈ F.map addr → s.hdr y = h y := by
    rintro y (hy | hy) <;> refine (hh y ?_).symm <;> rintro rfl
    · exact hxA hy
    · exact hxF hy
  refine ⟨hv.lists (R.lists.alloc.congr fun y hy ↦ hne y (.inl hy))
    (R.lists.free.congr fun y hy ↦ hne y (.inr hy)) R.lists.mem R.lists.disj,
    fun c hc ↦ ?_, fun c hc ↦ ?_⟩
  · rw [hv.hdr _ (R.mem_alloc hc), ← hne _ (.inl (List.mem_map_of_mem hc))]
    exact R.alloc c hc
  · rw [hv.hdr _ (R.mem_free hc), ← hne _ (.inr (List.mem_map_of_mem hc))]
    exact R.free c hc

/-- The second pass: the front of a free chunk is allocated, the rest given back. -/
theorem Inv.splitChunk (I : Inv s A (l ++ c :: r)) (hn : 16 ∣ n) (hn' : 48 ≤ n)
    (hcn : n + 48 ≤ c.size) :
    wp (splitChunk c.addr c.size n) (fun p s' ↦ p = c.addr + headerSize ∧
      Inv s' (⟨c.addr, n⟩ :: A) (l ++ ⟨c.addr + n, c.size - n⟩ :: r) ∧ s'.memBrk = s.memBrk ∧
      Frame A s s') s := by
  have hc : c ∈ l ++ c :: r := by simp
  have hstop := I.stop_lt (.inr hc)
  have hT : sizeT n = n := sizeT_of_nonneg (by unfold stop at hstop; omega)
  have L := I.layout.take.split hn hn' hcn
  set rest : Extent := ⟨c.addr + n, c.size - n⟩ with hrest
  set c' : Extent := ⟨c.addr, n⟩ with hc'
  set M := headers (rest :: c' :: A) (l ++ r) with hM
  have hsub : headers A (l ++ c :: r) ⊆ M := by
    rintro _ ⟨d, hd, rfl⟩
    rcases hd with hd | hd
    · exact ⟨d, by simp [hd], rfl⟩
    · rcases List.mem_append.mp hd with hd | hd
      · exact ⟨d, by simp [hd], rfl⟩
      · rcases List.mem_cons.mp hd with rfl | hd
        · exact ⟨c', by simp, rfl⟩
        · exact ⟨d, by simp [hd], rfl⟩
  have hMs : Nodes M s := L.nodes I.pos I.top I.brk_le
  have R := I.rep.of_nodes hMs hsub
  have hcM := R.mem_free hc
  have hxM : rest.addr ∈ M := ⟨rest, by simp, rfl⟩
  -- the new header is inside the old chunk, away from every header in the lists
  have hxne : ∀ d, d ∈ c' :: A ∨ d ∈ l ++ r → d.addr ≠ rest.addr := by
    intro d hd he
    have hpos := (L.wellSized d (hd.imp_left (List.mem_cons_of_mem _))).2.2
    have hpos' := (L.wellSized rest (by simp)).2.2
    have hap : rest.Apart d := hd.elim (fun hd ↦ (List.pairwise_cons.mp L.apart).1 d hd)
      fun hd ↦ L.cross rest (by simp) d hd
    unfold Extent.Apart stop at hap
    omega
  rw [Malloc.splitChunk, hT]
  refine ((View.refl hMs).setChunkSizeStatus hcM (v := n)
    (by unfold stop at hstop; omega) true).bind fun _ s₁ hv₁ ↦ ?_
  have L₁ : Lists M s₁ (A.map addr) (l.map addr ++ c.addr :: r.map addr) := by
    have := hv₁.lists ((R.lists.alloc.setSize _ _).setStatus _ _)
      ((R.lists.free.setSize _ _).setStatus _ _) R.lists.mem R.lists.disj
    simpa using this
  refine L₁.removeFree.bind fun _ s₂ ⟨L₂, hk₂, hd₂⟩ ↦ ?_
  have hcA : c.addr ∉ A.map addr := fun h ↦ R.lists.disj _ h (List.mem_map_of_mem hc)
  have hcF : c.addr ∉ l.map addr ++ r.map addr := by
    rw [← List.map_append]
    exact R.notMem_free
  refine (L₂.insertAllocated hcM hcA hcF).bind fun _ s₃ ⟨L₃, hk₃, hd₃⟩ ↦ ?_
  have R₃ : Rep M s₃ (c' :: A) (l ++ r) := by
    refine R.allocate L₃ fun y hy ↦ ?_
    rw [(hd₃ y hy).1, (hd₃ y hy).2, (hd₂ y hy).1, (hd₂ y hy).2, hv₁.hdr y hy]
    constructor
    · simp
    · split_ifs with hyc <;> simp [hyc]
  have hrs : (c.size + (2 ^ 64 - n)) % 2 ^ 64 = rest.size := by
    simp only [hrest]
    unfold stop at hstop
    omega
  have hnext : headerToNextHeader c.addr n = rest.addr := by
    unfold headerToNextHeader
    simp only [hrest]
    unfold stop at hstop
    omega
  simp only [hnext]
  refine ((View.refl R₃.lists.nodes).initHeader hxM).bind fun _ s₄ hv₄ ↦ ?_
  rw [hrs]
  refine (hv₄.setChunkSizeStatus hxM (v := rest.size)
    (by unfold stop at hstop; simp only [hrest]; omega)
    false).bind fun _ s₅ hv₅ ↦ ?_
  have hxA : rest.addr ∉ (c' :: A).map addr := by
    intro hx
    obtain ⟨d, hd, hdx⟩ := List.mem_map.mp hx
    exact hxne d (.inl hd) hdx
  have hxF : rest.addr ∉ (l ++ r).map addr := by
    intro hx
    obtain ⟨d, hd, hdx⟩ := List.mem_map.mp hx
    exact hxne d (.inr hd) hdx
  have R₅ : Rep M s₅ (c' :: A) (l ++ r) := by
    refine R₃.of_view hv₅ (x := rest.addr) (fun y hy ↦ ?_) hxA hxF
    ext <;> simp [hy]
  have hsize₅ : (s₅.hdr rest.addr).size = rest.size := by
    rw [hv₅.hdr _ hxM]
    simp
  refine (R₅.insertFreeList hxM hxA hsize₅ (L.wellSized rest (by simp)).pos
    (fun d hd ↦ (L.wellSized d (.inr hd)).pos) L.separated (fun d hd ↦ L.cross rest (by simp) d hd)
    (fun d hd ↦ I.stop_lt (.inr (mem_middle hd))) ?_).bind
      fun _ s₆ ⟨l', r', hlr, hl', hr', R₆, hk₆⟩ ↦ ?_
  · simp only [hrest, stop] at hstop ⊢
    omega
  rw [wp_pure]
  have hk : Keeps M s s₆ :=
    (hv₁.keeps.trans (hk₂.trans hk₃)).trans (hv₅.keeps.trans hk₆)
  have hsep := I.layout.separated.replace (p := rest) (by simp only [hrest]; omega)
    (by simp only [hrest, stop]; omega)
  obtain ⟨rfl, rfl⟩ := hsep.split_unique hlr hl' hr'
  have L' := L.giveBack hl' hr'
  rw [coalesce_of_separated hsep] at R₆ L'
  exact ⟨rfl, I.of_keeps hk R₆ L', hk.2, hk.1, hk.3, fun d hd b hb hb' ↦
    hk.bytes b (L.payload_outside (by simp [hd]) hb hb')⟩

def Serves (s : Heap) (A : List Extent) (size p : ℕ) (s' : Heap) : Prop :=
  ∃ c F', p = c.addr + headerSize ∧ size + headerSize ≤ c.size ∧ Inv s' (c :: A) F' ∧ Frame A s s'

theorem chunkFor_spec (h : 0 < size) :
    16 ∣ chunkFor size ∧ 48 ≤ chunkFor size ∧ size + headerSize ≤ chunkFor size := by
  unfold chunkFor headerSize
  omega

theorem fitsGuard_eq (hn : size ≤ MAX_HEAP) (k : ℕ) : fitsGuard k (chunkFor size) =
    some (decide (chunkFor size ≤ k ∧ k < chunkFor size + 1024)) := by
  have hlt : chunkFor size < 2 ^ 30 := by unfold MAX_HEAP at hn; unfold chunkFor; omega
  have hsum : ((chunkFor size : ℕ) : ℤ) + MIN_GUARD = ((chunkFor size + 1024 : ℕ) : ℤ) := by
    simp [MIN_GUARD]
  have hT := sizeT_of_nonneg (show chunkFor size + 1024 < 2 ^ 64 by omega)
  rw [fitsGuard, sizeT_of_nonneg (by omega), hsum, int_of_bounds (by omega) (by omega)]
  split_ifs with hk
  · change some (decide (k < sizeT ((chunkFor size + 1024 : ℕ) : ℤ))) = _
    rw [hT]
    simp [hk]
  · simp [hk]

def Suits (i n : ℕ) (c : Extent) : Prop :=
  if i = 0 then n ≤ c.size ∧ c.size < n + MIN_GUARD.toNat else n + headerSize < c.size

def allot (i n : ℕ) (c : Extent) : Extent := if i = 0 then c else ⟨c.addr, n⟩

def leftover (i n : ℕ) (c : Extent) : List Extent :=
  if i = 0 then [] else [⟨c.addr + n, c.size - n⟩]

structure Grants (s : Heap) (A : List Extent) (c : Extent) (F : List Extent) (p : ℕ)
    (s' : Heap) : Prop where
  ptr : p = c.addr + headerSize
  inv : Inv s' (c :: A) F
  frame : Frame A s s'

def PassTakes (i n : ℕ) (s : Heap) (A F : List Extent) (p : ℕ) (s' : Heap) : Prop :=
  ∃ l c r, F = l ++ c :: r ∧ Suits i n c ∧ (∀ d ∈ l, ¬ Suits i n d) ∧
    Grants s A (allot i n c) (l ++ (leftover i n c ++ r)) p s' ∧ s'.memBrk = s.memBrk

/-- One chunk of one pass: it is passed by, or it is allocated. -/
theorem Inv.tryChunk (I : Inv s A (l ++ c :: r)) (hn : 0 < size) (hn' : size ≤ MAX_HEAP) (i : ℕ) :
    wp (tryChunk i (chunkFor size) c.addr) (fun o s' ↦
      (o = none ∧ s' = s ∧ ¬ Suits i (chunkFor size) c) ∨
      ∃ p, o = some p ∧ Suits i (chunkFor size) c ∧ s'.memBrk = s.memBrk ∧
        Grants s A (allot i (chunkFor size) c) (l ++ (leftover i (chunkFor size) c ++ r)) p s')
      s := by
  have hc : c ∈ l ++ c :: r := by simp
  have hv := View.refl I.rep.lists.nodes
  have hcN := I.rep.mem_free hc
  obtain ⟨hsize, hstatus⟩ := I.rep.free c hc
  obtain ⟨h₁, h₂, h₃⟩ := chunkFor_spec hn
  have hlt : chunkFor size < 2 ^ 30 := by unfold MAX_HEAP at hn'; unfold chunkFor; omega
  have hT := sizeT_of_nonneg (show chunkFor size < 2 ^ 64 by omega)
  have hguard : MIN_GUARD.toNat = 1024 := rfl
  rw [Malloc.tryChunk, wp_bind, hv.getChunkStatus hcN, hstatus, wp_ite, if_pos (by simp), wp_bind,
    hv.getChunkSize hcN, hsize, wp_ite]
  unfold Suits allot leftover
  split_ifs with hi hbig
  · rw [wp_bind, wp_lift]
    refine ⟨_, fitsGuard_eq hn' _, ?_⟩
    rw [wp_ite]
    split_ifs with hfit
    · rw [wp_map]
      refine I.takeChunk.mono fun p s' ⟨hp, I', hbrk, hf⟩ ↦ .inr ⟨p, rfl, ?_, hbrk, hp, I', hf⟩
      exact of_decide_eq_true hfit
    · refine wp_pure.mpr (.inl ⟨rfl, rfl, fun h ↦ hfit (decide_eq_true ?_)⟩)
      exact h
  · rw [wp_map]
    have hcs := (I.layout.wellSized c (.inr hc)).2.1
    rw [hT, Nat.mod_eq_of_lt (by unfold headerSize; omega)] at hbig
    refine (I.splitChunk h₁ h₂ ?_).mono fun p s' ⟨hp, I', hbrk, hf⟩ ↦
      .inr ⟨p, rfl, hbig, hbrk, hp, I', hf⟩
    unfold headerSize at hbig
    omega
  · rw [hT, Nat.mod_eq_of_lt (by unfold headerSize; omega)] at hbig
    exact wp_pure.mpr (.inl ⟨rfl, rfl, hbig⟩)

theorem Inv.searchLoop (I : Inv s A F) (hn : 0 < size) (hn' : size ≤ MAX_HEAP) (i : ℕ)
    (hF : F = l ++ r) (hl : ∀ d ∈ l, ¬ Suits i (chunkFor size) d) {fuel : ℕ}
    (hfuel : r.length < fuel) :
    wp (searchLoop i (chunkFor size) fuel ((r.map addr).headD NULL)) (fun o s' ↦
      (o = none ∧ s' = s ∧ ∀ d ∈ F, ¬ Suits i (chunkFor size) d) ∨
      ∃ p, o = some p ∧ PassTakes i (chunkFor size) s A F p s') s := by
  induction r generalizing l fuel with
  | nil =>
    obtain ⟨fuel, rfl⟩ := Nat.exists_eq_succ_of_ne_zero (Nat.ne_of_gt hfuel)
    rw [Malloc.searchLoop, List.map_nil, List.headD_nil, if_pos rfl, wp_pure]
    exact .inl ⟨rfl, rfl, by simpa [hF] using hl⟩
  | cons c r ih =>
    obtain ⟨fuel, rfl⟩ := Nat.exists_eq_succ_of_ne_zero (Nat.ne_of_gt (Nat.zero_lt_of_lt hfuel))
    have hI := I
    rw [hF] at hI
    have hc : c ∈ l ++ c :: r := by simp
    have hc0 := hI.rep.lists.nodes.ne_null (hI.rep.mem_free hc)
    rw [Malloc.searchLoop, List.map_cons, List.headD_cons, if_neg hc0]
    refine (hI.tryChunk hn hn' i).bind fun o s' ho ↦ ?_
    rcases ho with ⟨rfl, rfl, hpass⟩ | ⟨p, rfl, hsuits, hbrk, hg⟩
    · simp only [wp_bind]
      rw [hI.rep.getNext]
      refine ih (l := l ++ [c]) (by simp [hF]) (fun d hd ↦ ?_) (Nat.lt_of_succ_lt_succ hfuel)
      rcases List.mem_append.mp hd with hd | hd
      · exact hl d hd
      · rwa [List.mem_singleton.mp hd]
    · exact wp_pure.mpr (.inr ⟨p, rfl, l, c, r, hF, hsuits, hl, hg, hbrk⟩)

theorem Inv.headD_free (I : Inv s A F) : (F.map addr).headD NULL = s.globalFreeList :=
  I.rep.lists.free.head_eq.symm

theorem Inv.fuel (I : Inv s A F) : F.length < s.fuel := by
  have := I.rep.lists.nodes.length_le I.rep.lists.free.nodup
    fun y hy ↦ I.rep.lists.mem y (.inr hy)
  rw [List.length_map] at this
  unfold Heap.fuel
  omega

/-- The second pass runs only when the first one has found nothing. -/
theorem Inv.findMemory (I : Inv s A F) (hn : 0 < size) (hn' : size ≤ MAX_HEAP) :
    wp (findMemory size) (fun p s' ↦
      (p = NULL ∧ s' = s ∧ ∀ i < 2, ∀ d ∈ F, ¬ Suits i (chunkFor size) d) ∨
      ∃ i < 2, (∀ j < i, ∀ d ∈ F, ¬ Suits j (chunkFor size) d) ∧
        PassTakes i (chunkFor size) s A F p s') s := by
  rw [Malloc.findMemory, if_neg hn.ne', getNewsize_eq hn']
  simp only [wp_bind, wp_get]
  rw [← I.headD_free]
  refine (I.searchLoop hn hn' 0 (l := []) rfl (by simp) I.fuel).mono fun o s₁ ho ↦ ?_
  rcases ho with ⟨rfl, rfl, hnone⟩ | ⟨p, rfl, hp⟩
  · have hfirst : ∀ j < 1, ∀ d ∈ F, ¬ Suits j (chunkFor size) d := fun j hj ↦ by
      rwa [Nat.lt_one_iff.mp hj]
    simp only [wp_bind, wp_get]
    rw [← I.headD_free]
    refine (I.searchLoop hn hn' 1 (l := []) rfl (by simp) I.fuel).mono fun o s₂ ho ↦ ?_
    rcases ho with ⟨rfl, rfl, hnone'⟩ | ⟨p, rfl, hp⟩
    · refine wp_pure.mpr (.inl ⟨rfl, rfl, fun i hi ↦ ?_⟩)
      rcases Nat.lt_succ_iff_lt_or_eq.mp hi with hi | rfl
      · exact hfirst i hi
      · exact hnone'
    · exact wp_pure.mpr (.inr ⟨1, by omega, hfirst, hp⟩)
  · exact wp_pure.mpr (.inr ⟨0, by omega, by simp, hp⟩)

theorem wp_memSbrk {n : ℤ} {Q : ℕ → Heap → Prop} : wp (memSbrk n) Q s ↔
    if n < 0 ∨ (s.memBrk : ℤ) + n > s.memMaxAddr then Q sbrkError s
    else Q s.memBrk { s with memBrk := s.memBrk + n.toNat } := by
  simp [memSbrk, wp_ite]

def OutOfMemory (s : Heap) (size : ℕ) : Prop :=
  findMemory size s = some (NULL, s) ∧ memSbrk (getNewsize size) s = some (sbrkError, s)

theorem Inv.extend (I : Inv s A F) (hn : 16 ∣ n) (hn' : 48 ≤ n)
    (hroom : s.memBrk + n ≤ s.memMaxAddr) :
    wp (do
      setChunkSizeStatus s.memBrk n true
      insertAllocatedList s.memBrk)
      (fun _ s' ↦ Inv s' (⟨s.memBrk, n⟩ :: A) F ∧ s'.memBrk = s.memBrk + n ∧ Frame A s s')
      { s with memBrk := s.memBrk + n } := by
  set s₁ : Heap := { s with memBrk := s.memBrk + n } with hs₁
  have L := I.layout.extend I.start_le I.aligned hn hn'
  set M := headers (⟨s.memBrk, n⟩ :: A) F with hM
  have hMs : Nodes M s₁ := L.nodes (s := s₁) I.pos I.top hroom
  have hsub : headers A F ⊆ M := by
    rintro _ ⟨d, hd, rfl⟩
    exact ⟨d, hd.imp_left (List.mem_cons_of_mem _), rfl⟩
  have R : Rep M s₁ A F := Rep.of_nodes (s := s₁)
    ⟨{ I.rep.lists with nodes := hMs.mono hsub }, I.rep.alloc, I.rep.free⟩ hMs hsub
  have hxM : s.memBrk ∈ M := ⟨⟨s.memBrk, n⟩, by simp, rfl⟩
  have hne : ∀ d, d ∈ A ∨ d ∈ F → d.addr ≠ s.memBrk := fun d hd he ↦ by
    have h₁ := (I.layout.inside hd).2
    have h₂ := (I.layout.wellSized d hd).2.2
    unfold stop at h₁
    omega
  have hxA : s.memBrk ∉ A.map addr := fun hx ↦ by
    obtain ⟨d, hd, hdx⟩ := List.mem_map.mp hx
    exact hne d (.inl hd) hdx
  have hxF : s.memBrk ∉ F.map addr := fun hx ↦ by
    obtain ⟨d, hd, hdx⟩ := List.mem_map.mp hx
    exact hne d (.inr hd) hdx
  have htop := I.top
  refine ((View.refl hMs).setChunkSizeStatus hxM (v := n) (by omega) true).bind fun _ s₂ hv ↦ ?_
  have R₂ : Rep M s₂ A F := R.of_view hv (x := s.memBrk) (fun y hy ↦ by ext <;> simp [hy]) hxA hxF
  refine (R₂.lists.insertAllocated hxM hxA hxF).mono fun _ s₃ ⟨L₃, hk₃, hd₃⟩ ↦ ?_
  have hx₂ := hv.hdr _ hxM
  have R₃ : Rep M s₃ (⟨s.memBrk, n⟩ :: A) F := by
    refine ⟨L₃, fun d hd ↦ ?_, fun d hd ↦ ?_⟩
    · rcases List.mem_cons.mp hd with rfl | hd
      · rw [(hd₃ _ hxM).1, (hd₃ _ hxM).2, hx₂]
        simp
      · have hd' := hd₃ _ (R.mem_alloc hd)
        rw [hd'.1, hd'.2, if_neg (hne d (.inl hd))]
        exact R₂.alloc d hd
    · have hd' := hd₃ _ (R.mem_free hd)
      rw [hd'.1, hd'.2, if_neg (hne d (.inr hd))]
      exact R₂.free d hd
  have hk : Keeps M s₁ s₃ := hv.keeps.trans hk₃
  have h₂ : s₃.memBrk = s.memBrk + n := hk.2
  have h₃ : s₃.memMaxAddr = s.memMaxAddr := hk.3
  refine ⟨⟨hk.1 ▸ I.pos, h₃ ▸ I.top, ?_, by omega, h₂ ▸ Nat.dvd_add I.aligned hn,
    R₃.of_nodes (hMs.of_keeps hk) subset_rfl, ?_⟩, h₂, hk.1, h₃, fun d hd b hb hb' ↦ ?_⟩
  · have := I.start_le
    have h₁ : s₃.memStartBrk = s.memStartBrk := hk.1
    omega
  · rw [hk.1, h₂]
    exact L
  · exact hk.bytes b (L.payload_outside (by simp [hd]) hb hb')

structure Grows (n : ℕ) (s : Heap) (A F : List Extent) (p : ℕ) (s' : Heap) : Prop where
  grants : Grants s A ⟨s.memBrk, n⟩ F p s'
  memBrk : s'.memBrk = s.memBrk + n

theorem Inv.findMemory_null (I : Inv s A F) (hn : 0 < size) (hn' : size ≤ MAX_HEAP)
    (hnone : ∀ i < 2, ∀ d ∈ F, ¬ Suits i (chunkFor size) d) :
    Malloc.findMemory size s = some (NULL, s) := by
  obtain ⟨p, s', hfind, ⟨rfl, rfl, -⟩ | ⟨i, hi, -, l, c, r, hF, hc, -⟩⟩ := I.findMemory hn hn'
  · exact hfind
  · exact absurd hc (hnone i hi c (by simp [hF]))

theorem Inv.grow (I : Inv s A F) (hn : 0 < size) (hn' : size ≤ MAX_HEAP)
    (hfind : Malloc.findMemory size s = some (NULL, s))
    (hsbrk : memSbrk (getNewsize size) s ≠ some (sbrkError, s)) :
    wp (mmMalloc size) (Grows (chunkFor size) s A F) s := by
  obtain ⟨h₁, h₂, h₃⟩ := chunkFor_spec hn
  have hlt : chunkFor size < 2 ^ 30 := by unfold MAX_HEAP at hn'; unfold chunkFor; omega
  have hroom : s.memBrk + chunkFor size ≤ s.memMaxAddr := by
    by_contra hno
    refine hsbrk ?_
    obtain ⟨a, t, ht, hat⟩ := wp_memSbrk (n := getNewsize size) (s := s)
      (Q := fun a t ↦ a = sbrkError ∧ t = s) |>.mpr (by
        rw [getNewsize_eq hn', if_pos (by omega)]
        exact ⟨rfl, rfl⟩)
    rw [ht, hat.1, hat.2]
  rw [Malloc.mmMalloc, if_neg hn.ne', wp_bind]
  refine (wp_of_eq hfind).mpr ?_
  rw [wp_ite, if_neg (by simp), wp_bind, wp_memSbrk, getNewsize_eq hn', if_neg (by omega),
    sizeT_of_nonneg (by omega), Int.toNat_natCast]
  have := (I.extend h₁ h₂ hroom).bind (f := fun _ ↦ pure (headerToPayload s.memBrk))
    (Q := Grows (chunkFor size) s A F) fun _ s₁ ⟨I₁, hbrk, hf⟩ ↦
      wp_pure.mpr ⟨⟨rfl, I₁, hf⟩, hbrk⟩
  simpa only [bind_assoc] using this

theorem PassTakes.ne_null {i n : ℕ} (h : PassTakes i n s A F p s') : p ≠ NULL := by
  obtain ⟨l, c, r, -, -, -, ⟨rfl, -, -⟩, -⟩ := h
  unfold headerSize NULL
  omega

theorem mmMalloc_of_find (hn : 0 < size) (hfind : Malloc.findMemory size s = some (p, s'))
    (hp : p ≠ NULL) : mmMalloc size s = some (p, s') := by
  have hw : wp (mmMalloc size) (fun q t ↦ q = p ∧ t = s') s := by
    rw [Malloc.mmMalloc, if_neg hn.ne', wp_bind]
    refine (wp_of_eq hfind).mpr ?_
    rw [wp_ite, if_pos hp, wp_pure]
    exact ⟨rfl, rfl⟩
  obtain ⟨q, t, h, rfl, rfl⟩ := hw
  exact h

theorem Inv.mmMalloc_placed (I : Inv s A F) (hn : 0 < size) (hn' : size ≤ MAX_HEAP)
    (hmem : ¬ OutOfMemory s size) : wp (mmMalloc size) (fun p s' ↦
      ((∀ i < 2, ∀ d ∈ F, ¬ Suits i (chunkFor size) d) ∧ Grows (chunkFor size) s A F p s') ∨
      ∃ i < 2, (∀ j < i, ∀ d ∈ F, ¬ Suits j (chunkFor size) d) ∧
        PassTakes i (chunkFor size) s A F p s') s := by
  obtain ⟨p, s', hfind, ⟨rfl, rfl, hnone⟩ | ⟨i, hi, hnone, hp⟩⟩ := I.findMemory hn hn'
  · exact (I.grow hn hn' hfind fun hsbrk ↦ hmem ⟨hfind, hsbrk⟩).mono fun p s₁ hg ↦
      .inl ⟨hnone, hg⟩
  · exact ⟨p, s', mmMalloc_of_find hn hfind hp.ne_null, .inr ⟨i, hi, hnone, hp⟩⟩

theorem Inv.mmMalloc_snug (I : Inv s A F) (hn : 0 < size) (hn' : size ≤ MAX_HEAP)
    (hmem : ¬ OutOfMemory s size) : wp (mmMalloc size) (fun p s' ↦ ∃ c F', Grants s A c F' p s' ∧
      size + headerSize ≤ c.size ∧ c.size < chunkFor size + MIN_GUARD.toNat) s := by
  have hfit := (chunkFor_spec hn).2.2
  have hguard : 0 < MIN_GUARD.toNat := by decide
  refine (I.mmMalloc_placed hn hn' hmem).mono fun p s' hp ↦ ?_
  rcases hp with ⟨-, hg⟩ | ⟨i, -, -, l, c, r, -, hc, -, hg, -⟩
  · exact ⟨_, _, hg.grants, hfit, by simpa using hguard⟩
  · refine ⟨_, _, hg, ?_⟩
    unfold Suits at hc
    unfold allot
    split_ifs at hc ⊢
    · exact ⟨hfit.trans hc.1, hc.2⟩
    · exact ⟨hfit, by simpa using hguard⟩

theorem Inv.mmMalloc (I : Inv s A F) (hn : 0 < size) (hn' : size ≤ MAX_HEAP)
    (hmem : ¬ OutOfMemory s size) : wp (mmMalloc size) (Serves s A size) s :=
  (I.mmMalloc_snug hn hn' hmem).mono fun _ _ ⟨c, F', hg, hfit, _⟩ ↦
    ⟨c, F', hg.ptr, hfit, hg.inv, hg.frame⟩

theorem Inv.of_payload (I : Inv s A F) {m : ByteMemory.Memory}
    (hm : ∀ b, (∀ x ∈ headers A F, b < x ∨ x + headerSize ≤ b) ∨ m b = s.mem b) :
    Inv { s with mem := m } A F := by
  have hhdr : ∀ y ∈ headers A F, ({ s with mem := m } : Heap).hdr y = s.hdr y := by
    intro y hy
    have hb : ∀ b, y ≤ b → b < y + headerSize → m b = s.mem b := fun b hb hb' ↦
      (hm b).resolve_left fun h ↦ by have := h y hy; omega
    unfold headerSize at hb
    simp only [Heap.hdr, Hdr.mk.injEq]
    exact ⟨ByteMemory.load_congr fun b h h' ↦ hb b (by omega) (by omega),
      ByteMemory.load_congr fun b h h' ↦ hb b (by omega) (by omega),
      ByteMemory.load_congr fun b h h' ↦ hb b (by omega) (by omega),
      ByteMemory.load_congr fun b h h' ↦ hb b (by omega) (by omega)⟩
  have L := I.rep.lists
  refine ⟨I.pos, I.top, I.start_le, I.brk_le, I.aligned, ⟨⟨?_, ?_, ?_, L.mem, L.disj⟩, fun c hc ↦ ?_,
    fun c hc ↦ ?_⟩, I.layout⟩
  · exact ⟨L.nodes.pos, L.nodes.top, L.nodes.mapped, L.nodes.apart⟩
  · exact L.alloc.congr fun y hy ↦ (hhdr y (L.mem y (.inl hy))).symm
  · exact L.free.congr fun y hy ↦ (hhdr y (L.mem y (.inr hy))).symm
  · rw [hhdr _ (I.rep.mem_alloc hc)]
    exact I.rep.alloc c hc
  · rw [hhdr _ (I.rep.mem_free hc)]
    exact I.rep.free c hc

theorem wp_memcpy {dst src n : ℕ} {Q : Unit → Heap → Prop} (hd : s.Mapped dst n)
    (hs : s.Mapped src n) (hap : dst + n ≤ src ∨ src + n ≤ dst) :
    wp (memcpy dst src n) Q s ↔ Q () { s with mem := ByteMemory.copy s.mem dst src n } := by
  simp [memcpy, wp_ite, hd, hs, hap]

theorem Inv.mmRealloc (I : Inv s (l ++ c :: r) F) (hn : 0 < size) (hn' : size ≤ MAX_HEAP)
    (hmem : ¬ OutOfMemory s size) :
    wp (mmRealloc (c.addr + headerSize) size) (fun p s' ↦ ∃ d F', p = d.addr + headerSize ∧
      size + headerSize ≤ d.size ∧ Inv s' (d :: (l ++ r)) F' ∧ Frame (l ++ r) s s' ∧
      (∀ i < size, c.addr + headerSize + i < c.stop →
        s'.mem (p + i) = s.mem (c.addr + headerSize + i)) ∧ d.Apart c ∧ c.stop ≤ s'.memBrk ∧
      d.size < chunkFor size + MIN_GUARD.toNat) s := by
  have hc : c ∈ l ++ c :: r := by simp
  have hptr : c.addr + headerSize ≠ NULL := by unfold headerSize NULL; omega
  have hstop := I.stop_lt (.inl hc)
  have hws := I.layout.wellSized c (.inl hc)
  rw [Malloc.mmRealloc, wp_ite, if_pos hn, wp_bind]
  refine (I.mmMalloc_snug hn hn' hmem).mono fun p s₁ ⟨d, F₁, ⟨hp, I₁, hf₁⟩, hd, hsnug⟩ ↦ ?_
  subst hp
  have hcN : c.addr ∈ headers (d :: (l ++ c :: r)) F₁ := ⟨c, by simp, rfl⟩
  have hcs := (I₁.rep.alloc c (by simp)).1
  have hd' := (I₁.layout.wellSized d (by simp)).2.2
  have hhdr : payloadToHeader (c.addr + headerSize) = c.addr :=
    payloadToHeader_eq (by unfold stop at hstop; omega)
  have hpay : (c.size + (2 ^ 64 - headerSize)) % 2 ^ 64 = c.size - headerSize := by
    have := hws.2.2
    unfold stop at hstop
    unfold headerSize at *
    omega
  have hdc : d.Apart c := (List.pairwise_cons.mp I₁.layout.apart).1 c (by simp)
  set k := if size < c.size - headerSize then size else c.size - headerSize with hk
  have hin₁ := I₁.layout.inside (c := c) (by simp)
  have hin₂ := I₁.layout.inside (c := d) (by simp)
  have hbrk := I₁.brk_le
  have hkd : k ≤ size ∧ k + headerSize ≤ c.size := by
    have := hws.2.2
    unfold headerSize at *
    split_ifs at hk <;> omega
  have hstopd := I₁.stop_lt (c := d) (by simp)
  rw [wp_bind, wp_onlyIf, if_pos hptr, hhdr, wp_bind,
    (View.refl I₁.rep.lists.nodes).getChunkSize hcN, hcs, hpay]
  dsimp only
  rw [← hk, wp_memcpy]
  · rw [wp_bind, wp_pure, wp_bind, wp_onlyIf, if_pos hptr]
    set m := ByteMemory.copy s₁.mem (headerToPayload d.addr) (c.addr + headerSize) k with hm
    have hmem₂ : ∀ b, (b < d.addr + headerSize ∨ d.stop ≤ b) → m b = s₁.mem b := fun b hb ↦
      ByteMemory.copy_of_outside _ _ _ _ (by unfold headerToPayload; unfold stop at hb; omega)
    have I₂ : Inv { s₁ with mem := m } ((d :: l) ++ c :: r) F₁ := I₁.of_payload fun b ↦ by
      by_cases hb : d.addr + headerSize ≤ b ∧ b < d.stop
      · exact .inl (I₁.layout.payload_outside (by simp) hb.1 hb.2)
      · exact .inr (hmem₂ b (by omega))
    refine I₂.mmFree.mono fun _ s₃ ⟨F₃, I₃, hbrk₃, hf₃⟩ ↦ ?_
    rw [wp_pure]
    refine ⟨d, F₃, rfl, hd, I₃, ?_, ?_, hdc, hin₁.2.trans_eq hbrk₃.symm, hsnug⟩
    · refine ⟨hf₃.1.trans hf₁.1, hf₃.2.trans hf₁.2, fun e he b hb hb' ↦ ?_⟩
      have he' : e ∈ l ++ c :: r := mem_middle he
      have hde : d.Apart e := (List.pairwise_cons.mp I₁.layout.apart).1 e he'
      rw [hf₃.payload e (List.mem_cons_of_mem _ he') b hb hb', ← hf₁.payload e he' b hb hb']
      exact hmem₂ b (by unfold Extent.Apart at hde; unfold stop at *; omega)
    · intro i hi hic
      have hik : i < k := by
        unfold stop at hic
        split_ifs at hk <;> omega
      rw [hf₃.payload d (by simp) _ (by omega) (by unfold stop; omega)]
      exact (ByteMemory.copy_inside _ _ _ hik).trans
        (hf₁.payload c hc _ (by omega) hic)
  · unfold Heap.Mapped
    unfold stop at *
    omega
  · unfold Heap.Mapped
    unfold stop at *
    omega
  · unfold Extent.Apart stop at *
    omega

theorem mmMalloc_zero (s : Heap) : mmMalloc 0 s = some (NULL, s) := rfl

theorem mmRealloc_null (hn : 0 < size) (s : Heap) : mmRealloc NULL size s = mmMalloc size s := by
  simp [Malloc.mmRealloc, onlyIf, hn]

theorem mmRealloc_null_zero (s : Heap) : mmRealloc NULL 0 s = some (NULL, s) := by
  simp [Malloc.mmRealloc, onlyIf]
  rfl

theorem wp_mmRealloc_zero {Q : ℕ → Heap → Prop} (hp : p ≠ NULL) :
    wp (mmRealloc p 0) Q s ↔ wp (mmFree p) (fun _ s' ↦ Q NULL s') s := by
  rw [Malloc.mmRealloc, wp_ite, if_neg (lt_irrefl 0), wp_bind, wp_pure, wp_bind, wp_onlyIf,
    if_pos hp]
  simp only [wp_pure]

/-- Nothing checks the `(void *)-1` of a refused extension, so the header is written there. -/
theorem mmMalloc_outOfMemory (htop : s.memMaxAddr < 2 ^ 64) (hn : 0 < size)
    (h : OutOfMemory s size) : mmMalloc size s = none := by
  have hno : ∀ Q, ¬ wp (mmMalloc size) Q s := fun Q hw ↦ by
    rw [Malloc.mmMalloc, if_neg hn.ne', wp_bind, wp_of_eq h.1, wp_ite, if_neg (by simp), wp_bind,
      wp_of_eq h.2, setChunkSizeStatus, setChunkSize] at hw
    simp only [wp_bind, writeWord, wp_get, wp_ite] at hw
    rw [if_neg] at hw
    · exact wp_failure hw
    · unfold Heap.Mapped sbrkError
      omega
  rcases hm : mmMalloc size s with _ | ⟨p, s'⟩
  · rfl
  · exact absurd ⟨p, s', hm, trivial⟩ (hno fun _ _ ↦ True)

end CsoLabs.Malloc
