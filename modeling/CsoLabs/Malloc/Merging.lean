import CsoLabs.Malloc.FreeList

namespace CsoLabs.Malloc

open Foundation Extent

structure Rep (N : Set ℕ) (s : Heap) (A F : List Extent) : Prop where
  lists : Lists N s (A.map addr) (F.map addr)
  alloc : ∀ c ∈ A, (s.hdr c.addr).size = c.size ∧ (s.hdr c.addr).status = 1
  free : ∀ c ∈ F, (s.hdr c.addr).size = c.size ∧ (s.hdr c.addr).status = 0

variable {N : Set ℕ} {s₀ s : Heap} {fl al x n : ℕ} {h : HdrMap} {A F l r : List Extent}
  {c d : Extent}

theorem Rep.mem_alloc (R : Rep N s A F) (hc : c ∈ A) : c.addr ∈ N :=
  R.lists.mem _ (.inl (List.mem_map_of_mem hc))

theorem Rep.mem_free (R : Rep N s A F) (hc : c ∈ F) : c.addr ∈ N :=
  R.lists.mem _ (.inr (List.mem_map_of_mem hc))

theorem Rep.alloc_ne_free (R : Rep N s A F) (hc : c ∈ A) (hd : d ∈ F) : c.addr ≠ d.addr :=
  fun he ↦ R.lists.disj _ (List.mem_map_of_mem hc) (he ▸ List.mem_map_of_mem hd)

theorem View.mergeRegions_apart (hv : View N s₀ s fl al h) (hx : x ∈ N)
    (hn : n = NULL ∨ x + (h x).size ≠ n) {Q : Bool → Heap → Prop} :
    wp (mergeRegions x n) Q s ↔ Q false s := by
  rw [mergeRegions, wp_ite]
  split_ifs with h0
  · exact wp_pure
  · obtain ⟨-, hn0⟩ := not_or.mp h0
    rw [wp_bind, hv.getChunkSize hx, wp_ite, if_neg (hn.resolve_left hn0), wp_pure]

theorem View.mergeRegions_touch (hv : View N s₀ s fl al h) (hx : x ∈ N) (hn : n ∈ N)
    (hxn : x ≠ n) (htouch : x + (h x).size = n) (hprev : (h n).prev = x)
    (hm : (h n).next = NULL ∨ (h n).next ∈ N)
    (hsize : (h x).size + (h n).size < 2 ^ 64) :
    wp (mergeRegions x n) (fun b s' ↦ b = true ∧ View N s₀ s' fl al
      (((h.unlink n).setSize x ((h x).size + (h n).size)).setStatus x 0)) s := by
  have hx0 := hv.nodes.ne_null hx
  have hn0 := hv.nodes.ne_null hn
  have hlt := hv.nodes.lt_of_link hm
  rw [mergeRegions, wp_ite, if_neg (by simp [hx0, hn0]), wp_bind, hv.getChunkSize hx, wp_ite,
    if_pos htouch, wp_bind, hv.getNext hn]
  refine (hv.setNext hx hlt).bind fun _ s₁ hv ↦ ?_
  have hnext : (h.setNext x (h n).next n).next = (h n).next := by simp [hxn.symm]
  rw [wp_bind, hv.getNext hn, hnext]
  have h₂ := hv.setPrev_link hm (hv.nodes.lt_of_link (.inr hx))
  rw [wp_bind, wp_onlyIf, wp_bind, hv.getNext hn, hnext]
  refine wp_onlyIf.mp ((wp_onlyIf.mpr (wp_onlyIf.mp h₂)).mono fun _ s₂ hv ↦ ?_)
  rw [wp_bind, hv.getChunkSize hx, wp_bind, hv.getChunkSize hn]
  simp only [HdrMap.setPrev_size, HdrMap.setNext_size, Nat.mod_eq_of_lt hsize]
  refine (hv.setChunkSizeStatus hx hsize false).bind fun _ s₃ hv ↦ ?_
  rw [wp_pure]
  exact ⟨rfl, by simpa only [HdrMap.unlink, hprev, Bool.toNat_false] using hv⟩

theorem Linked.setSize {xs : List ℕ} (hl : Linked h fl xs) (x v : ℕ) :
    Linked (h.setSize x v) fl xs := by
  simpa [Linked] using hl

theorem Rep.mergeRegions_touch (R : Rep N s A (l ++ c :: d :: r)) (htouch : c.stop = d.addr)
    (hstop : d.stop < 2 ^ 64) :
    wp (mergeRegions c.addr d.addr) (fun b s' ↦ b = true ∧
      Rep N s' A (l ++ ⟨c.addr, c.size + d.size⟩ :: r) ∧ Keeps N s s' ∧
      (s'.hdr d.addr).prev = c.addr) s := by
  have L := R.lists
  have hc : c ∈ l ++ c :: d :: r := by simp
  have hd : d ∈ l ++ c :: d :: r := by simp
  have hcN := R.mem_free hc
  have hdN := R.mem_free hd
  have hdm : d.addr ∈ (l ++ c :: d :: r).map addr := List.mem_map_of_mem hd
  have hmap : (l ++ c :: d :: r).map addr = (l.map addr ++ [c.addr]) ++ d.addr :: r.map addr := by
    simp
  have hfree := L.free
  rw [hmap] at hfree
  have hprev : (s.hdr d.addr).prev = c.addr := by simpa using DList.prev_eq hfree
  have hnodup := (List.nodup_append.mp hfree.nodup)
  have hcd : c.addr ≠ d.addr := hnodup.2.2 c.addr (by simp) d.addr (by simp)
  have hlinks := L.free.links_mem (fun y hy ↦ L.mem y (.inr hy)) hdm
  have hother := L.links_notMem' hdm
  have hnn : (s.hdr d.addr).next ≠ d.addr := by
    rw [DList.next_eq hfree]
    intro he
    cases r with
    | nil => exact L.nodes.ne_null hdN he.symm
    | cons e r => exact (List.nodup_cons.mp hnodup.2.1).1 (by simp [← he])
  refine ((View.refl L.nodes).mergeRegions_touch hcN hdN hcd
    (by rw [(R.free c hc).1]; exact htouch) hprev hlinks.2
    (by rw [(R.free c hc).1, (R.free d hd).1]; unfold stop at *; omega)).mono
      fun b s' ⟨hb, hv⟩ ↦ ⟨hb, ?_, hv.keeps, ?_⟩
  · have hhead : d.addr ≠ s.globalFreeList := by
      rw [hfree.head_eq]
      cases l with
      | nil => simpa using hcd.symm
      | cons e l => exact (hnodup.2.2 e.addr (by simp) d.addr (by simp)).symm
    have hfree' := hfree.unlink
    rw [if_neg hhead] at hfree'
    have hmap' : (l ++ ⟨c.addr, c.size + d.size⟩ :: r).map addr =
        (l.map addr ++ [c.addr]) ++ r.map addr := by simp
    have hsub : ∀ y ∈ (l ++ ⟨c.addr, c.size + d.size⟩ :: r).map addr,
        y ∈ (l ++ c :: d :: r).map addr := by
      rw [hmap', hmap]
      exact fun y hy ↦ mem_middle hy
    have hne : ∀ e ∈ l ++ r, e.addr ≠ c.addr := by
      intro e he hec
      rw [List.nodup_append] at hnodup
      rcases List.mem_append.mp he with he | he
      · exact hnodup.1.2.2 e.addr (List.mem_map_of_mem he) c.addr (by simp) hec
      · exact hnodup.2.2 c.addr (by simp) e.addr
          (List.mem_cons_of_mem _ (List.mem_map_of_mem he)) hec.symm
    refine ⟨?_, fun e he ↦ ?_, fun e he ↦ ?_⟩
    · refine hv.lists ?_ ?_ (fun y hy ↦ L.mem y (hy.imp_right (hsub y)))
        (fun y hy hy' ↦ L.disj y hy (hsub y hy'))
      · exact ((L.alloc.unlink_other hother.1 hother.2).setSize _ _).setStatus _ _
      · rw [hmap']
        exact (hfree'.setSize _ _).setStatus _ _
    · have := R.alloc e he
      rw [hv.hdr _ (R.mem_alloc he)]
      simpa [R.alloc_ne_free he hc] using this
    · simp only [List.mem_append, List.mem_cons] at he
      rcases he with he | rfl | he
      · have := R.free e (by simp [he])
        rw [hv.hdr _ (R.mem_free (by simp [he]))]
        simpa [hne e (by simp [he])] using this
      · rw [hv.hdr _ hcN]
        simp [(R.free c hc).1, (R.free d hd).1]
      · have := R.free e (by simp [he])
        rw [hv.hdr _ (R.mem_free (by simp [he]))]
        simpa [hne e (by simp [he])] using this
  · rw [hv.hdr _ hdN]
    simp [HdrMap.unlink, hprev, hnn.symm]

theorem Rep.mergeNext (R : Rep N s A (l ++ c :: r)) (hstop : ∀ d ∈ r, d.stop < 2 ^ 64) :
    wp (mergeRegions c.addr ((r.map addr).headD NULL)) (fun b s' ↦
      Rep N s' A (l ++ absorb c r) ∧ Keeps N s s' ∧
      (b = true → (s'.hdr ((r.map addr).headD NULL)).prev = c.addr ∧
        ∃ d r', r = d :: r' ∧ absorb c r = ⟨c.addr, c.size + d.size⟩ :: r')) s := by
  have hsize := (R.free c (by simp)).1
  have happart : ∀ n, n = NULL ∨ c.stop ≠ n → ∀ Q : Bool → Heap → Prop,
      wp (mergeRegions c.addr n) Q s ↔ Q false s := fun n hn Q ↦
    (View.refl R.lists.nodes).mergeRegions_apart (R.mem_free (by simp))
      (hn.imp_right fun h ↦ by rwa [hsize])
  cases r with
  | nil =>
    exact (happart _ (.inl rfl) _).mpr ⟨R, .refl N s, by simp⟩
  | cons d r =>
    by_cases htouch : c.stop = d.addr
    · refine (R.mergeRegions_touch htouch (hstop d (by simp))).mono fun b s' ⟨_, R', hk, hp⟩ ↦ ?_
      rw [absorb, if_pos htouch]
      exact ⟨R', hk, fun _ ↦ ⟨hp, d, r, rfl, rfl⟩⟩
    · refine (happart _ (.inr htouch) _).mpr ⟨?_, .refl N s, by simp⟩
      rwa [absorb, if_neg htouch]

theorem absorb_eq_cons (c : Extent) (r : List Extent) :
    ∃ c' r', absorb c r = c' :: r' ∧ c'.addr = c.addr ∧ c.size ≤ c'.size := by
  cases r with
  | nil => exact ⟨c, [], rfl, rfl, le_rfl⟩
  | cons d r =>
    rw [absorb]
    split_ifs
    · exact ⟨_, r, rfl, rfl, by simp⟩
    · exact ⟨c, d :: r, rfl, rfl, le_rfl⟩

theorem Rep.getNext (R : Rep N s A (l ++ c :: r)) {Q : ℕ → Heap → Prop} :
    wp (getNext c.addr) Q s ↔ Q ((r.map addr).headD NULL) s := by
  have hfree := R.lists.free
  rw [List.map_append, List.map_cons] at hfree
  rw [(View.refl R.lists.nodes).getNext (R.mem_free (by simp)), DList.next_eq hfree]

theorem Rep.getPrev (R : Rep N s A (l ++ c :: r)) {Q : ℕ → Heap → Prop} :
    wp (getPrev c.addr) Q s ↔ Q ((l.map addr).getLastD NULL) s := by
  have hfree := R.lists.free
  rw [List.map_append, List.map_cons] at hfree
  rw [(View.refl R.lists.nodes).getPrev (R.mem_free (by simp)), DList.prev_eq hfree]

/-- The first half of the merging: the second attempt finds nothing left to merge. -/
theorem Rep.mergeNextTwice (R : Rep N s A (l ++ c :: r)) (hsep : Separated (absorb c r))
    (hstop : ∀ d ∈ absorb c r, d.stop < 2 ^ 64) (hstop' : ∀ d ∈ r, d.stop < 2 ^ 64) :
    wp (do
      onlyIf (← mergeRegions c.addr (← Malloc.getNext c.addr)) do
        discard (mergeRegions c.addr (← Malloc.getNext c.addr)))
      (fun _ s' ↦ Rep N s' A (l ++ absorb c r) ∧ Keeps N s s') s := by
  rw [wp_bind, R.getNext, wp_bind]
  refine (R.mergeNext hstop').mono fun b s₁ ⟨R₁, hk, _⟩ ↦ ?_
  rw [wp_onlyIf]
  split_ifs
  · obtain ⟨c', r', hcr, haddr, -⟩ := absorb_eq_cons c r
    rw [hcr] at R₁ hsep hstop ⊢
    rw [wp_bind, ← haddr, R₁.getNext, wp_discard]
    refine (R₁.mergeNext fun d hd ↦ hstop d (by simp [hd])).mono fun _ s₂ ⟨R₂, hk₂, _⟩ ↦ ?_
    rw [absorb_of_separated hsep] at R₂
    exact ⟨R₂, hk.trans hk₂⟩
  · exact ⟨R₁, hk⟩

/-- The second half: once the predecessor has taken `c` in, the second attempt compares
the end of the grown predecessor with its middle. -/
theorem Rep.mergePrevTwice (R : Rep N s A (l ++ c :: r)) (hc : 0 < c.size)
    (hstop : ∀ d ∈ c :: r, d.stop < 2 ^ 64) :
    wp (do
      onlyIf (← mergeRegions (← Malloc.getPrev c.addr) c.addr) do
        discard (mergeRegions (← Malloc.getPrev c.addr) c.addr))
      (fun _ s' ↦ (∀ p l', l = l' ++ [p] → Rep N s' A (l' ++ absorb p (c :: r))) ∧
        (l = [] → Rep N s' A (c :: r)) ∧ Keeps N s s') s := by
  rw [wp_bind, R.getPrev, wp_bind]
  rcases List.eq_nil_or_concat' l with rfl | ⟨l, p, rfl⟩
  · rw [List.map_nil, List.getLastD_nil, mergeRegions, wp_ite, if_pos (.inl rfl), wp_pure,
      wp_onlyIf, if_neg (by simp)]
    exact ⟨by simp, fun _ ↦ R, .refl N s⟩
  · rw [List.append_assoc, List.singleton_append] at R
    have hpc : (List.map addr (l ++ [p])).getLastD NULL = p.addr := by simp
    have hhead : ((c :: r).map addr).headD NULL = c.addr := rfl
    rw [hpc, ← hhead]
    refine (R.mergeNext hstop).mono fun b s₁ ⟨R₁, hk, hb⟩ ↦ ?_
    have hend : (∀ p' l', l ++ [p] = l' ++ [p'] → Rep N s₁ A (l' ++ absorb p' (c :: r))) ∧
        (l ++ [p] = [] → Rep N s₁ A (c :: r)) ∧ Keeps N s s₁ := by
      refine ⟨fun p' l' he ↦ ?_, by simp, hk⟩
      obtain ⟨rfl, hp⟩ := List.append_inj' he rfl
      obtain rfl : p = p' := by simpa using hp
      exact R₁
    rw [wp_onlyIf]
    split_ifs with hb'
    · obtain ⟨hprev, d, r', hdr, habs⟩ := hb hb'
      obtain ⟨rfl, rfl⟩ : c = d ∧ r = r' := by simpa using hdr
      rw [habs] at R₁
      have hv := View.refl R₁.lists.nodes
      have hsize := (R₁.free ⟨p.addr, p.size + c.size⟩ (by simp)).1
      have hstart : p.stop = c.addr := by
        by_contra hne
        rw [absorb, if_neg hne] at habs
        simp only [List.cons.injEq] at habs
        exact absurd (congrArg List.length habs.2) (by simp)
      rw [hhead] at hprev ⊢
      rw [wp_bind, hv.getPrev (R.mem_free (by simp)), hprev, wp_discard,
        hv.mergeRegions_apart (R.mem_free (by simp)) (.inr ?_)]
      · exact hend
      · simp only at hsize
        rw [hsize]
        unfold stop at hstart
        omega
    · exact hend

theorem Rep.mergeNeighbours (R : Rep N s A (l ++ c :: r)) (hc : 0 < c.size)
    (hsep : Separated (absorb c r)) (hstop : ∀ d ∈ absorb c r, d.stop < 2 ^ 64)
    (hstop' : ∀ d ∈ r, d.stop < 2 ^ 64) :
    wp (mergeNeighbours c.addr)
      (fun _ s' ↦ Rep N s' A (coalesce l c r) ∧ Keeps N s s') s := by
  have heq : Malloc.mergeNeighbours c.addr = (do
      onlyIf (← mergeRegions c.addr (← Malloc.getNext c.addr)) do
        discard (mergeRegions c.addr (← Malloc.getNext c.addr))) >>= fun _ ↦ (do
      onlyIf (← mergeRegions (← Malloc.getPrev c.addr) c.addr) do
        discard (mergeRegions (← Malloc.getPrev c.addr) c.addr)) := by
    simp only [Malloc.mergeNeighbours, bind_assoc]
  rw [heq]
  refine (R.mergeNextTwice hsep hstop hstop').bind fun _ s₁ hnext ↦ ?_
  obtain ⟨R₁, hk₁⟩ := hnext
  obtain ⟨c', r', hcr, haddr, hsize⟩ := absorb_eq_cons c r
  rw [hcr] at R₁ hstop
  rw [← haddr]
  refine (R₁.mergePrevTwice (by omega) hstop).mono fun _ s₂ hprev ↦ ?_
  obtain ⟨hp, hnil, hk₂⟩ := hprev
  refine ⟨?_, hk₁.trans hk₂⟩
  rcases List.eq_nil_or_concat' l with rfl | ⟨l, p, rfl⟩
  · rw [coalesce_nil, hcr]
    exact hnil rfl
  · rw [coalesce_concat, hcr]
    exact hp p l rfl

theorem Rep.of_sameData {s' : Heap} (R : Rep N s A F) {A' F' : List Extent}
    (hd : SameData N s s') (L : Lists N s' (A'.map addr) (F'.map addr))
    (hA : ∀ c ∈ A', c ∈ A ∨ (s.hdr c.addr).size = c.size ∧ (s.hdr c.addr).status = 1)
    (hF : ∀ c ∈ F', c ∈ F ∨ (s.hdr c.addr).size = c.size ∧ (s.hdr c.addr).status = 0) :
    Rep N s' A' F' := by
  refine ⟨L, fun c hc ↦ ?_, fun c hc ↦ ?_⟩
  · have hdc := hd c.addr (L.mem _ (.inl (List.mem_map_of_mem hc)))
    rw [hdc.1, hdc.2]
    exact (hA c hc).elim (R.alloc c) id
  · have hdc := hd c.addr (L.mem _ (.inr (List.mem_map_of_mem hc)))
    rw [hdc.1, hdc.2]
    exact (hF c hc).elim (R.free c) id

/-- The chunk `c` comes into the free list at its place and merges with its neighbours. -/
theorem Rep.insertFreeList (R : Rep N s A F) (hc : c.addr ∈ N) (hcA : c.addr ∉ A.map addr)
    (hsize : (s.hdr c.addr).size = c.size) (hpos : 0 < c.size) (hposF : ∀ d ∈ F, 0 < d.size)
    (hsep : Separated F) (hap : ∀ d ∈ F, c.Apart d) (hstop : ∀ d ∈ F, d.stop < 2 ^ 64)
    (hstopc : c.stop < 2 ^ 64) :
    wp (insertFreeList c.addr) (fun _ s' ↦ ∃ l r, F = l ++ r ∧ (∀ d ∈ l, d.stop ≤ c.addr) ∧
      (∀ d ∈ r, c.stop ≤ d.addr) ∧ Rep N s' A (coalesce l c r) ∧ Keeps N s s') s := by
  have hcF : c.addr ∉ F.map addr := by
    intro hmem
    obtain ⟨d, hd, hdc⟩ := List.mem_map.mp hmem
    have := hap d hd
    have := hposF d hd
    unfold Extent.Apart stop at *
    omega
  have hascend : (F.map addr).Pairwise (· < ·) := by
    refine List.pairwise_map.mpr (hsep.imp fun h ↦ ?_)
    unfold stop at h
    omega
  rw [Malloc.insertFreeList]
  simp only [wp_bind, wp_get]
  refine ((View.refl R.lists.nodes).setChunkStatus hc false).mono fun _ s₁ hv ↦ ?_
  have L₁ : Lists N s₁ (A.map addr) (F.map addr) :=
    hv.lists (R.lists.alloc.setStatus _ _) (R.lists.free.setStatus _ _) R.lists.mem R.lists.disj
  have hne : ∀ d, d ∈ A ∨ d ∈ F → d.addr ≠ c.addr := by
    rintro d (hd | hd) he
    · exact hcA (he ▸ List.mem_map_of_mem hd)
    · exact hcF (he ▸ List.mem_map_of_mem hd)
  have R₁ : Rep N s₁ A F := by
    refine ⟨L₁, fun d hd ↦ ?_, fun d hd ↦ ?_⟩
    · rw [hv.hdr _ (R.mem_alloc hd)]
      simpa [hne d (.inl hd)] using R.alloc d hd
    · rw [hv.hdr _ (R.mem_free hd)]
      simpa [hne d (.inr hd)] using R.free d hd
  have hc₁ : (s₁.hdr c.addr).size = c.size ∧ (s₁.hdr c.addr).status = 0 := by
    rw [hv.hdr _ hc]
    simpa using hsize
  have hfl : s.globalFreeList = s₁.globalFreeList := hv.freeList.symm
  have hk₁ := hv.keeps
  rw [wp_ite]
  split_ifs with hnull
  · have hnil : F = [] := by
      cases F with
      | nil => rfl
      | cons d F =>
        have : s.globalFreeList = d.addr := R.lists.free.head_eq
        exact absurd (this ▸ hnull) (R.lists.nodes.ne_null (R.mem_free (by simp)))
    subst hnil
    have hv := View.refl L₁.nodes
    refine (hv.setFreeList c.addr).bind fun _ s₂ hv ↦ ?_
    refine (hv.setPrev hc (by decide)).bind fun _ s₃ hv ↦ ?_
    refine (hv.setNext hc (by decide)).mono fun _ s₄ hv ↦ ?_
    obtain ⟨L, hk, hd⟩ := L₁.of_link (l := []) (r := []) hc hcA (by simp) (hv.congr fun y hy ↦ by
      have hy0 : y ≠ NULL := hv.nodes.ne_null hy
      ext <;> simp [HdrMap.link, hy0])
    exact ⟨[], [], rfl, by simp, by simp, R₁.of_sameData hd L (fun _ h ↦ .inl h)
      (fun d hd ↦ .inr (by simp only [coalesce_nil, absorb, List.mem_singleton] at hd; rwa [hd])),
      hk₁.trans hk⟩
  · have hF0 : F.map addr ≠ [] := by
      intro he
      have := R.lists.free.head_eq
      rw [he] at this
      exact hnull this
    rw [hfl]
    refine (L₁.linkFreeList hF0 hascend hc hcA hcF).bind fun _ s₂ hlink ↦ ?_
    obtain ⟨l', r', hlr, hl, hr, L₂, hk₂, hd₂⟩ := hlink
    obtain ⟨l, r, rfl, rfl, rfl⟩ := List.map_eq_append_iff.mp hlr
    have hl' : ∀ d ∈ l, d.stop ≤ c.addr := fun d hd ↦ by
      have h₁ := hl d.addr (List.mem_map_of_mem hd)
      have h₂ := hap d (by simp [hd])
      unfold Extent.Apart stop at *
      omega
    have hr' : ∀ d ∈ r, c.stop ≤ d.addr := fun d hd ↦ by
      have h₁ := hr d.addr (List.mem_map_of_mem hd)
      have h₂ := hap d (by simp [hd])
      have h₃ := hposF d (by simp [hd])
      unfold Extent.Apart stop at *
      omega
    have R₂ : Rep N s₂ A (l ++ c :: r) := by
      refine R₁.of_sameData hd₂ (by simpa using L₂) (fun _ h ↦ .inl h) fun d hd ↦ ?_
      simp only [List.mem_append, List.mem_cons] at hd ⊢
      rcases hd with hd | rfl | hd
      · exact .inl (.inl hd)
      · exact .inr hc₁
      · exact .inl (.inr hd)
    have hsepr := (List.pairwise_append.mp hsep).2.1
    refine (R₂.mergeNeighbours hpos
      (absorb_separated hsepr hr' (fun d hd ↦ hposF d (by simp [hd])))
      (absorb_forall hstopc (fun d hd ↦ hstop d (by simp [hd])) fun e d _ hd hed ↦ ?_)
      (fun d hd ↦ hstop d (by simp [hd]))).mono fun _ s₃ hmerge ↦ ?_
    · unfold stop at *
      simp only
      omega
    · obtain ⟨R₃, hk₃⟩ := hmerge
      exact ⟨l, r, rfl, hl', hr', R₃, hk₁.trans (hk₂.trans hk₃)⟩

end CsoLabs.Malloc
