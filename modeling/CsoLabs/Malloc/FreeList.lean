import CsoLabs.Foundation.Intervals
import CsoLabs.Malloc.ListOps

namespace CsoLabs.Malloc

open Foundation

variable {N : Set ℕ} {s₀ s : Heap} {fl al x p n : ℕ} {h : HdrMap} {a f l r : List ℕ}

/-- The walk to the place of `x` in the free list: `l` is behind it, `r` is ahead. -/
theorem View.insertLoop (hv : View N s₀ s fl al h) (hf : Linked h fl (l ++ r))
    (hm : ∀ y ∈ l ++ r, y ∈ N) (hx : x ∈ N) (hxf : x ∉ l ++ r)
    (hs : (l ++ r).Pairwise (· < ·)) (hl : ∀ y ∈ l, y < x)
    (hstart : l = [] → ∀ y ∈ r.head?, y < x) {k : ℕ} (hk : r.length < k) :
    wp (insertLoop x k (r.headD NULL) (l.getLastD NULL)) (fun q s' ↦ ∃ l' r',
      l ++ r = l' ++ r' ∧ (∀ y ∈ l', y < x) ∧ (∀ y ∈ r', x < y) ∧
      (q.1 ≠ NULL ∧ l' ≠ [] ∧
          View N s₀ s' fl al (h.link (l'.getLastD NULL) x (r'.headD NULL)) ∨
        q.1 = NULL ∧ r' = [] ∧ q.2 = l'.getLastD NULL ∧ View N s₀ s' fl al h)) s := by
  induction r generalizing l k with
  | nil =>
    obtain ⟨k, rfl⟩ := Nat.exists_eq_succ_of_ne_zero (Nat.ne_of_gt hk)
    rw [Malloc.insertLoop, List.headD_nil, if_pos rfl, wp_pure]
    exact ⟨l, [], rfl, hl, by simp, .inr ⟨rfl, rfl, rfl, hv⟩⟩
  | cons t r ih =>
    obtain ⟨k, rfl⟩ := Nat.exists_eq_succ_of_ne_zero (Nat.ne_of_gt (Nat.zero_lt_of_lt hk))
    have htN : t ∈ N := hm t (by simp)
    have ht0 : t ≠ NULL := hv.nodes.ne_null htN
    rw [Malloc.insertLoop, List.headD_cons, if_neg ht0]
    split_ifs with hxt
    · have hl0 : l ≠ [] := fun he ↦ absurd (hstart he t (by simp)) (by omega)
      obtain ⟨l, p, rfl⟩ := (List.eq_nil_or_concat' l).resolve_left hl0
      have hpN : p ∈ N := hm p (by simp)
      have hpx : p ≠ x := fun he ↦ hxf (by simp [he])
      have hxt' : t ≠ x := by omega
      have hprev : (h t).prev = p := by simpa using DList.prev_eq hf
      have hpt : p ≠ t := by
        rintro rfl
        exact (List.nodup_append.mp hf.nodup).2.2 p (by simp) p (by simp) rfl
      refine (hv.setNext hx (hv.nodes.lt_of_link (.inr htN))).bind fun _ s₁ hv ↦ ?_
      rw [wp_bind, hv.getPrev htN]
      simp only [HdrMap.setNext_prev, hprev]
      refine (hv.setNext hpN (hv.nodes.lt_of_link (.inr hx))).bind fun _ s₂ hv ↦ ?_
      rw [wp_bind, hv.getPrev htN]
      simp only [HdrMap.setNext_prev, hprev]
      refine (hv.setPrev hx (hv.nodes.lt_of_link (.inr hpN))).bind fun _ s₃ hv ↦ ?_
      refine (hv.setPrev htN (hv.nodes.lt_of_link (.inr hx))).bind fun _ s₄ hv ↦ ?_
      rw [wp_pure]
      refine ⟨l ++ [p], t :: r, by simp, hl, fun y hy ↦ ?_, .inl ⟨ht0, by simp, hv.congr
        fun y hy ↦ ?_⟩⟩
      · rcases List.mem_cons.mp hy with rfl | hy
        · exact hxt
        · have := (List.pairwise_cons.mp (List.pairwise_append.mp hs).2.1).1 y hy
          omega
      · simp [HdrMap.writes_eq_link hpx.symm hxt'.symm]
    · have htx : t < x := by
        have : t ≠ x := fun he ↦ hxf (by simp [he])
        omega
      have happ : l ++ t :: r = (l ++ [t]) ++ r := by simp
      have hnext : (h t).next = r.headD NULL := DList.next_eq hf
      rw [wp_bind, hv.getNext htN, hnext]
      rw [happ] at hf hm hxf hs ⊢
      have := ih hf hm hxf hs (fun y hy ↦ ?_) (by simp) (Nat.lt_of_succ_lt_succ hk)
      · simpa using this
      · rcases List.mem_append.mp hy with hy | hy
        · exact hl y hy
        · simp only [List.mem_singleton] at hy; omega

theorem Nodes.length_le (hN : Nodes N s) (hd : f.Nodup) (hm : ∀ y ∈ f, y ∈ N) :
    f.length ≤ s.memMaxAddr - s.memStartBrk := by
  have hsub : f.toFinset ⊆ Finset.Ico s.memStartBrk s.memMaxAddr := by
    intro y hy
    have := hN.mapped y (hm y (List.mem_toFinset.mp hy))
    unfold Heap.Mapped headerSize at this
    exact Finset.mem_Ico.mpr (by omega)
  simpa [List.toFinset_card_of_nodup hd] using Finset.card_le_card hsub

theorem Lists.of_link {s' : Heap} (L : Lists N s a (l ++ r)) (hx : x ∈ N) (hxa : x ∉ a)
    (hxf : x ∉ l ++ r)
    (hv : View N s s' (l.headD x) s.globalAllocatedListHead
      (HdrMap.link s.hdr (l.getLastD NULL) x (r.headD NULL))) :
    Lists N s' a (l ++ x :: r) ∧ Keeps N s s' ∧ SameData N s s' := by
  have hsub : ∀ y ∈ l ++ x :: r, y = x ∨ y ∈ l ++ r := fun y hy ↦ by
    simp only [List.mem_append, List.mem_cons] at hy ⊢; tauto
  have hp : l.getLastD NULL ∉ a := by
    rcases List.eq_nil_or_concat' l with rfl | ⟨l, q, rfl⟩
    · exact L.alloc.null_notMem
    · intro hq
      exact L.disj q (by simpa using hq) (by simp)
  have hn : r.headD NULL ∉ a := by
    cases r with
    | nil => exact L.alloc.null_notMem
    | cons q r => exact fun hq ↦ L.disj q hq (by simp)
  refine ⟨hv.lists (L.alloc.link_other hxa hp hn) (L.free.link hxf (L.nodes.ne_null hx))
    (fun y hy ↦ ?_) (fun y hy hyf ↦ ?_), hv.keeps, fun y hy ↦ ?_⟩
  · rcases hy with hy | hy
    · exact L.mem y (.inl hy)
    · rcases hsub y hy with rfl | hy
      · exact hx
      · exact L.mem y (.inr hy)
  · rcases hsub y hyf with rfl | hyf
    · exact hxa hy
    · exact L.disj y hy hyf
  · rw [hv.hdr y hy]
    exact ⟨rfl, rfl⟩

theorem Lists.linkFreeList (L : Lists N s a f) (hf0 : f ≠ []) (hs : f.Pairwise (· < ·))
    (hx : x ∈ N) (hxa : x ∉ a) (hxf : x ∉ f) :
    wp (linkFreeList x s.globalFreeList) (fun _ s' ↦ ∃ l r, f = l ++ r ∧ (∀ y ∈ l, y < x) ∧
      (∀ y ∈ r, x < y) ∧ Lists N s' a (l ++ x :: r) ∧ Keeps N s s' ∧ SameData N s s') s := by
  obtain ⟨t, f, rfl⟩ := List.exists_cons_of_ne_nil hf0
  have htN : t ∈ N := L.mem t (.inr (by simp))
  have htx : t ≠ x := fun he ↦ hxf (by simp [he])
  have hfl : s.globalFreeList = t := L.free.head_eq
  have hv := View.refl L.nodes
  have hsorted := List.pairwise_cons.mp hs
  rw [Malloc.linkFreeList, hfl]
  split_ifs with hxt
  · refine (hv.setNext hx (hv.nodes.lt_of_link (.inr htN))).bind fun _ s₁ hv ↦ ?_
    refine (hv.setPrev hx (by decide)).bind fun _ s₂ hv ↦ ?_
    refine (hv.setPrev htN (hv.nodes.lt_of_link (.inr hx))).bind fun _ s₃ hv ↦ ?_
    refine (hv.setFreeList x).mono fun _ s₄ hv ↦
      ⟨[], t :: f, rfl, by simp, fun y hy ↦ ?_, L.of_link hx hxa hxf (hv.congr fun y hy ↦ ?_)⟩
    · rcases List.mem_cons.mp hy with rfl | hy
      · exact hxt
      · exact hxt.trans (hsorted.1 y hy)
    · have hy0 : y ≠ NULL := hv.nodes.ne_null hy
      have hx0 : x ≠ NULL := hv.nodes.ne_null hx
      rw [List.getLastD_nil, List.headD_cons, ← HdrMap.writes_eq_link hx0 htx.symm]
      ext <;> simp [hy0]
  · have hlt : t < x := by omega
    simp only [wp_bind, wp_get]
    have hlen := L.nodes.length_le L.free.nodup (fun y hy ↦ L.mem y (.inr hy))
    refine (hv.insertLoop (l := []) L.free (fun y hy ↦ L.mem y (.inr hy)) hx hxf hs (by simp)
      (fun _ y hy ↦ ?_) (k := s.fuel) ?_).mono fun q s₁ hloop ↦ ?_
    · obtain rfl : t = y := by simpa using hy
      exact hlt
    · unfold Heap.fuel
      omega
    · obtain ⟨l, r, hlr, hl, hr, hq⟩ := hloop
      rw [List.nil_append] at hlr
      rw [hlr] at L hxf
      have hl0 : l ≠ [] := by
        rintro rfl
        obtain rfl : r = t :: f := by simpa using hlr.symm
        exact absurd (hr t (by simp)) (by omega)
      have hhead : s.globalFreeList = l.headD x := by
        obtain ⟨y, l, rfl⟩ := List.exists_cons_of_ne_nil hl0
        exact L.free.head_eq
      refine wp_onlyIf.mpr ?_
      rcases hq with ⟨hq, -, hv⟩ | ⟨hq₁, rfl, hq₂, hv⟩
      · rw [if_neg (by simp [hq])]
        rw [hhead] at hv
        exact ⟨l, r, hlr, hl, hr, L.of_link hx hxa hxf hv⟩
      · obtain ⟨l, p, rfl⟩ := (List.eq_nil_or_concat' l).resolve_left hl0
        have hpN : p ∈ N := L.mem p (.inr (by simp))
        obtain rfl : q.2 = p := by simpa using hq₂
        rw [if_pos ⟨hv.nodes.ne_null hpN, hq₁⟩]
        refine (hv.setNext hpN (hv.nodes.lt_of_link (.inr hx))).bind fun _ s₂ hv ↦ ?_
        refine (hv.setPrev hx (hv.nodes.lt_of_link (.inr hpN))).bind fun _ s₃ hv ↦ ?_
        refine (hv.setNext hx (by decide)).mono fun _ s₄ hv ↦ ?_
        rw [hhead] at hv
        refine ⟨l ++ [q.2], [], hlr, hl, hr, L.of_link hx hxa hxf (hv.congr fun y hy ↦ ?_)⟩
        have hy0 : y ≠ NULL := hv.nodes.ne_null hy
        ext <;> simp [HdrMap.link, hy0]

end CsoLabs.Malloc
