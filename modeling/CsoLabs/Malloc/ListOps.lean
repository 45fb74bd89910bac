import CsoLabs.Foundation.DoublyLinked
import CsoLabs.Malloc.Headers

namespace CsoLabs.Malloc

open Foundation

abbrev Linked (h : HdrMap) (head : ℕ) (xs : List ℕ) : Prop :=
  DList (fun y ↦ (h y).next) (fun y ↦ (h y).prev) NULL head xs

structure Lists (N : Set ℕ) (s : Heap) (a f : List ℕ) : Prop where
  nodes : Nodes N s
  alloc : Linked s.hdr s.globalAllocatedListHead a
  free : Linked s.hdr s.globalFreeList f
  mem : ∀ x, x ∈ a ∨ x ∈ f → x ∈ N
  disj : ∀ x ∈ a, x ∉ f

variable {N : Set ℕ} {s₀ s : Heap} {fl al x p n t : ℕ} {h h' : HdrMap} {a f l r xs : List ℕ}

theorem mem_middle {α : Type*} {c d : α} {l r : List α} (h : d ∈ l ++ r) : d ∈ l ++ c :: r := by
  simp only [List.mem_append, List.mem_cons] at h ⊢
  exact h.imp_right .inr

theorem Linked.congr (hl : Linked h fl xs) (hh : ∀ y ∈ xs, h y = h' y) : Linked h' fl xs :=
  DList.congr hl (fun y hy ↦ by simp only [hh y hy]) (fun y hy ↦ by simp only [hh y hy])

theorem View.lists (hv : View N s₀ s fl al h) (ha : Linked h al a) (hf : Linked h fl f)
    (hm : ∀ x, x ∈ a ∨ x ∈ f → x ∈ N) (hd : ∀ x ∈ a, x ∉ f) : Lists N s a f where
  nodes := hv.nodes.of_keeps hv.keeps
  alloc := hv.allocatedList ▸ ha.congr fun y hy ↦ (hv.hdr y (hm y (.inl hy))).symm
  free := hv.freeList ▸ hf.congr fun y hy ↦ (hv.hdr y (hm y (.inr hy))).symm
  mem := hm
  disj := hd

def HdrMap.unlink (h : HdrMap) (x : ℕ) : HdrMap :=
  (h.setNext (h x).prev (h x).next).setPrev (h x).next (h x).prev

def HdrMap.link (h : HdrMap) (p x n : ℕ) : HdrMap := fun y ↦
  { h y with
    next := if y = x then n else if y = p then x else (h y).next
    prev := if y = x then p else if y = n then x else (h y).prev }

theorem HdrMap.writes_eq_link (hp : x ≠ p) (hn : x ≠ n) :
    (((h.setNext x n).setNext p x).setPrev x p).setPrev n x = h.link p x n := by
  funext y
  by_cases hy : y = x
  · subst hy
    ext <;> simp [HdrMap.link, hp, hn]
  · ext <;> simp [HdrMap.link, hy]

@[simp] theorem HdrMap.unlink_size (y : ℕ) : (h.unlink x y).size = (h y).size := by
  simp [HdrMap.unlink]

@[simp] theorem HdrMap.unlink_status (y : ℕ) : (h.unlink x y).status = (h y).status := by
  simp [HdrMap.unlink]

theorem Linked.unlink (hl : Linked h fl (l ++ x :: r)) :
    Linked (h.unlink x) (if x = fl then (h x).next else fl) (l ++ r) :=
  DList.remove hl (fun y _ ↦ by simp [HdrMap.unlink]) (fun y _ ↦ by simp [HdrMap.unlink])

theorem Linked.link (hl : Linked h fl (l ++ r)) (hx : x ∉ l ++ r) (hx0 : x ≠ NULL) :
    Linked (h.link (l.getLastD NULL) x (r.headD NULL)) (l.headD x) (l ++ x :: r) := by
  have hne : ∀ y ∈ l ++ r, y ≠ x := fun y hy hyx ↦ hx (hyx ▸ hy)
  exact DList.insert hl hx hx0 (by simp [HdrMap.link]) (by simp [HdrMap.link])
    (fun y hy ↦ by simp [HdrMap.link, hne y hy]) (fun y hy ↦ by simp [HdrMap.link, hne y hy])

theorem Linked.head_ne (hl : Linked h fl xs) (hx : x ∉ xs) (hx0 : x ≠ NULL) : x ≠ fl := by
  rintro rfl
  have := DList.head_eq hl
  cases xs with
  | nil => exact hx0 this
  | cons y xs => exact hx (by simp [this])

theorem Linked.unlink_other (hl : Linked h fl xs) (hp : (h x).prev ∉ xs) (hn : (h x).next ∉ xs) :
    Linked (h.unlink x) fl xs := by
  refine hl.congr fun y hy ↦ ?_
  have hyp : y ≠ (h x).prev := fun he ↦ hp (he ▸ hy)
  have hyn : y ≠ (h x).next := fun he ↦ hn (he ▸ hy)
  ext <;> simp [HdrMap.unlink, hyp, hyn]

theorem Linked.link_other (hl : Linked h fl xs) (hx : x ∉ xs) (hp : p ∉ xs) (hn : n ∉ xs) :
    Linked (h.link p x n) fl xs := by
  refine hl.congr fun y hy ↦ ?_
  have hyx : y ≠ x := fun he ↦ hx (he ▸ hy)
  have hyp : y ≠ p := fun he ↦ hp (he ▸ hy)
  have hyn : y ≠ n := fun he ↦ hn (he ▸ hy)
  ext <;> simp [HdrMap.link, hyx, hyp, hyn]

theorem View.removeFromList (hv : View N s₀ s fl al h) (hx : x ∈ N)
    (hp : (h x).prev = NULL ∨ (h x).prev ∈ N) (hn : (h x).next = NULL ∨ (h x).next ∈ N)
    (hxp : x ≠ (h x).prev) :
    wp (removeFromList x) (fun _ s' ↦ View N s₀ s' (if x = fl then (h x).next else fl)
      (if x = al then (h x).next else al) (h.unlink x)) s := by
  rw [Malloc.removeFromList]
  simp only [wp_bind, wp_get]
  have h₁ : wp (onlyIf (x = s.globalFreeList)
      (do Malloc.setFreeList (← Malloc.getNext x))) (fun _ s' ↦
      View N s₀ s' (if x = fl then (h x).next else fl) al h) s := by
    rw [wp_onlyIf, hv.freeList]
    split_ifs
    · rw [wp_bind, hv.getNext hx]
      exact hv.setFreeList _
    · exact hv
  refine h₁.mono fun _ s₁ hv ↦ ?_
  generalize (if x = fl then (h x).next else fl) = fl' at hv ⊢
  have h₂ : wp (onlyIf (x = s₁.globalAllocatedListHead)
      (do Malloc.setAllocatedList (← Malloc.getNext x))) (fun _ s' ↦
      View N s₀ s' fl' (if x = al then (h x).next else al) h) s₁ := by
    rw [wp_onlyIf, hv.allocatedList]
    split_ifs
    · rw [wp_bind, hv.getNext hx]
      exact hv.setAllocatedList _
    · exact hv
  refine h₂.mono fun _ s₂ hv ↦ ?_
  rw [hv.getPrev hx]
  have h₃ : wp (onlyIf ((h x).prev ≠ NULL) (do
      Malloc.setNext (← Malloc.getPrev x) (← Malloc.getNext x))) (fun _ s' ↦
      View N s₀ s' fl' (if x = al then (h x).next else al)
        (h.setNext (h x).prev (h x).next)) s₂ := by
    have := hv.setNext_link hp (hv.nodes.lt_of_link hn)
    rw [wp_onlyIf] at this ⊢
    simpa only [wp_bind, hv.getPrev hx, hv.getNext hx] using this
  refine h₃.mono fun _ s₃ hv ↦ ?_
  have hnext : (h.setNext (h x).prev (h x).next x).next = (h x).next := by simp [hxp]
  have := hv.setPrev_link hn (hv.nodes.lt_of_link hp)
  rw [hv.getNext hx, hnext]
  rw [wp_onlyIf] at this ⊢
  simpa only [wp_bind, hv.getPrev hx, hv.getNext hx, hnext, HdrMap.setNext_prev,
    HdrMap.unlink] using this

def SameData (N : Set ℕ) (s s' : Heap) : Prop :=
  ∀ y ∈ N, (s'.hdr y).size = (s.hdr y).size ∧ (s'.hdr y).status = (s.hdr y).status

theorem Linked.links_mem (hl : Linked h fl xs) (hm : ∀ y ∈ xs, y ∈ N) (hx : x ∈ xs) :
    ((h x).prev = NULL ∨ (h x).prev ∈ N) ∧ ((h x).next = NULL ∨ (h x).next ∈ N) :=
  ⟨(DList.prev_mem hl hx).imp_right (hm _), (DList.next_mem hl hx).imp_right (hm _)⟩

theorem Linked.prev_ne (hl : Linked h fl xs) (hx : x ∈ xs) : x ≠ (h x).prev := by
  obtain ⟨l, r, rfl⟩ := List.append_of_mem hx
  rw [DList.prev_eq hl]
  have hd := (List.nodup_append.mp (DList.nodup hl)).2.2
  rcases List.eq_nil_or_concat' l with rfl | ⟨l, p, rfl⟩
  · rintro rfl
    exact DList.null_notMem hl (by simp)
  · intro he
    exact hd p (by simp) x (by simp) (by simpa using he.symm)

theorem Lists.links_notMem (L : Lists N s a f) (hx : x ∈ a) :
    (s.hdr x).prev ∉ f ∧ (s.hdr x).next ∉ f := by
  constructor
  · rcases DList.prev_mem L.alloc hx with h | h
    · exact h ▸ L.free.null_notMem
    · exact L.disj _ h
  · rcases DList.next_mem L.alloc hx with h | h
    · exact h ▸ L.free.null_notMem
    · exact L.disj _ h

theorem Lists.links_notMem' (L : Lists N s a f) (hx : x ∈ f) :
    (s.hdr x).prev ∉ a ∧ (s.hdr x).next ∉ a := by
  constructor
  · rcases DList.prev_mem L.free hx with h | h
    · exact h ▸ L.alloc.null_notMem
    · exact fun h' ↦ L.disj _ h' h
  · rcases DList.next_mem L.free hx with h | h
    · exact h ▸ L.alloc.null_notMem
    · exact fun h' ↦ L.disj _ h' h

theorem Lists.removeAllocated (L : Lists N s (l ++ x :: r) f) :
    wp (removeFromList x)
      (fun _ s' ↦ Lists N s' (l ++ r) f ∧ Keeps N s s' ∧ SameData N s s') s := by
  have hx : x ∈ l ++ x :: r := by simp
  have hlinks := L.alloc.links_mem (fun y hy ↦ L.mem y (.inl hy)) hx
  have hother := L.links_notMem hx
  refine ((View.refl L.nodes).removeFromList (L.mem x (.inl hx)) hlinks.1 hlinks.2
    (L.alloc.prev_ne hx)).mono fun _ s' hv ↦ ⟨?_, hv.keeps, fun y hy ↦ by simp [hv.hdr y hy]⟩
  rw [if_neg (L.free.head_ne (L.disj x hx) (L.nodes.ne_null (L.mem x (.inl hx))))] at hv
  exact hv.lists L.alloc.unlink (L.free.unlink_other hother.1 hother.2)
    (fun y hy ↦ L.mem y (hy.imp_left mem_middle)) (fun y hy ↦ L.disj y (mem_middle hy))

theorem Lists.removeFree (L : Lists N s a (l ++ x :: r)) :
    wp (removeFromList x)
      (fun _ s' ↦ Lists N s' a (l ++ r) ∧ Keeps N s s' ∧ SameData N s s') s := by
  have hx : x ∈ l ++ x :: r := by simp
  have hlinks := L.free.links_mem (fun y hy ↦ L.mem y (.inr hy)) hx
  have hother := L.links_notMem' hx
  refine ((View.refl L.nodes).removeFromList (L.mem x (.inr hx)) hlinks.1 hlinks.2
    (L.free.prev_ne hx)).mono fun _ s' hv ↦ ⟨?_, hv.keeps, fun y hy ↦ by simp [hv.hdr y hy]⟩
  rw [if_neg (L.alloc.head_ne (fun h ↦ L.disj x h hx) (L.nodes.ne_null (L.mem x (.inr hx))))] at hv
  exact hv.lists (L.alloc.unlink_other hother.1 hother.2) L.free.unlink
    (fun y hy ↦ L.mem y (hy.imp_right mem_middle)) (fun y hy h ↦ L.disj y hy (mem_middle h))

theorem View.insertAllocatedList (hv : View N s₀ s fl al h) (hx : x ∈ N)
    (ha : al = NULL ∨ al ∈ N) :
    wp (insertAllocatedList x)
      (fun _ s' ↦ View N s₀ s' fl x ((h.setStatus x 1).link NULL x al)) s := by
  rw [Malloc.insertAllocatedList]
  refine (hv.setChunkStatus hx true).bind fun _ s₁ hv ↦ ?_
  simp only [wp_bind, wp_get, hv.allocatedList]
  refine (hv.setNext hx (hv.nodes.lt_of_link ha)).mono fun _ s₂ hv ↦ ?_
  have hset := hv.setPrev_link ha (hv.nodes.lt_of_link (.inr hx))
  rw [← hv.allocatedList] at hset ⊢
  simp only [wp_onlyIf, wp_bind, wp_get] at hset ⊢
  refine wp_onlyIf.mp ((wp_onlyIf.mpr hset).mono fun _ s₃ hv ↦ ?_)
  refine (hv.setPrev hx (by decide)).mono fun _ s₄ hv ↦ ?_
  refine (hv.setAllocatedList x).mono fun _ s₅ hv ↦ hv.congr fun y hy ↦ ?_
  have hy0 : y ≠ NULL := hv.nodes.ne_null hy
  ext <;> simp [HdrMap.link, hy0]

theorem Linked.setStatus (hl : Linked h fl xs) (x v : ℕ) : Linked (h.setStatus x v) fl xs := by
  simpa [Linked] using hl

theorem Lists.head_mem (L : Lists N s a f) :
    s.globalAllocatedListHead = NULL ∨ s.globalAllocatedListHead ∈ N := by
  have := L.alloc.head_eq
  cases a with
  | nil => exact .inl this
  | cons y a => exact .inr (this ▸ L.mem y (.inl (by simp)))

theorem Lists.insertAllocated (L : Lists N s a f) (hx : x ∈ N) (hxa : x ∉ a) (hxf : x ∉ f) :
    wp (insertAllocatedList x)
      (fun _ s' ↦ Lists N s' (x :: a) f ∧ Keeps N s s' ∧ ∀ y ∈ N, (s'.hdr y).size = (s.hdr y).size ∧
        (s'.hdr y).status = if y = x then 1 else (s.hdr y).status) s := by
  refine ((View.refl L.nodes).insertAllocatedList hx L.head_mem).mono fun _ s' hv ↦
    ⟨?_, hv.keeps, fun y hy ↦ by simp [hv.hdr y hy, HdrMap.link]⟩
  have ha := (L.alloc.setStatus x 1).link (l := []) hxa (L.nodes.ne_null hx)
  have hhead : s.globalAllocatedListHead ∉ f := by
    have := L.alloc.head_eq
    cases a with
    | nil => exact this ▸ L.free.null_notMem
    | cons y a => exact this ▸ L.disj y (by simp)
  rw [← L.alloc.head_eq] at ha
  refine hv.lists ha ((L.free.setStatus x 1).link_other hxf L.free.null_notMem hhead)
    (fun y hy ↦ ?_) (fun y hy ↦ ?_)
  · rcases hy with hy | hy
    · rcases List.mem_cons.mp hy with rfl | hy
      · exact hx
      · exact L.mem y (.inl hy)
    · exact L.mem y (.inr hy)
  · rcases List.mem_cons.mp hy with rfl | hy
    · exact hxf
    · exact L.disj y hy

end CsoLabs.Malloc
