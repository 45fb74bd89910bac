import CsoLabs.Malloc.Model

namespace CsoLabs.Malloc

open Foundation ByteMemory

@[ext] structure Hdr where
  size : ℕ
  next : ℕ
  prev : ℕ
  status : ℕ

def Heap.hdr (s : Heap) (x : ℕ) : Hdr :=
  ⟨load s.mem x 8, load s.mem (x + 8) 8, load s.mem (x + 16) 8, load s.mem (x + 24) 8⟩

abbrev HdrMap := ℕ → Hdr

namespace HdrMap

variable (h : HdrMap) (x v : ℕ)

def setSize : HdrMap := fun y ↦ if y = x then { h y with size := v } else h y
def setNext : HdrMap := fun y ↦ if y = x then { h y with next := v } else h y
def setPrev : HdrMap := fun y ↦ if y = x then { h y with prev := v } else h y
def setStatus : HdrMap := fun y ↦ if y = x then { h y with status := v } else h y

variable (y : ℕ)

@[simp] theorem setSize_size : (setSize h x v y).size = if y = x then v else (h y).size := by
  unfold setSize; split_ifs <;> rfl
@[simp] theorem setSize_next : (setSize h x v y).next = (h y).next := by
  unfold setSize; split_ifs <;> rfl
@[simp] theorem setSize_prev : (setSize h x v y).prev = (h y).prev := by
  unfold setSize; split_ifs <;> rfl
@[simp] theorem setSize_status : (setSize h x v y).status = (h y).status := by
  unfold setSize; split_ifs <;> rfl

@[simp] theorem setNext_size : (setNext h x v y).size = (h y).size := by
  unfold setNext; split_ifs <;> rfl
@[simp] theorem setNext_next : (setNext h x v y).next = if y = x then v else (h y).next := by
  unfold setNext; split_ifs <;> rfl
@[simp] theorem setNext_prev : (setNext h x v y).prev = (h y).prev := by
  unfold setNext; split_ifs <;> rfl
@[simp] theorem setNext_status : (setNext h x v y).status = (h y).status := by
  unfold setNext; split_ifs <;> rfl

@[simp] theorem setPrev_size : (setPrev h x v y).size = (h y).size := by
  unfold setPrev; split_ifs <;> rfl
@[simp] theorem setPrev_next : (setPrev h x v y).next = (h y).next := by
  unfold setPrev; split_ifs <;> rfl
@[simp] theorem setPrev_prev : (setPrev h x v y).prev = if y = x then v else (h y).prev := by
  unfold setPrev; split_ifs <;> rfl
@[simp] theorem setPrev_status : (setPrev h x v y).status = (h y).status := by
  unfold setPrev; split_ifs <;> rfl

@[simp] theorem setStatus_size : (setStatus h x v y).size = (h y).size := by
  unfold setStatus; split_ifs <;> rfl
@[simp] theorem setStatus_next : (setStatus h x v y).next = (h y).next := by
  unfold setStatus; split_ifs <;> rfl
@[simp] theorem setStatus_prev : (setStatus h x v y).prev = (h y).prev := by
  unfold setStatus; split_ifs <;> rfl
@[simp] theorem setStatus_status :
    (setStatus h x v y).status = if y = x then v else (h y).status := by
  unfold setStatus; split_ifs <;> rfl

end HdrMap

structure Nodes (N : Set ℕ) (s : Heap) : Prop where
  pos : 0 < s.memStartBrk
  top : s.memMaxAddr < 2 ^ 64
  mapped : ∀ x ∈ N, s.Mapped x headerSize
  apart : ∀ x ∈ N, ∀ y ∈ N, x ≠ y → x + headerSize ≤ y ∨ y + headerSize ≤ x

/-- Nothing but headers at `N` and the list heads differs. -/
structure Keeps (N : Set ℕ) (s s' : Heap) : Prop where
  memStartBrk : s'.memStartBrk = s.memStartBrk
  memBrk : s'.memBrk = s.memBrk
  memMaxAddr : s'.memMaxAddr = s.memMaxAddr
  bytes : ∀ b, (∀ x ∈ N, b < x ∨ x + headerSize ≤ b) → s'.mem b = s.mem b

structure View (N : Set ℕ) (s₀ s : Heap) (fl al : ℕ) (h : HdrMap) : Prop where
  nodes : Nodes N s₀
  keeps : Keeps N s₀ s
  freeList : s.globalFreeList = fl
  allocatedList : s.globalAllocatedListHead = al
  hdr : ∀ y ∈ N, s.hdr y = h y

variable {N M : Set ℕ} {s₀ s s' s'' : Heap} {fl al x y v : ℕ} {h h' : HdrMap}

theorem Keeps.refl (N : Set ℕ) (s : Heap) : Keeps N s s := ⟨rfl, rfl, rfl, fun _ _ ↦ rfl⟩

theorem Keeps.trans (h₁ : Keeps N s s') (h₂ : Keeps N s' s'') : Keeps N s s'' :=
  ⟨h₂.1.trans h₁.1, h₂.2.trans h₁.2, h₂.3.trans h₁.3,
    fun b hb ↦ (h₂.bytes b hb).trans (h₁.bytes b hb)⟩

theorem Keeps.mono (hk : Keeps N s s') (hNM : N ⊆ M) : Keeps M s s' :=
  ⟨hk.1, hk.2, hk.3, fun b hb ↦ hk.bytes b fun x hx ↦ hb x (hNM hx)⟩

theorem Nodes.of_keeps (hN : Nodes N s) (hk : Keeps M s s') : Nodes N s' := by
  refine ⟨hk.1 ▸ hN.pos, hk.3 ▸ hN.top, fun x hx ↦ ?_, hN.apart⟩
  have := hN.mapped x hx
  unfold Heap.Mapped at *
  rw [hk.1, hk.3]
  exact this

theorem Nodes.mono (hN : Nodes N s) (hMN : M ⊆ N) : Nodes M s :=
  ⟨hN.pos, hN.top, fun x hx ↦ hN.mapped x (hMN hx),
    fun x hx y hy ↦ hN.apart x (hMN hx) y (hMN hy)⟩

theorem Nodes.ne_null (hN : Nodes N s) (hx : x ∈ N) : x ≠ NULL := by
  have := (hN.mapped x hx).1
  have := hN.pos
  unfold NULL
  omega

theorem Nodes.lt (hN : Nodes N s) (hx : x ∈ N) : x + headerSize < 2 ^ 64 := by
  have := (hN.mapped x hx).2
  have := hN.top
  omega

theorem Nodes.lt_of_link (hN : Nodes N s) (hx : x = NULL ∨ x ∈ N) : x < 2 ^ 64 := by
  rcases hx with rfl | hx
  · decide
  · have := hN.lt hx
    omega

theorem View.refl (hN : Nodes N s) :
    View N s s s.globalFreeList s.globalAllocatedListHead s.hdr :=
  ⟨hN, .refl N s, rfl, rfl, fun _ _ ↦ rfl⟩

theorem View.congr (hv : View N s₀ s fl al h) (hh : ∀ y ∈ N, h y = h' y) :
    View N s₀ s fl al h' :=
  ⟨hv.nodes, hv.keeps, hv.freeList, hv.allocatedList, fun y hy ↦ (hv.hdr y hy).trans (hh y hy)⟩

theorem load_store_word (m : Memory) (a : ℕ) (hv : v < 2 ^ 64) :
    load (store m a 8 v) a 8 = v := load_store_of_lt m a (by omega)

theorem hdr_store_of_disjoint (s : Heap) {a : ℕ} (hay : a + 8 ≤ y ∨ y + headerSize ≤ a) :
    ({ s with mem := store s.mem a 8 v } : Heap).hdr y = s.hdr y := by
  unfold headerSize at hay
  simp (disch := omega) only [Heap.hdr, load_store_of_disjoint]

theorem wp_readWord {a : ℕ} {Q : ℕ → Heap → Prop} (ha : s.Mapped a 8) :
    wp (readWord a) Q s ↔ Q (load s.mem a 8) s := by
  simp [readWord, wp_ite, ha]

theorem wp_writeWord {a : ℕ} {Q : Unit → Heap → Prop} (ha : s.Mapped a 8) :
    wp (writeWord a v) Q s ↔ Q () { s with mem := store s.mem a 8 v } := by
  simp [writeWord, wp_ite, ha]

section Access

variable (hv : View N s₀ s fl al h) (hx : x ∈ N)
include hv hx

theorem View.mapped {o : ℕ} (ho : o + 8 ≤ headerSize) : s.Mapped (x + o) 8 := by
  have := (hv.nodes.of_keeps hv.keeps).mapped x hx
  unfold Heap.Mapped at *
  omega

variable {Q : ℕ → Heap → Prop}

theorem View.getChunkSize : wp (getChunkSize x) Q s ↔ Q (h x).size s := by
  have hm : s.Mapped x 8 := hv.mapped hx (o := 0) (by decide)
  rw [Malloc.getChunkSize, wp_readWord hm, ← hv.hdr x hx]
  rfl

theorem View.getNext : wp (getNext x) Q s ↔ Q (h x).next s := by
  rw [Malloc.getNext, wp_readWord (hv.mapped hx (by decide)), ← hv.hdr x hx]
  rfl

theorem View.getPrev : wp (getPrev x) Q s ↔ Q (h x).prev s := by
  rw [Malloc.getPrev, wp_readWord (hv.mapped hx (by decide)), ← hv.hdr x hx]
  rfl

theorem View.getChunkStatus {Q : Bool → Heap → Prop} :
    wp (getChunkStatus x) Q s ↔ Q (decide ((h x).status ≠ 0)) s := by
  rw [Malloc.getChunkStatus, wp_bind, wp_readWord (hv.mapped hx (by decide)), wp_pure,
    ← hv.hdr x hx]
  rfl

theorem View.write {o : ℕ} (ho : o + 8 ≤ headerSize) (hne : ∀ y ≠ x, h' y = h y)
    (hx' : ∀ s' : Heap, s'.mem = store s.mem (x + o) 8 v → s.hdr x = h x → s'.hdr x = h' x) :
    wp (writeWord (x + o) v) (fun _ s' ↦ View N s₀ s' fl al h') s := by
  rw [wp_writeWord (hv.mapped hx ho)]
  refine ⟨hv.nodes, hv.keeps.trans ⟨rfl, rfl, rfl, fun b hb ↦ ?_⟩, hv.freeList, hv.allocatedList,
    fun y hy ↦ ?_⟩
  · have := hb x hx
    exact store_of_outside _ _ _ _ (by omega)
  · by_cases hyx : y = x
    · subst hyx
      exact hx' _ rfl (hv.hdr y hy)
    · rw [hne y hyx, ← hv.hdr y hy]
      have := hv.nodes.apart x hx y hy (Ne.symm hyx)
      exact hdr_store_of_disjoint s (by omega)

variable (hlt : v < 2 ^ 64)
include hlt

theorem View.setChunkSize :
    wp (setChunkSize x v) (fun _ s' ↦ View N s₀ s' fl al (h.setSize x v)) s := by
  refine hv.write hx (o := 0) (by decide) (fun y hy ↦ if_neg hy) fun s' hs' hh ↦ ?_
  simp (disch := omega) only [HdrMap.setSize, if_true, ← hh, Heap.hdr, hs', Nat.add_zero,
    load_store_word _ _ hlt, load_store_of_disjoint]

theorem View.setNext : wp (setNext x v) (fun _ s' ↦ View N s₀ s' fl al (h.setNext x v)) s := by
  refine hv.write hx (by decide) (fun y hy ↦ if_neg hy) fun s' hs' hh ↦ ?_
  simp (disch := omega) only [HdrMap.setNext, if_true, ← hh, Heap.hdr, hs',
    load_store_word _ _ hlt, load_store_of_disjoint]

theorem View.setPrev : wp (setPrev x v) (fun _ s' ↦ View N s₀ s' fl al (h.setPrev x v)) s := by
  refine hv.write hx (by decide) (fun y hy ↦ if_neg hy) fun s' hs' hh ↦ ?_
  simp (disch := omega) only [HdrMap.setPrev, if_true, ← hh, Heap.hdr, hs',
    load_store_word _ _ hlt, load_store_of_disjoint]

end Access

section Heads

variable (hv : View N s₀ s fl al h)
include hv

theorem View.setChunkStatus (hx : x ∈ N) (b : Bool) :
    wp (setChunkStatus x b) (fun _ s' ↦ View N s₀ s' fl al (h.setStatus x b.toNat)) s := by
  have hlt : b.toNat < 2 ^ 64 := by cases b <;> decide
  refine hv.write hx (by decide) (fun y hy ↦ if_neg hy) fun s' hs' hh ↦ ?_
  simp (disch := omega) only [HdrMap.setStatus, if_true, ← hh, Heap.hdr, hs',
    load_store_word _ _ hlt, load_store_of_disjoint]

theorem View.setChunkSizeStatus (hx : x ∈ N) (hlt : v < 2 ^ 64) (b : Bool) :
    wp (setChunkSizeStatus x v b)
      (fun _ s' ↦ View N s₀ s' fl al ((h.setSize x v).setStatus x b.toNat)) s := by
  rw [Malloc.setChunkSizeStatus]
  exact (hv.setChunkSize hx hlt).bind fun _ _ hv ↦ hv.setChunkStatus hx b

theorem View.setFreeList (x : ℕ) :
    wp (setFreeList x) (fun _ s' ↦ View N s₀ s' x al h) s := by
  rw [Malloc.setFreeList, wp_modify]
  exact ⟨hv.nodes, ⟨hv.keeps.1, hv.keeps.2, hv.keeps.3, hv.keeps.4⟩, rfl, hv.allocatedList, hv.hdr⟩

theorem View.setAllocatedList (x : ℕ) :
    wp (setAllocatedList x) (fun _ s' ↦ View N s₀ s' fl x h) s := by
  rw [Malloc.setAllocatedList, wp_modify]
  exact ⟨hv.nodes, ⟨hv.keeps.1, hv.keeps.2, hv.keeps.3, hv.keeps.4⟩, hv.freeList, rfl, hv.hdr⟩

theorem View.initHeader (hx : x ∈ N) :
    wp (initHeader x)
      (fun _ s' ↦ View N s₀ s' fl al (((h.setNext x NULL).setPrev x NULL).setStatus x 0)) s := by
  rw [Malloc.initHeader]
  exact (hv.setNext hx (by decide)).bind fun _ _ hv ↦
    (hv.setPrev hx (by decide)).bind fun _ _ hv ↦ hv.setChunkStatus hx false

theorem View.setNext_link (hx : x = NULL ∨ x ∈ N) (hlt : v < 2 ^ 64) :
    wp (onlyIf (x ≠ NULL) (Malloc.setNext x v))
      (fun _ s' ↦ View N s₀ s' fl al (h.setNext x v)) s := by
  rw [wp_onlyIf]
  split_ifs with hnull
  · exact hv.setNext (hx.resolve_left hnull) hlt
  · refine hv.congr fun y hy ↦ (if_neg ?_).symm
    rintro rfl
    exact hnull (hv.nodes.ne_null hy)

theorem View.setPrev_link (hx : x = NULL ∨ x ∈ N) (hlt : v < 2 ^ 64) :
    wp (onlyIf (x ≠ NULL) (Malloc.setPrev x v))
      (fun _ s' ↦ View N s₀ s' fl al (h.setPrev x v)) s := by
  rw [wp_onlyIf]
  split_ifs with hnull
  · exact hv.setPrev (hx.resolve_left hnull) hlt
  · refine hv.congr fun y hy ↦ (if_neg ?_).symm
    rintro rfl
    exact hnull (hv.nodes.ne_null hy)

end Heads
end CsoLabs.Malloc
