import CsoLabs.Malloc.Package
import CsoLabs.MallocNaive.Model

namespace CsoLabs.MallocNaive

open Foundation CInt ByteMemory
open Malloc (Heap Alloc NULL MAX_HEAP sbrkError align sizeT memSbrk wp_readWord wp_writeWord)

structure Chunk where
  addr : ℕ
  size : ℕ
  status : Bool

namespace Chunk

def stop (c : Chunk) : ℕ := c.addr + c.size

def setStatus (c : Chunk) (status : Bool) : Chunk := { c with status := status }

@[simp] theorem setStatus_addr (c : Chunk) (b : Bool) : (c.setStatus b).addr = c.addr := rfl
@[simp] theorem setStatus_size (c : Chunk) (b : Bool) : (c.setStatus b).size = c.size := rfl
@[simp] theorem setStatus_stop (c : Chunk) (b : Bool) : (c.setStatus b).stop = c.stop := rfl
@[simp] theorem setStatus_status (c : Chunk) (b : Bool) : (c.setStatus b).status = b := rfl

def Apart (c d : Chunk) : Prop := c.stop ≤ d.addr ∨ d.stop ≤ c.addr

structure WellSized (c : Chunk) : Prop where
  addr : 16 ∣ c.addr
  size : 16 ∣ c.size
  le : headerSize ≤ c.size

def Shown (m : Memory) (c : Chunk) : Prop := load m c.addr 8 = c.size + c.status.toNat

end Chunk

def Tiles : ℕ → List Chunk → ℕ → Prop
  | lo, [], hi => lo = hi
  | lo, c :: cs, hi => c.addr = lo ∧ Tiles c.stop cs hi

structure Inv (s : Heap) (cs : List Chunk) : Prop where
  pos : 0 < s.memStartBrk
  top : s.memMaxAddr < 2 ^ 64
  brk_le : s.memBrk ≤ s.memMaxAddr
  aligned : 16 ∣ s.memBrk
  tiles : Tiles s.memStartBrk cs s.memBrk
  wellSized : ∀ c ∈ cs, c.WellSized
  shown : ∀ c ∈ cs, c.Shown s.mem

def chunkFor (size : ℕ) : ℕ := (size + 15) / 16 * 16 + 16

variable {lo hi n size : ℕ} {cs l r : List Chunk} {c d : Chunk} {s s' : Heap} {m : Memory}

section Words

theorem or_status (b : Bool) (h : 2 ∣ n) : n ||| b.toNat = n + b.toNat := by
  cases b with
  | false => simp
  | true =>
    obtain ⟨k, rfl⟩ := h
    have hshift := Nat.shiftLeft_add_eq_or_of_lt (i := 1) (b := 1) (by decide) k
    rw [Nat.shiftLeft_eq, mul_comm] at hshift
    exact hshift.symm

theorem and_not_one (h : n < 2 ^ 64) : n &&& (~~~ (1 : BitVec 64)).toNat = n / 2 * 2 := by
  have hmask : (~~~ (1 : BitVec 64)).toNat = 2 ^ 64 - (1 + 1) := by decide
  have hdiv : n / 2 * 2 = n >>> 1 <<< 1 := by
    rw [Nat.shiftRight_eq_div_pow, Nat.shiftLeft_eq]
  have hone : ∀ i, Nat.testBit 1 i = decide (i < 1) := fun i ↦ Nat.testBit_two_pow_sub_one 1 i
  apply Nat.eq_of_testBit_eq
  intro i
  rw [hmask, hdiv, Nat.testBit_and, Nat.testBit_two_pow_sub_succ (by decide), hone,
    Nat.testBit_shiftLeft, Nat.testBit_shiftRight]
  by_cases hi : 1 ≤ i
  · rw [Nat.add_sub_cancel' hi]
    by_cases hi' : i < 64
    · simp [hi, hi', Nat.not_lt.mpr hi]
    · have hbit : n.testBit i = false :=
        Nat.testBit_lt_two_pow (h.trans_le (Nat.pow_le_pow_right (by decide) (by omega)))
      simp [hbit]
  · simp [hi, Nat.not_le.mp hi]

theorem size_of_word (b : Bool) (h : 2 ∣ n) (hlt : n + 1 < 2 ^ 64) :
    (n + b.toNat) &&& (~~~ (1 : BitVec 64)).toNat = n := by
  have hb : b.toNat ≤ 1 := b.toNat_le
  rw [and_not_one (by omega)]
  omega

theorem status_of_word (b : Bool) (h : 2 ∣ n) : decide ((n + b.toNat) &&& 1 ≠ 0) = b := by
  rw [Nat.and_one_is_mod]
  cases b with
  | false =>
    have : n % 2 = 0 := Nat.mod_eq_zero_of_dvd h
    simp [this]
  | true =>
    have : (n + 1) % 2 = 1 := by omega
    simp [this]

end Words

namespace Tiles

theorem append : Tiles lo (l ++ r) hi ↔ ∃ mid, Tiles lo l mid ∧ Tiles mid r hi := by
  induction l generalizing lo with
  | nil =>
    constructor
    · intro h
      exact ⟨lo, rfl, h⟩
    · intro ⟨mid, h, h'⟩
      cases h
      exact h'
  | cons c l ih =>
    rw [List.cons_append, Tiles, ih]
    constructor
    · intro ⟨hc, mid, hl, hr⟩
      exact ⟨mid, ⟨hc, hl⟩, hr⟩
    · intro ⟨mid, ⟨hc, hl⟩, hr⟩
      exact ⟨hc, mid, hl, hr⟩

theorem concat (h : Tiles lo cs hi) (hc : c.addr = hi) : Tiles lo (cs ++ [c]) c.stop :=
  append.mpr ⟨hi, h, hc, rfl⟩

theorem le (h : Tiles lo cs hi) : lo ≤ hi := by
  induction cs generalizing lo with
  | nil => exact h.le
  | cons c cs ih =>
    obtain ⟨hc, hcs⟩ := h
    have := ih hcs
    unfold Chunk.stop at this
    omega

theorem inside (h : Tiles lo cs hi) (hc : c ∈ cs) : lo ≤ c.addr ∧ c.stop ≤ hi := by
  obtain ⟨l, r, rfl⟩ := List.append_of_mem hc
  obtain ⟨mid, hl, hmid, hr⟩ := append.mp h
  have h₁ := hl.le
  have h₂ := hr.le
  omega

theorem around (h : Tiles lo (l ++ c :: r) hi) :
    (∀ d ∈ l, d.stop ≤ c.addr) ∧ ∀ d ∈ r, c.stop ≤ d.addr := by
  obtain ⟨mid, hl, hmid, hr⟩ := append.mp h
  constructor
  · intro d hd
    exact (hl.inside hd).2.trans hmid.ge
  · intro d hd
    exact (hr.inside hd).1

theorem apart (h : Tiles lo cs hi) (hc : c ∈ cs) (hd : d ∈ cs) (hne : c ≠ d) : c.Apart d := by
  obtain ⟨l, r, rfl⟩ := List.append_of_mem hc
  have hal := h.around
  rcases List.mem_append.mp hd with hd | hd
  · exact .inr (hal.1 d hd)
  · rcases List.mem_cons.mp hd with hd | hd
    · exact absurd hd.symm hne
    · exact .inl (hal.2 d hd)

theorem setStatus (h : Tiles lo (l ++ c :: r) hi) (b : Bool) :
    Tiles lo (l ++ c.setStatus b :: r) hi := by
  obtain ⟨mid, hl, hmid, hr⟩ := append.mp h
  exact append.mpr ⟨mid, hl, hmid, hr⟩

theorem sum_size (h : Tiles lo cs hi) : lo + (cs.map Chunk.size).sum = hi := by
  induction cs generalizing lo with
  | nil => exact h
  | cons c cs ih =>
    obtain ⟨hc, hcs⟩ := h
    have := ih hcs
    unfold Chunk.stop at this
    rw [List.map_cons, List.sum_cons]
    omega

theorem length_le (h : Tiles lo cs hi) (hw : ∀ c ∈ cs, headerSize ≤ c.size) :
    lo + headerSize * cs.length ≤ hi := by
  induction cs generalizing lo with
  | nil => exact h.le
  | cons c cs ih =>
    obtain ⟨hc, hcs⟩ := h
    have h₁ := ih hcs fun d hd ↦ hw d (List.mem_cons_of_mem _ hd)
    have h₂ := hw c List.mem_cons_self
    unfold Chunk.stop at h₁
    rw [List.length_cons, Nat.mul_succ]
    omega

end Tiles

namespace Inv

theorem mapped (I : Inv s cs) (hc : c ∈ cs) : s.Mapped c.addr 8 := by
  have h₁ := I.tiles.inside hc
  have h₂ := (I.wellSized c hc).le
  have h₃ := I.brk_le
  unfold Chunk.stop headerSize at *
  exact ⟨h₁.1, by omega⟩

theorem stop_lt (I : Inv s cs) (hc : c ∈ cs) : c.stop < 2 ^ 64 := by
  have h₁ := (I.tiles.inside hc).2
  have h₂ := I.brk_le
  have h₃ := I.top
  omega

theorem even (I : Inv s cs) (hc : c ∈ cs) : 2 ∣ c.size :=
  (by decide : 2 ∣ 16).trans (I.wellSized c hc).size

theorem size_lt (I : Inv s cs) (hc : c ∈ cs) : c.size + 1 < 2 ^ 64 := by
  have h₁ := I.stop_lt hc
  have h₂ := (I.tiles.inside hc).1
  have h₃ := I.pos
  have h₄ := (I.wellSized c hc).size
  unfold Chunk.stop at h₁
  omega

theorem getChunkStatus (I : Inv s cs) (hc : c ∈ cs) {Q : Bool → Heap → Prop} :
    wp (getChunkStatus c.addr) Q s ↔ Q c.status s := by
  rw [MallocNaive.getChunkStatus, wp_bind, wp_readWord (I.mapped hc), wp_pure, I.shown c hc,
    status_of_word _ (I.even hc)]

theorem getChunkSize (I : Inv s cs) (hc : c ∈ cs) {Q : ℕ → Heap → Prop} :
    wp (getChunkSize c.addr) Q s ↔ Q c.size s := by
  rw [MallocNaive.getChunkSize, wp_bind, wp_readWord (I.mapped hc), wp_pure, I.shown c hc,
    size_of_word _ (I.even hc) (I.size_lt hc)]

theorem getNextChunk (I : Inv s cs) (hc : c ∈ cs) {Q : ℕ → Heap → Prop} :
    wp (getNextChunk c.addr) Q s ↔ Q c.stop s := by
  have hstop : (c.addr + c.size) % 2 ^ 64 = c.stop := Nat.mod_eq_of_lt (I.stop_lt hc)
  rw [MallocNaive.getNextChunk, wp_bind, I.getChunkSize hc, wp_pure, hstop]

theorem memHeapHi (I : Inv s cs) : memHeapHi s = s.memBrk - 1 := by
  have h₁ := I.tiles.le
  have h₂ := I.pos
  have h₃ := I.brk_le
  have h₄ := I.top
  unfold MallocNaive.memHeapHi
  omega

theorem fuel (I : Inv s cs) : cs.length < s.fuel := by
  have h₁ := I.tiles.length_le fun c hc ↦ (I.wellSized c hc).le
  have h₂ := I.brk_le
  unfold Heap.fuel headerSize at *
  omega

end Inv

def lines (verboseLevel : ℤ) (cs : List Chunk) : List Line :=
  if verboseLevel > NORMAL_VERBOSE then cs.map fun c ↦ .chunk c.size c.status else []

def countAll (t : Totals) (cs : List Chunk) : Totals :=
  cs.foldl (fun t c ↦ t.count c.size c.status) t

theorem Inv.checkLoop (I : Inv s (l ++ r)) (v : ℤ) {a fuel : ℕ} (hr : Tiles a r s.memBrk)
    (hfuel : r.length < fuel) (t : Totals) :
    wp (checkLoop v fuel a t) (fun o s' ↦ o = (lines v r, countAll t r) ∧ s' = s) s := by
  induction r generalizing l a fuel t with
  | nil =>
    obtain ⟨k, rfl⟩ : ∃ k, fuel = k + 1 := ⟨fuel - 1, by omega⟩
    have ha : a = s.memBrk := hr
    have hnot : ¬ a < MallocNaive.memHeapHi s := by
      rw [I.memHeapHi]
      omega
    rw [MallocNaive.checkLoop, wp_bind, wp_get, wp_ite, if_neg hnot, wp_pure]
    exact ⟨by simp [lines, countAll], rfl⟩
  | cons c r ih =>
    obtain ⟨k, rfl⟩ : ∃ k, fuel = k + 1 := ⟨fuel - 1, by omega⟩
    obtain ⟨rfl, hr⟩ := hr
    have hc : c ∈ l ++ c :: r := by simp
    have hlt : c.addr < MallocNaive.memHeapHi s := by
      have h₁ := (I.tiles.inside hc).2
      have h₂ := (I.wellSized c hc).le
      rw [I.memHeapHi]
      unfold Chunk.stop headerSize at *
      omega
    rw [MallocNaive.checkLoop, wp_bind, wp_get, wp_ite, if_pos hlt, wp_bind, I.getChunkSize hc,
      wp_bind, I.getChunkStatus hc, wp_bind, I.getNextChunk hc, wp_bind]
    have I' : Inv s ((l ++ [c]) ++ r) := by simpa using I
    refine (ih I' hr (Nat.lt_of_succ_lt_succ hfuel) _).mono ?_
    intro o s' ⟨ho, hs⟩
    rw [ho, wp_pure]
    refine ⟨?_, hs⟩
    unfold lines
    split_ifs <;> rfl

/-- The checker ends, prints every chunk at the verbose level 2 and its totals from 1 on. -/
theorem Inv.mmCheckheap (I : Inv s cs) (v : ℤ) :
    wp (mmCheckheap v) (fun o s' ↦
      o = lines v cs ++ (if v > 0 then [.totals (countAll ⟨0, 0, 0, 0⟩ cs)] else []) ∧ s' = s) s := by
  rw [MallocNaive.mmCheckheap, wp_bind, wp_get, wp_bind]
  refine (Inv.checkLoop (l := []) I v I.tiles I.fuel _).mono ?_
  intro o s' ⟨ho, hs⟩
  rw [ho, wp_pure]
  exact ⟨rfl, hs⟩

end CsoLabs.MallocNaive
