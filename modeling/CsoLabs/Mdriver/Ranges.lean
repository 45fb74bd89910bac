import CsoLabs.MallocNaive.Behaviour
import CsoLabs.Mdriver.Model

namespace CsoLabs.Mdriver

open Foundation CInt
open Malloc (Heap Alloc Package NULL ALIGNMENT MAX_HEAP sizeT Base Grown mm)

namespace RangeT

def Apart (p q : RangeT) : Prop := p.hi < q.lo ∨ q.hi < p.lo

def Encloses (p q : RangeT) : Prop := p.lo < q.lo ∧ q.hi < p.hi

/-- The test of `add_range` misses a record that lies strictly within the new range. -/
theorem not_overlaps_iff {p : RangeT} {lo hi : ℕ} (h : lo ≤ hi) :
    ¬ p.Overlaps lo hi ↔ RangeT.Apart ⟨lo, hi⟩ p ∨ RangeT.Encloses ⟨lo, hi⟩ p := by
  unfold Overlaps Apart Encloses
  simp only
  omega

end RangeT

structure Checked (s : Heap) (rs : List RangeT) : Prop where
  aligned : ∀ p ∈ rs, 16 ∣ p.lo
  ordered : ∀ p ∈ rs, p.lo ≤ p.hi
  inside : ∀ p ∈ rs, s.memStartBrk ≤ p.lo ∧ p.hi < s.memBrk
  pairwise : rs.Pairwise fun p q ↦ p.Apart q ∨ p.Encloses q

structure Placed (base : ℕ) (s : Heap) : Prop where
  memStartBrk : s.memStartBrk = base
  memMaxAddr : s.memMaxAddr = base + MAX_HEAP
  le : base ≤ s.memBrk
  brk_le : s.memBrk ≤ base + MAX_HEAP

/-- The package moves the break through `mem_sbrk` only. -/
structure Tame (P : Package) : Prop where
  mmInit : Within Grown P.mmInit
  mmMalloc : ∀ size, Within Grown (P.mmMalloc size)
  mmFree : ∀ p, Within Grown (P.mmFree p)
  mmRealloc : ∀ p size, Within Grown (P.mmRealloc p size)

def TraceOp.Typed : TraceOp → Prop
  | .alloc _ size => Fits 32 size
  | .realloc _ size => Fits 32 size
  | .free _ => True

structure Quiet (d d' : Driver) : Prop where
  heap : Grown d.heap d'.heap
  ranges : d'.ranges = d.ranges
  errors : d'.errors = d.errors

variable {P : Package} {base lo hi p : ℕ} {size tracenum i index v : ℤ} {s s' : Heap}
  {d d' : Driver} {rs : List RangeT} {op : TraceOp} {ops : List TraceOp} {b : Bool}

instance : Std.Refl Quiet := ⟨fun _ ↦ ⟨Std.Refl.refl _, rfl, rfl⟩⟩

instance : IsTrans Driver Quiet :=
  ⟨fun _ _ _ h h' ↦ ⟨IsTrans.trans _ _ _ h.1 h'.1, h'.2.trans h.2, h'.3.trans h.3⟩⟩

theorem Placed.grown (h : Placed base s) (hg : Grown s s') : Placed base s' := by
  have hfits := hg.fits (by rw [h.memMaxAddr]; exact h.brk_le)
  rw [hg.memMaxAddr, h.memMaxAddr] at hfits
  exact ⟨hg.1.trans h.1, hg.2.trans h.2, h.le.trans hg.le, hfits⟩

theorem Placed.memHeapHi (hb : Base base) (h : Placed base s) : memHeapHi s = s.memBrk - 1 := by
  have h₁ := hb.pos
  have h₂ := hb.fits
  have h₃ := h.le
  have h₄ := h.brk_le
  unfold Mdriver.memHeapHi
  omega

namespace Checked

theorem nil (s : Heap) : Checked s [] := ⟨by simp, by simp, by simp, .nil⟩

theorem grown (h : Checked s rs) (hg : Grown s s') : Checked s' rs := by
  refine ⟨h.aligned, h.ordered, ?_, h.pairwise⟩
  intro p hp
  have hin := h.inside p hp
  have hle := hg.le
  rw [hg.memStartBrk]
  omega

theorem sublist {rs' : List RangeT} (h : Checked s rs) (hs : rs'.Sublist rs) : Checked s rs' :=
  ⟨fun p hp ↦ h.aligned p (hs.subset hp), fun p hp ↦ h.ordered p (hs.subset hp),
    fun p hp ↦ h.inside p (hs.subset hp), h.pairwise.sublist hs⟩

theorem quiet (h : Checked d.heap d.ranges) (hq : Quiet d d') : Checked d'.heap d'.ranges := by
  rw [hq.ranges]
  exact h.grown hq.heap

end Checked

structure Acceptable (d : Driver) (lo : ℕ) (size : ℤ) : Prop where
  aligned : 16 ∣ lo
  start_le : d.heap.memStartBrk ≤ lo
  le_brk : (lo : ℤ) + size ≤ d.heap.memBrk
  beside : ∀ p ∈ d.ranges, RangeT.Apart ⟨lo, lastByte lo size⟩ p ∨
    RangeT.Encloses ⟨lo, lastByte lo size⟩ p

def reported (tracenum opnum : ℤ) (msg : String) (d : Driver) : Driver :=
  { d with
    errors := d.errors + 1
    output := d.output ++ ["ERROR [trace " ++ toString tracenum ++ ", line " ++
      toString (LINENUM opnum) ++ "]: " ++ msg ++ "\n"] }

@[simp] theorem wp_mallocError {opnum : ℤ} {msg : String} {Q : Unit → Driver → Prop} :
    wp (mallocError tracenum opnum msg) Q d ↔ Q () (reported tracenum opnum msg d) := wp_modify

theorem lastByte_of_inside (hb : Base base) (h : Placed base s) (hsize : 0 < size)
    (hfit : Fits 32 size) (hin : ¬ OutsideHeap s lo (lastByte lo size)) :
    (lastByte lo size : ℤ) = lo + size - 1 := by
  have h₁ := hb.fits
  have h₂ := h.memStartBrk
  have h₃ := h.brk_le
  have hsz := (fits_int.mp hfit).2
  unfold OutsideHeap at hin
  rw [h.memHeapHi hb] at hin
  unfold Mdriver.memHeapLo lastByte wrapUnsigned MAX_HEAP at *
  omega

theorem acceptable_iff (hb : Base base) (h : Placed base d.heap) (hsize : 0 < size)
    (hfit : Fits 32 size) :
    Acceptable d lo size ↔ lo % ALIGNMENT = 0 ∧ ¬ OutsideHeap d.heap lo (lastByte lo size) ∧
      d.ranges.find? (fun p ↦ p.Overlaps lo (lastByte lo size)) = none := by
  have hpos := hb.pos
  have hle := h.le
  have hstart := h.memStartBrk
  have hhi := h.memHeapHi hb
  have hover : ∀ p ∈ d.ranges, lo ≤ lastByte lo size → (¬ p.Overlaps lo (lastByte lo size) ↔
      RangeT.Apart ⟨lo, lastByte lo size⟩ p ∨ RangeT.Encloses ⟨lo, lastByte lo size⟩ p) :=
    fun _ _ hlo ↦ RangeT.not_overlaps_iff hlo
  have hbelow : (lo : ℤ) + size ≤ d.heap.memBrk → (lastByte lo size : ℤ) = lo + size - 1 := by
    intro hlt
    have h₁ := hb.fits
    have h₂ := h.brk_le
    unfold lastByte wrapUnsigned
    omega
  rw [List.find?_eq_none]
  constructor
  · intro ⟨haligned, hlo, hlt, hbeside⟩
    have hlast := hbelow hlt
    refine ⟨Nat.mod_eq_zero_of_dvd haligned, ?_, ?_⟩
    · unfold OutsideHeap Mdriver.memHeapLo
      rw [hhi]
      omega
    · intro p hp
      rw [decide_eq_true_eq]
      exact (hover p hp (by omega)).mpr (hbeside p hp)
  · intro ⟨haligned, hin, hnone⟩
    have hlast := lastByte_of_inside hb h hsize hfit hin
    unfold OutsideHeap Mdriver.memHeapLo at hin
    rw [hhi] at hin
    refine ⟨Nat.dvd_of_mod_eq_zero haligned, by omega, by omega, ?_⟩
    intro p hp
    have := hnone p hp
    rw [decide_eq_true_eq] at this
    exact (hover p hp (by omega)).mp this

/-- `add_range` records what is acceptable and reports the rest. -/
theorem wp_addRange (hb : Base base) (h : Placed base d.heap) (hsize : 0 < size) (hfit : Fits 32 size) :
    wp (addRange lo size tracenum i) (fun r d' ↦
      (r = 1 ∧ Acceptable d lo size ∧
        d' = { d with ranges := ⟨lo, lastByte lo size⟩ :: d.ranges }) ∨
      (r = 0 ∧ ¬ Acceptable d lo size ∧ ∃ msg, d' = reported tracenum i msg d)) d := by
  have hiff : Acceptable d lo size ↔ _ := acceptable_iff hb h hsize hfit
  rw [addRange]
  simp only [wp_bind, wp_assertThat, wp_get]
  refine ⟨hsize, ?_⟩
  rw [wp_ite]
  split_ifs with haligned hout
  · rw [wp_bind, wp_mallocError, wp_pure]
    exact .inr ⟨rfl, fun ha ↦ haligned (hiff.mp ha).1, _, rfl⟩
  · rw [wp_bind, wp_mallocError, wp_pure]
    exact .inr ⟨rfl, fun ha ↦ (hiff.mp ha).2.1 hout, _, rfl⟩
  · cases hfind : d.ranges.find? fun p ↦ p.Overlaps lo (lastByte lo size) with
    | some p =>
      dsimp only
      rw [wp_bind, wp_mallocError, wp_pure]
      refine .inr ⟨rfl, fun ha ↦ ?_, _, rfl⟩
      rw [(hiff.mp ha).2.2] at hfind
      cases hfind
    | none =>
      dsimp only
      rw [wp_bind, wp_modify, wp_pure]
      exact .inl ⟨rfl, hiff.mpr ⟨not_not.mp haligned, hout, hfind⟩, rfl⟩

theorem Checked.cons (hb : Base base) (h : Placed base d.heap) (hc : Checked d.heap d.ranges)
    (hsize : 0 < size) (ha : Acceptable d lo size) :
    Checked d.heap (⟨lo, lastByte lo size⟩ :: d.ranges) := by
  have hlast : (lastByte lo size : ℤ) = lo + size - 1 := by
    have h₁ := hb.fits
    have h₂ := h.brk_le
    have h₃ := ha.le_brk
    unfold lastByte wrapUnsigned
    omega
  have hstart := ha.start_le
  have hbrk := ha.le_brk
  refine ⟨?_, ?_, ?_, List.pairwise_cons.mpr ⟨ha.beside, hc.pairwise⟩⟩
  · intro q hq
    rcases List.mem_cons.mp hq with rfl | hq
    · exact ha.aligned
    · exact hc.aligned q hq
  · intro q hq
    rcases List.mem_cons.mp hq with rfl | hq
    · simp only
      omega
    · exact hc.ordered q hq
  · intro q hq
    rcases List.mem_cons.mp hq with rfl | hq
    · simp only
      omega
    · exact hc.inside q hq

theorem addRange_result {r : ℤ} (hb : Base base) (h : Placed base d.heap) (hfit : Fits 32 size)
    (hr : addRange lo size tracenum i d = some (r, d')) : 0 < size ∧
      ((r = 1 ∧ Acceptable d lo size ∧
        d' = { d with ranges := ⟨lo, lastByte lo size⟩ :: d.ranges }) ∨
      (r = 0 ∧ ¬ Acceptable d lo size ∧ ∃ msg, d' = reported tracenum i msg d)) := by
  have hsize : 0 < size := by
    have hw : wp (addRange lo size tracenum i) (fun _ _ ↦ True) d := ⟨r, d', hr, trivial⟩
    rw [addRange, wp_bind, wp_assertThat] at hw
    exact hw.1
  exact ⟨hsize, (wp_addRange hb h hsize hfit).result hr⟩

section Quiet

variable {α : Type} {c : Alloc α}

@[simp] theorem wp_call {Q : α → Driver → Prop} :
    wp (call c) Q d ↔ wp c (fun a s ↦ Q a { d with heap := s }) d.heap := wp_onPart

theorem quiet_call (h : Within Grown c) : Within Quiet (call c) := by
  intro d a d' hd
  have hw : wp (call c) (fun _ t ↦ t = d') d := ⟨a, d', hd, rfl⟩
  obtain ⟨a', s, hc, hs⟩ := wp_call.mp hw
  rw [← hs]
  exact ⟨h _ _ _ hc, rfl, rfl⟩

theorem wp_getBlock {Q : ℕ → Driver → Prop} :
    wp (getBlock index) Q d ↔ ∃ p, element d.blocks index = some p ∧ Q p d := by
  rw [getBlock, wp_bind, wp_get, wp_lift]

theorem wp_getBlockSize {Q : ℕ → Driver → Prop} :
    wp (getBlockSize index) Q d ↔ ∃ n, element d.blockSizes index = some n ∧ Q n d := by
  rw [getBlockSize, wp_bind, wp_get, wp_lift]

theorem wp_setBlock {Q : Unit → Driver → Prop} : wp (setBlock index p) Q d ↔
    ∃ blocks, CArray.store d.blocks index (some p) = some blocks ∧
      Q () { d with blocks := blocks } := by
  rw [setBlock, wp_bind, wp_get, wp_bind, wp_lift]
  exact exists_congr fun _ ↦ and_congr_right fun _ ↦ wp_of_eq rfl

theorem wp_setBlockSize {n : ℕ} {Q : Unit → Driver → Prop} : wp (setBlockSize index n) Q d ↔
    ∃ sizes, CArray.store d.blockSizes index (some n) = some sizes ∧
      Q () { d with blockSizes := sizes } := by
  rw [setBlockSize, wp_bind, wp_get, wp_bind, wp_lift]
  exact exists_congr fun _ ↦ and_congr_right fun _ ↦ wp_of_eq rfl

theorem quiet_getBlock (index : ℤ) : Within Quiet (getBlock index) := .bind .get fun _ ↦ .lift _

theorem quiet_getBlockSize (index : ℤ) : Within Quiet (getBlockSize index) :=
  .bind .get fun _ ↦ .lift _

theorem quiet_setBlock (index : ℤ) (p : ℕ) : Within Quiet (setBlock index p) := by
  intro d a d' h
  have hw : wp (setBlock index p) (fun _ t ↦ t = d') d := ⟨a, d', h, rfl⟩
  obtain ⟨blocks, -, hd⟩ := wp_setBlock.mp hw
  rw [← hd]
  exact ⟨Std.Refl.refl _, rfl, rfl⟩

theorem quiet_setBlockSize (index : ℤ) (n : ℕ) : Within Quiet (setBlockSize index n) := by
  intro d a d' h
  have hw : wp (setBlockSize index n) (fun _ t ↦ t = d') d := ⟨a, d', h, rfl⟩
  obtain ⟨sizes, -, hd⟩ := wp_setBlockSize.mp hw
  rw [← hd]
  exact ⟨Std.Refl.refl _, rfl, rfl⟩

theorem grown_memset (p : ℕ) (c : ℤ) (n : ℕ) : Within Grown (memset p c n) :=
  .bind .get fun _ ↦ .ite (.of_modify fun _ ↦ ⟨rfl, rfl, le_rfl, id⟩) .failure

theorem grown_readChar (p : ℕ) : Within Grown (readChar p) :=
  .bind .get fun _ ↦ .ite (.pure _) .failure

theorem quiet_preserved (p : ℕ) (index : ℤ) (n j : ℕ) : Within Quiet (preserved p index n j) := by
  induction n generalizing j with
  | zero => exact .pure _
  | succ n ih =>
    exact .bind (quiet_call (grown_readChar _)) fun _ ↦ .ite (.pure _) (ih (j + 1))

theorem quiet_remember (index size : ℤ) (p : ℕ) : Within Quiet (remember index size p) :=
  .bind (quiet_call (grown_memset _ _ _)) fun _ ↦ .bind (quiet_setBlock _ _) fun _ ↦
    quiet_setBlockSize _ _

end Quiet

structure Watched (base : ℕ) (d : Driver) : Prop where
  placed : Placed base d.heap
  checked : Checked d.heap d.ranges

theorem Watched.quiet (h : Watched base d) (hq : Quiet d d') : Watched base d' :=
  ⟨h.placed.grown hq.heap, h.checked.quiet hq⟩

theorem Watched.reported (h : Watched base d) (msg : String) :
    Watched base (reported tracenum i msg d) := ⟨h.placed, h.checked⟩

theorem Watched.removeRange (h : Watched base d) (p : ℕ) :
    Watched base { d with ranges := d.ranges.eraseP fun q ↦ q.lo = p } :=
  ⟨h.placed, h.checked.sublist List.eraseP_sublist⟩

theorem Watched.addRange (hb : Base base) (h : Watched base d) (hsize : 0 < size)
    (ha : Acceptable d lo size) :
    Watched base { d with ranges := ⟨lo, lastByte lo size⟩ :: d.ranges } :=
  ⟨h.placed, h.checked.cons hb h.placed hsize ha⟩

/-- A round of the loop goes on without an error, or it ends with one. -/
def Outcome (base : ℕ) (d : Driver) (b : Bool) (d' : Driver) : Prop :=
  Watched base d' ∧ d'.errors = d.errors + (if b then 0 else 1)

theorem Outcome.of_errors {d₁ : Driver} (h : Outcome base d₁ b d') (he : d₁.errors = d.errors) :
    Outcome base d b d' := ⟨h.1, by rw [h.2, he]⟩

theorem Outcome.of_quiet {d₁ : Driver} (h : Outcome base d₁ b d') (hq : Quiet d d₁) :
    Outcome base d b d' := h.of_errors hq.errors

theorem outcome_of_addRange {k : Drive Bool} (hb : Base base) (h : Watched base d)
    (hfit : Fits 32 size)
    (hk : ∀ {d₁ b d'}, Watched base d₁ → k d₁ = some (b, d') → Outcome base d₁ b d')
    (hw : wp (do if (← addRange lo size tracenum i) = 0 then pure false else k)
      (fun b' t ↦ b' = b ∧ t = d') d) : Outcome base d b d' := by
  obtain ⟨r, d₁, hadd, hw⟩ := wp_bind.mp hw
  obtain ⟨hsize, ⟨rfl, ha, rfl⟩ | ⟨rfl, -, msg, rfl⟩⟩ := addRange_result hb h.placed hfit hadd
  · rw [wp_ite, if_neg one_ne_zero] at hw
    obtain ⟨b', t, hk', rfl, rfl⟩ := hw
    exact (hk (h.addRange hb hsize ha) hk').of_errors rfl
  · rw [wp_ite, if_pos rfl, wp_pure] at hw
    obtain ⟨rfl, rfl⟩ := hw
    exact ⟨h.reported msg, rfl⟩

theorem outcome_of_quiet {c : Drive Unit} (h : Watched base d) (hc : Within Quiet c)
    (hr : (c >>= fun _ ↦ pure true) d = some (b, d')) : Outcome base d b d' := by
  have hw : wp (c >>= fun _ ↦ pure true) (fun b' t ↦ b' = b ∧ t = d') d := ⟨b, d', hr, rfl, rfl⟩
  obtain ⟨_, d₁, hc', hw⟩ := wp_bind.mp hw
  obtain ⟨rfl, rfl⟩ := wp_pure.mp hw
  have hq := hc _ _ _ hc'
  exact ⟨h.quiet hq, hq.errors⟩

/-- One round of `eval_mm_valid` keeps the range list checked, whatever the package returns. -/
theorem validOp_outcome (hb : Base base) (hP : Tame P) (h : Watched base d) (ht : op.Typed)
    (hr : validOp P tracenum i op d = some (b, d')) : Outcome base d b d' := by
  have hw : wp (validOp P tracenum i op) (fun b' t ↦ b' = b ∧ t = d') d := ⟨b, d', hr, rfl, rfl⟩
  cases op with
  | alloc index size =>
    obtain ⟨p, d₁, hcall, hw⟩ := wp_bind.mp hw
    have hq := quiet_call (hP.mmMalloc _) _ _ _ hcall
    refine Outcome.of_quiet ?_ hq
    rw [wp_ite] at hw
    split_ifs at hw with hnull
    · rw [wp_bind, wp_mallocError, wp_pure] at hw
      obtain ⟨rfl, rfl⟩ := hw
      exact ⟨(h.quiet hq).reported _, rfl⟩
    · exact outcome_of_addRange hb (h.quiet hq) ht
        (fun h₁ hk ↦ outcome_of_quiet h₁ (quiet_remember _ _ _) hk) hw
  | realloc index size =>
    obtain ⟨oldp, d₁, hget, hw⟩ := wp_bind.mp hw
    have hq₁ := quiet_getBlock index _ _ _ hget
    refine Outcome.of_quiet ?_ hq₁
    obtain ⟨newp, d₂, hcall, hw⟩ := wp_bind.mp hw
    have hq₂ := quiet_call (hP.mmRealloc _ _) _ _ _ hcall
    have h₂ := (h.quiet hq₁).quiet hq₂
    refine Outcome.of_quiet ?_ hq₂
    rw [wp_ite] at hw
    split_ifs at hw with hnull
    · rw [wp_bind, wp_mallocError, wp_pure] at hw
      obtain ⟨rfl, rfl⟩ := hw
      exact ⟨h₂.reported _, rfl⟩
    · rw [wp_bind, Mdriver.removeRange, wp_modify] at hw
      refine (outcome_of_addRange hb (h₂.removeRange oldp) ht ?_ hw).of_errors rfl
      intro d₃ b' d₄ h₃ hk
      have hw : wp _ (fun b'' t ↦ b'' = b' ∧ t = d₄) d₃ := ⟨b', d₄, hk, rfl, rfl⟩
      obtain ⟨n, d₅, hsize, hw⟩ := wp_bind.mp hw
      have hq₅ := quiet_getBlockSize index _ _ _ hsize
      refine Outcome.of_quiet ?_ hq₅
      obtain ⟨same, d₆, hpres, hw⟩ := wp_bind.mp hw
      have hq₆ := quiet_preserved _ _ _ _ _ _ _ hpres
      have h₆ := (h₃.quiet hq₅).quiet hq₆
      refine Outcome.of_quiet ?_ hq₆
      rw [wp_ite] at hw
      split_ifs at hw with hsame
      · obtain ⟨b₁, t, hk', rfl, rfl⟩ := hw
        exact outcome_of_quiet h₆ (quiet_remember _ _ _) hk'
      · rw [wp_bind, wp_mallocError, wp_pure] at hw
        obtain ⟨rfl, rfl⟩ := hw
        exact ⟨h₆.reported _, rfl⟩
  | free index =>
    obtain ⟨p, d₁, hget, hw⟩ := wp_bind.mp hw
    have hq₁ := quiet_getBlock index _ _ _ hget
    refine Outcome.of_quiet ?_ hq₁
    rw [wp_bind, Mdriver.removeRange, wp_modify] at hw
    obtain ⟨b₁, t, hk, rfl, rfl⟩ := hw
    exact (outcome_of_quiet ((h.quiet hq₁).removeRange p) (quiet_call (hP.mmFree p)) hk).of_errors
      rfl

theorem validLoop_outcome (hb : Base base) (hP : Tame P) (h : Watched base d)
    (ht : ∀ op ∈ ops, op.Typed) (hr : validLoop P tracenum i ops d = some (v, d')) :
    Watched base d' ∧ (v = 1 ∧ d'.errors = d.errors ∨ v = 0 ∧ d'.errors = d.errors + 1) := by
  induction ops generalizing i d with
  | nil =>
    have hw : wp (pure 1 : Drive ℤ) (fun v' t ↦ v' = v ∧ t = d') d := ⟨v, d', hr, rfl, rfl⟩
    obtain ⟨rfl, rfl⟩ := wp_pure.mp hw
    exact ⟨h, .inl ⟨rfl, rfl⟩⟩
  | cons op ops ih =>
    have hw : wp (validLoop P tracenum i (op :: ops)) (fun v' t ↦ v' = v ∧ t = d') d :=
      ⟨v, d', hr, rfl, rfl⟩
    obtain ⟨b, d₁, hop, hw⟩ := wp_bind.mp hw
    obtain ⟨h₁, herr⟩ := validOp_outcome hb hP h (ht op (by simp)) hop
    rw [wp_ite] at hw
    split_ifs at hw with hgo
    · obtain ⟨v', t, hloop, rfl, rfl⟩ := hw
      obtain ⟨h₂, hres⟩ := ih h₁ (fun o ho ↦ ht o (List.mem_cons_of_mem _ ho)) hloop
      rw [if_pos hgo, Nat.add_zero] at herr
      rw [herr] at hres
      exact ⟨h₂, hres⟩
    · obtain ⟨rfl, rfl⟩ := wp_pure.mp hw
      rw [if_neg hgo] at herr
      exact ⟨h₁, .inr ⟨rfl, herr⟩⟩

theorem wp_memResetBrk {Q : Unit → Heap → Prop} :
    wp memResetBrk Q s ↔ Q () { s with memBrk := s.memStartBrk } := wp_modify

theorem Placed.reset (h : Placed base s) : Placed base { s with memBrk := s.memStartBrk } := by
  have hstart := h.memStartBrk
  exact ⟨h.memStartBrk, h.memMaxAddr, by simp only; omega, by simp only; omega⟩

end CsoLabs.Mdriver
