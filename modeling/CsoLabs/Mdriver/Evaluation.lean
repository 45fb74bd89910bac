import CsoLabs.Mdriver.Playing

namespace CsoLabs.Mdriver

open Foundation CInt
open Malloc (Heap Alloc World Block Package Provides NULL MAX_HEAP sizeT Base mm Grown)
open MallocNaive (naive naive_provides)

def Verdict (ops : List TraceOp) (v : ℤ) : Prop :=
  (v = 1 ∧ ∀ op ∈ ops, ¬ op.Misread) ∨ (v = 0 ∧ ∃ op ∈ ops, op.Misread)

def totalTakes (cost : ℕ → ℕ) (ops : List TraceOp) : ℕ := (ops.map (TraceOp.takes cost)).sum

/-- The driver at the start of an evaluation: `mem_init` has been called, and the arrays of the
trace have an element for each of its `n` indices. -/
structure Prepared (base n : ℕ) (d : Driver) : Prop where
  placed : Placed base d.heap
  blocks : d.blocks.length = n
  blockSizes : d.blockSizes.length = n

variable {P : Package} {base n lo : ℕ} {cost : ℕ → ℕ} {R : World → Prop} {ids : Finset ℤ}
  {live : ℕ → Option Block} {L : List Extent} {i size tracenum opnum v : ℤ} {s : Heap} {d d' : Driver}
  {op : TraceOp} {ops : List TraceOp}

theorem mm_tame : Tame mm :=
  ⟨.bind (.of_modify fun _ ↦ ⟨rfl, rfl, le_rfl, id⟩) fun _ ↦
      .bind (.of_modify fun _ ↦ ⟨rfl, rfl, le_rfl, id⟩) fun _ ↦ .pure _,
    Malloc.grown_mmMalloc, Malloc.grown_mmFree, Malloc.grown_mmRealloc⟩

theorem naive_tame : Tame naive :=
  ⟨.pure _, MallocNaive.grown_mmMalloc, MallocNaive.grown_mmFree, MallocNaive.grown_mmRealloc⟩

section Verdicts

theorem Verdict.nil : Verdict [] 1 := .inl ⟨rfl, by simp⟩

theorem Verdict.misread (h : op.Misread) : Verdict (op :: ops) 0 := .inr ⟨rfl, op, by simp, h⟩

theorem Verdict.cons (h : ¬ op.Misread) (hv : Verdict ops v) : Verdict (op :: ops) v := by
  rcases hv with ⟨rfl, hall⟩ | ⟨rfl, o, ho, hmis⟩
  · refine .inl ⟨rfl, ?_⟩
    intro o ho
    rcases List.mem_cons.mp ho with rfl | ho
    · exact h
    · exact hall o ho
  · exact .inr ⟨rfl, o, List.mem_cons_of_mem _ ho, hmis⟩

theorem validLoop_result (hb : Base base) (H : Provides P base cost R)
    (hm : ∀ {w size p s}, R w → 0 < size → size ≤ MAX_HEAP →
      P.mmMalloc size w.heap = some (p, s) → p ≠ NULL)
    (hre : ∀ {w size p q s}, R w → 0 < size → size ≤ MAX_HEAP →
      P.mmRealloc p size w.heap = some (q, s) → q ≠ NULL)
    (Pl : Played R n ids d) (hops : Playable n ids ops)
    (h : validLoop P tracenum i ops d = some (v, d')) : Verdict ops v := by
  induction ops generalizing ids i d with
  | nil =>
    obtain ⟨rfl, -⟩ := Prod.ext_iff.mp (Option.some.inj h)
    exact .nil
  | cons op ops ih =>
    obtain ⟨live, L, Pl⟩ := Pl
    have hw : wp (validLoop P tracenum i (op :: ops)) (fun v' t ↦ v' = v ∧ t = d') d :=
      ⟨v, d', h, rfl, rfl⟩
    obtain ⟨e, d₁, hop, hw⟩ := wp_bind.mp hw
    obtain ⟨s, ha⟩ := answered_of_returns hops.1 (hm Pl.store) (hre Pl.store) hop
    have hserved := (validOp_served hb H Pl hops.1 ha).result hop
    rw [wp_ite] at hw
    split_ifs at hw with hgo
    · obtain ⟨v', t, hloop, rfl, rfl⟩ := hw
      exact .cons (hserved.goes.mp hgo) (ih (hserved.played hgo) hops.2 hloop)
    · obtain ⟨rfl, -⟩ := wp_pure.mp hw
      exact .misread (not_not.mp (mt hserved.goes.mpr hgo))

theorem wp_validLoop (hb : Base base) (H : Provides P base cost R) (Pl : Played R n ids d)
    (hops : Playable n ids ops) (hroom : d.heap.memBrk + totalTakes cost ops ≤ base + MAX_HEAP) :
    wp (validLoop P tracenum i ops) (fun v _ ↦ Verdict ops v) d := by
  induction ops generalizing ids i d with
  | nil => exact wp_pure.mpr .nil
  | cons op ops ih =>
    obtain ⟨live, L, Pl⟩ := Pl
    rw [totalTakes, List.map_cons, List.sum_cons, ← totalTakes] at hroom
    obtain ⟨s, ha⟩ := answered_of_room H Pl.store Pl.holding hops.1 (by omega)
    have hle := TraceOp.Answered.memBrk_le H Pl.store Pl.holding hops.1 ha
    rw [validLoop, wp_bind]
    refine (validOp_served hb H Pl hops.1 ha).mono ?_
    intro e d₁ hserved
    rw [wp_ite]
    split_ifs with hgo
    · refine (ih (hserved.played hgo) hops.2 ?_).mono fun v _ hv ↦ .cons (hserved.goes.mp hgo) hv
      rw [hserved.memBrk]
      omega
    · exact wp_pure.mpr (.misread (not_not.mp (mt hserved.goes.mpr hgo)))

end Verdicts

theorem evalMmValid_eq (H : Provides P base cost R) (hd : Prepared base n d) (tracenum : ℤ)
    (ops : List TraceOp) : ∃ d₁, Played R n ∅ d₁ ∧ d₁.heap.memBrk = base ∧
      evalMmValid P ops tracenum d = validLoop P tracenum 0 ops d₁ := by
  have hstart := hd.placed.memStartBrk
  obtain ⟨_, s, hinit, rfl, hR, hbrk⟩ := H.init (s := { d.heap with memBrk := d.heap.memStartBrk })
    hstart hstart hd.placed.memMaxAddr
  refine ⟨{ d with heap := s, ranges := [] },
    ⟨_, _, hR, .empty hd.blocks hd.blockSizes, rfl⟩, hbrk, ?_⟩
  let d₀ : Driver := { d with heap := { d.heap with memBrk := d.heap.memStartBrk }, ranges := [] }
  have hcall : call P.mmInit d₀ = some (0, { d with heap := s, ranges := [] }) := by
    rw [call, onPart, hinit]
    rfl
  change (call P.mmInit d₀).bind _ = _
  rw [hcall]
  rfl

section Naive

def TraceOp.Refused (P : Package) (d : Driver) : TraceOp → Prop
  | .alloc _ size => ∃ s, P.mmMalloc (sizeT size) d.heap = some (NULL, s)
  | .realloc index size => ∃ p s, element d.blocks index = some p ∧
    P.mmRealloc p (sizeT size) d.heap = some (NULL, s)
  | .free _ => False

theorem wp_validOp_refused (h : op.Refused P d) :
    wp (validOp P tracenum opnum op) (fun e _ ↦ e = false) d := by
  cases op with
  | alloc index size =>
    obtain ⟨s, hm⟩ := h
    rw [validOp, wp_bind, wp_call]
    refine (wp_of_eq hm).mpr ?_
    rw [wp_ite, if_pos rfl, wp_bind, wp_mallocError, wp_pure]
  | realloc index size =>
    obtain ⟨p, s, hblock, hm⟩ := h
    rw [validOp, wp_bind, wp_getBlock]
    refine ⟨p, hblock, ?_⟩
    rw [wp_bind, wp_call]
    refine (wp_of_eq hm).mpr ?_
    rw [wp_ite, if_pos rfl, wp_bind, wp_mallocError, wp_pure]
  | free index => exact absurd h id

def NaiveStore (base : ℕ) (w : World) : Prop := ∃ cs, MallocNaive.Coherent base w cs

theorem naive_answers {good : ℤ → Block → Prop} (hR : NaiveStore base ⟨d.heap, live⟩)
    (Hd : Holding good n ids live L d.blocks d.blockSizes) (hr : op.Ready n ids) :
    (d.heap.memBrk + op.takes MallocNaive.chunkFor ≤ base + MAX_HEAP ∧
      ∃ s, op.Answered naive d s ∧
        s.memBrk = d.heap.memBrk + op.takes MallocNaive.chunkFor) ∨
    (base + MAX_HEAP < d.heap.memBrk + op.takes MallocNaive.chunkFor ∧ op.Refused naive d) := by
  obtain ⟨cs, C⟩ := hR
  have hcalls := C.bumpCalls
  have hbrk : d.heap.memBrk ≤ base + MAX_HEAP := by
    rw [← C.max]
    exact C.inv.brk_le
  cases op with
  | alloc index size =>
    obtain ⟨h₀, hlt, hsize, hmax⟩ := hr
    have hsz := sizeT_of_size hsize hmax
    rcases le_or_gt (d.heap.memBrk + MallocNaive.chunkFor (sizeT size)) (base + MAX_HEAP) with
      hroom | hfull
    · obtain ⟨s, hm, hs⟩ := hcalls.grows (sizeT size) (by omega) hroom
      exact .inl ⟨hroom, s, ⟨_, hm, MallocNaive.payload_ne_null _⟩, hs⟩
    · exact .inr ⟨hfull, _, (hcalls.refuses (sizeT size) (by omega) hfull).1⟩
  | realloc index size =>
    obtain ⟨hi, hsize, hmax⟩ := hr
    have hsz := sizeT_of_size hsize hmax
    obtain ⟨p, b, hblock, -, hlive, -⟩ := Hd.slots.held index hi
    rcases le_or_gt (d.heap.memBrk + MallocNaive.chunkFor (sizeT size)) (base + MAX_HEAP) with
      hroom | hfull
    · obtain ⟨s, hm, hs, -⟩ := hcalls.moves (sizeT size) (by omega) (by omega) hroom p b hlive
      exact .inl ⟨hroom, s, ⟨p, _, hblock, hm, MallocNaive.payload_ne_null _⟩, hs⟩
    · exact .inr ⟨hfull, p, _, hblock,
        (hcalls.refuses (sizeT size) (by omega) hfull).2 (by omega) p⟩
  | free index => exact .inl ⟨hbrk, d.heap, rfl, rfl⟩

def Passes (room : ℕ) (ops : List TraceOp) : Prop :=
  (∀ op ∈ ops, ¬ op.Misread) ∧ totalTakes MallocNaive.chunkFor ops ≤ room

theorem passes_nil {room : ℕ} : Passes room [] := ⟨by simp, Nat.zero_le _⟩

theorem passes_cons {room : ℕ} : Passes room (op :: ops) ↔ ¬ op.Misread ∧
    op.takes MallocNaive.chunkFor ≤ room ∧ Passes (room - op.takes MallocNaive.chunkFor) ops := by
  unfold Passes totalTakes
  rw [List.forall_mem_cons, List.map_cons, List.sum_cons]
  constructor
  · intro ⟨⟨hop, hops⟩, hle⟩
    exact ⟨hop, by omega, hops, by omega⟩
  · intro ⟨hop, hle, hops, hle'⟩
    exact ⟨⟨hop, hops⟩, by omega⟩

theorem wp_validLoop_naive (hb : Base base) (Pl : Played (NaiveStore base) n ids d)
    (hops : Playable n ids ops) :
    wp (validLoop naive tracenum i ops)
      (fun v _ ↦ v = 1 ∧ Passes (base + MAX_HEAP - d.heap.memBrk) ops ∨
        v = 0 ∧ ¬ Passes (base + MAX_HEAP - d.heap.memBrk) ops) d := by
  induction ops generalizing ids i d with
  | nil => exact wp_pure.mpr (.inl ⟨rfl, passes_nil⟩)
  | cons op ops ih =>
    obtain ⟨live, L, Pl⟩ := Pl
    rw [validLoop, wp_bind]
    rcases naive_answers Pl.store Pl.holding hops.1 with ⟨hroom, s, ha, hs⟩ | ⟨hfull, href⟩
    · refine (validOp_served hb (naive_provides hb) Pl hops.1 ha).mono ?_
      intro e d₁ hserved
      rw [wp_ite]
      split_ifs with hgo
      · refine (ih (hserved.played hgo) hops.2).mono ?_
        intro v _ hv
        have hbrk : base + MAX_HEAP - d₁.heap.memBrk =
            base + MAX_HEAP - d.heap.memBrk - op.takes MallocNaive.chunkFor := by
          rw [hserved.memBrk, hs]
          omega
        rw [hbrk] at hv
        have hmis := hserved.goes.mp hgo
        have hle : op.takes MallocNaive.chunkFor ≤ base + MAX_HEAP - d.heap.memBrk := by omega
        rw [passes_cons]
        exact hv.imp (fun h ↦ ⟨h.1, hmis, hle, h.2⟩) fun h ↦ ⟨h.1, fun hp ↦ h.2 hp.2.2⟩
      · have hmis := not_not.mp (mt hserved.goes.mpr hgo)
        exact wp_pure.mpr (.inr ⟨rfl, fun hp ↦ (passes_cons.mp hp).1 hmis⟩)
    · refine (wp_validOp_refused href).mono ?_
      rintro e d₁ rfl
      rw [wp_ite, if_neg Bool.false_ne_true]
      refine wp_pure.mpr (.inr ⟨rfl, fun hp ↦ ?_⟩)
      have hle := (passes_cons.mp hp).2.1
      have hbrk := ((naive_provides hb).placed Pl.store).2.2
      simp only at hbrk
      omega

end Naive

section Mm

open Malloc (chunkFor)

theorem evalMmValid_mm (hb : Base base) (hd : Prepared base n d) (hops : Playable n ∅ ops)
    (h : evalMmValid mm ops tracenum d = some (v, d')) : Verdict ops v := by
  obtain ⟨d₁, Pl, -, heq⟩ := evalMmValid_eq (Malloc.mm_provides hb) hd tracenum ops
  rw [heq] at h
  refine validLoop_result hb (Malloc.mm_provides hb) ?_ ?_ Pl hops h
  · intro w size p s ⟨A, F, C⟩ hn hn' hm
    exact (C.malloc_fresh hn hn' hm).1
  · intro w size p q s ⟨A, F, C⟩ hn hn' hm
    exact (C.realloc_fresh hn hn' hm).1

theorem evalMmValid_mm_returns (tracenum : ℤ) (hb : Base base) (hd : Prepared base n d) (hops : Playable n ∅ ops)
    (hroom : totalTakes chunkFor ops ≤ MAX_HEAP) :
    ∃ v d', evalMmValid mm ops tracenum d = some (v, d') := by
  obtain ⟨d₁, Pl, hbrk, heq⟩ := evalMmValid_eq (Malloc.mm_provides hb) hd tracenum ops
  obtain ⟨v, d', h, -⟩ := wp_validLoop hb (Malloc.mm_provides hb) Pl
    hops (by rw [hbrk]; omega)
  exact ⟨v, d', heq.trans h⟩

end Mm

theorem evalMmValid_naive (tracenum : ℤ) (hb : Base base) (hd : Prepared base n d) (hops : Playable n ∅ ops) :
    ∃ v d', evalMmValid naive ops tracenum d = some (v, d') ∧
      (v = 1 ∧ Passes MAX_HEAP ops ∨ v = 0 ∧ ¬ Passes MAX_HEAP ops) := by
  obtain ⟨d₁, Pl, hbrk, heq⟩ := evalMmValid_eq (naive_provides hb) hd tracenum ops
  obtain ⟨v, d', h, hv⟩ := wp_validLoop_naive hb Pl hops
  rw [hbrk, Nat.add_sub_cancel_left] at hv
  exact ⟨v, d', heq.trans h, hv⟩

def freshDriver (n : ℕ) : Driver :=
  ⟨Malloc.emptyWorld.heap, [], List.replicate n none, List.replicate n none, 0, []⟩

theorem prepared_freshDriver (n : ℕ) : Prepared 4096 n (freshDriver n) :=
  ⟨⟨rfl, rfl, le_rfl, Nat.le_add_right _ _⟩, List.length_replicate, List.length_replicate⟩

/-- `add_range` accepts a payload exactly if it is aligned, lies within the heap, and each recorded
payload is apart from it or strictly inside it. -/
theorem addRange_exact (lo : ℕ) (tracenum opnum : ℤ) (hb : Base base) (h : Watched base d)
    (hsize : 0 < size) (hfit : Fits 32 size) : ∃ r d', addRange lo size tracenum opnum d = some (r, d') ∧
      ((r = 1 ∧ Acceptable d lo size ∧
          d' = { d with ranges := ⟨lo, lastByte lo size⟩ :: d.ranges } ∧ Watched base d') ∨
        (r = 0 ∧ ¬ Acceptable d lo size ∧ ∃ msg, d' = reported tracenum opnum msg d)) := by
  have hadd : wp (addRange lo size tracenum opnum) _ d := wp_addRange hb h.placed hsize hfit
  obtain ⟨r, d', hr, h₁⟩ := hadd
  refine ⟨r, d', hr, h₁.imp_left ?_⟩
  rintro ⟨rfl, ha, rfl⟩
  exact ⟨rfl, ha, rfl, h.addRange hb hsize ha⟩

theorem addRange_exact_around : ∃ d', addRange 8192 64 0 0
    { freshDriver 1 with
      heap := { Malloc.emptyWorld.heap with memBrk := 4096 + 8192 }, ranges := [⟨8208, 8223⟩] } =
      some (1, d') ∧ d'.ranges = [⟨8192, 8255⟩, ⟨8208, 8223⟩] := by
  have hwatched : Watched 4096 { freshDriver 1 with
      heap := { Malloc.emptyWorld.heap with memBrk := 4096 + 8192 }, ranges := [⟨8208, 8223⟩] } :=
    ⟨⟨rfl, rfl, by decide, by decide⟩, ⟨by simp, by simp, by simp [Malloc.emptyWorld], by simp⟩⟩
  have hlast : lastByte 8192 64 = 8255 := by decide
  obtain ⟨r, d', h, ⟨rfl, -, rfl, -⟩ | ⟨-, hna, -⟩⟩ := addRange_exact 8192 0 0
    Malloc.base_4096 hwatched (by decide : (0 : ℤ) < 64) (by decide)
  · refine ⟨_, h, ?_⟩
    rw [hlast]
  · refine absurd ⟨by decide, by decide, by decide, ?_⟩ hna
    rw [hlast]
    simp [RangeT.Apart, RangeT.Encloses]

/-- What an evaluation that has returned says: the range list is checked, and there is a report
exactly when the package has failed. -/
theorem evalMmValid_checked (hb : Base base) (hP : Tame P) (hd : Placed base d.heap)
    (ht : ∀ op ∈ ops, op.Typed) (h : evalMmValid P ops tracenum d = some (v, d')) :
    Checked d'.heap d'.ranges ∧
      (v = 1 ∧ d'.errors = d.errors ∨ v = 0 ∧ d'.errors = d.errors + 1) := by
  have hw : wp (evalMmValid P ops tracenum) (fun v' t ↦ v' = v ∧ t = d') d := ⟨v, d', h, rfl, rfl⟩
  rw [evalMmValid, wp_bind, wp_call, wp_memResetBrk, wp_bind, clearRanges, wp_modify, wp_bind,
    wp_call] at hw
  obtain ⟨r, s, hinit, hw⟩ := hw
  have hwatched : Watched base { d with heap := s, ranges := [] } :=
    ⟨hd.reset.grown (hP.mmInit _ _ _ hinit), .nil s⟩
  rw [wp_ite] at hw
  split_ifs at hw with hneg
  · rw [wp_bind, wp_mallocError, wp_pure] at hw
    obtain ⟨rfl, rfl⟩ := hw
    exact ⟨(hwatched.reported _).checked, .inr ⟨rfl, rfl⟩⟩
  · obtain ⟨v', t, hloop, rfl, rfl⟩ := hw
    obtain ⟨hend, hres⟩ := validLoop_outcome hb hP hwatched ht hloop
    exact ⟨hend.checked, hres⟩


theorem evalMmValid_checked_128 :
    ∃ v d', evalMmValid mm [.alloc 128 24, .realloc 128 40] 0 (freshDriver 129) = some (v, d') ∧
      Checked d'.heap d'.ranges ∧
      (v = 1 ∧ d'.errors = (freshDriver 129).errors ∨
        v = 0 ∧ d'.errors = (freshDriver 129).errors + 1) := by
  obtain ⟨v, d', h⟩ := evalMmValid_mm_returns 0 Malloc.base_4096 (prepared_freshDriver 129)
    (by decide : Playable 129 ∅ [.alloc 128 24, .realloc 128 40]) (by decide)
  refine ⟨v, d', h, evalMmValid_checked Malloc.base_4096 mm_tame (prepared_freshDriver 129).placed ?_ h⟩
  intro op hop
  fin_cases hop
  · exact fits_int.mpr ⟨by decide, by decide⟩
  · exact fits_int.mpr ⟨by decide, by decide⟩

/-- The package of mm.c passes a trace unless a reallocation in it is misread; it returns on each
trace whose chunks would all fit side by side. -/
theorem mm_passes_traces (tracenum : ℤ) (hb : Base base) (hd : Prepared base n d) (hops : Playable n ∅ ops) :
    (∀ v d', evalMmValid mm ops tracenum d = some (v, d') → Verdict ops v) ∧
      (totalTakes Malloc.chunkFor ops ≤ MAX_HEAP →
        ∃ v d', evalMmValid mm ops tracenum d = some (v, d')) :=
  ⟨fun _ _ h ↦ evalMmValid_mm hb hd hops h, evalMmValid_mm_returns tracenum hb hd hops⟩

theorem mm_passes_traces_128 : ∃ d',
    evalMmValid mm [.alloc 128 24, .realloc 128 40] 0 (freshDriver 129) = some (0, d') := by
  obtain ⟨hverdict, hreturns⟩ := mm_passes_traces 0 Malloc.base_4096
    (prepared_freshDriver 129) (by decide : Playable 129 ∅ [.alloc 128 24, .realloc 128 40])
  obtain ⟨v, d', h⟩ := hreturns (by decide)
  rcases hverdict v d' h with ⟨-, hall⟩ | ⟨rfl, -⟩
  · exact absurd (by decide : (128 : ℤ) ≤ lowByte 128) (hall (.realloc 128 40) (by simp))
  · exact ⟨d', h⟩

/-- The naive package passes exactly the traces whose chunks all fit side by side, but for the
misread reallocations. -/
theorem naive_passes_traces (tracenum : ℤ) (hb : Base base) (hd : Prepared base n d) (hops : Playable n ∅ ops) :
    ∃ v d', evalMmValid naive ops tracenum d = some (v, d') ∧
      (v = 1 ∧ Passes MAX_HEAP ops ∨ v = 0 ∧ ¬ Passes MAX_HEAP ops) :=
  evalMmValid_naive tracenum hb hd hops

theorem naive_passes_traces_127 : ∃ d',
    evalMmValid naive [.alloc 127 24, .realloc 127 40, .free 127] 0 (freshDriver 128) =
      some (1, d') := by
  obtain ⟨v, d', h, ⟨rfl, -⟩ | ⟨-, hna⟩⟩ :=
    naive_passes_traces 0 Malloc.base_4096 (prepared_freshDriver 128)
      (by decide : Playable 128 ∅ [.alloc 127 24, .realloc 127 40, .free 127])
  · exact ⟨d', h⟩
  · refine absurd ⟨?_, by decide⟩ hna
    intro op hop
    fin_cases hop <;> simp [TraceOp.Misread, lowByte]

end CsoLabs.Mdriver
