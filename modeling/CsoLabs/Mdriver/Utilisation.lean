import CsoLabs.Mdriver.Evaluation

namespace CsoLabs.Mdriver

open Foundation CInt
open Malloc (Heap Alloc World Block Package Provides NULL MAX_HEAP sizeT gain lose reallocated Isolated
  Base mm)
open MallocNaive (naive naive_provides)

variable {P Q : Package} {base n p : ℕ} {cost : ℕ → ℕ} {R : World → Prop} {ids : Finset ℤ}
  {live : ℕ → Option Block} {L : List Extent} {b : Block} {i size incr : ℤ} {s : Heap}
  {d d' e e' : Driver} {u u' : Usage} {op : TraceOp} {ops : List TraceOp}

theorem Tracks.sum_le (T : Tracks live L) (hw : Isolated ⟨s, live⟩) :
    (L.map Extent.size).sum ≤ s.memBrk - s.memStartBrk := by
  apply sum_size_le
  · have hne : L.Pairwise fun c d ↦ c.addr ≠ d.addr := List.pairwise_map.mp T.nodup
    refine hne.imp_of_mem ?_
    intro c d hc hd hcd
    obtain ⟨b, hb, hsize⟩ := T.live hc
    obtain ⟨b', hb', hsize'⟩ := T.live hd
    have hdisj := hw.disjoint _ b _ b' hb hb' hcd
    unfold Extent.Apart Extent.stop
    omega
  · intro c hc
    obtain ⟨b, hb, hsize⟩ := T.live hc
    have hin := hw.inside _ b hb
    simp only at hin
    unfold Extent.stop
    omega

/-- Between two requests of `eval_mm_util`: `total_size` is the size of the blocks that are held, and
`max_total_size` has fitted into the heap. -/
structure Tallied (R : World → Prop) (base n : ℕ) (ids : Finset ℤ) (u : Usage) (d : Driver) : Prop where
  held : ∃ live L, R ⟨d.heap, live⟩ ∧ Holding (fun _ _ ↦ True) n ids live L d.blocks d.blockSizes ∧
    u.totalSize = (L.map Extent.size).sum
  nonneg : 0 ≤ u.maxTotalSize
  fits : u.maxTotalSize ≤ (d.heap.memBrk - base : ℕ)

theorem Usage.add_eq (h : Fits 32 (u.totalSize + incr)) : u.add incr =
    some ⟨max u.maxTotalSize (u.totalSize + incr), u.totalSize + incr⟩ := by
  rw [Usage.add, int, checked_of_fits h]
  change some (Usage.mk (if u.totalSize + incr > u.maxTotalSize then _ else _) _) = _
  split_ifs with hgt
  · rw [max_eq_right hgt.le]
  · rw [max_eq_left (not_lt.mp hgt)]

theorem fits_of_le_heap {x : ℤ} (h₀ : 0 ≤ x) (h : x ≤ MAX_HEAP) : Fits 32 x := by
  unfold MAX_HEAP at h
  exact fits_int.mpr (by omega)

theorem Tallied.add {ids' : Finset ℤ} (d' : Driver) (T : Tallied R base n ids u d) (H : Provides P base cost R)
    (hbrk : d.heap.memBrk ≤ d'.heap.memBrk) (hR : R ⟨d'.heap, live⟩)
    (Hd : Holding (fun _ _ ↦ True) n ids' live L d'.blocks d'.blockSizes)
    (htotal : u.totalSize + incr = (L.map Extent.size).sum) :
    ∃ u', u.add incr = some u' ∧ Tallied R base n ids' u' d' := by
  have hpack := Hd.tracks.sum_le (H.isolated hR)
  have hplaced := H.placed hR
  have hfits := T.fits
  simp only at hplaced
  refine ⟨_, Usage.add_eq (fits_of_le_heap (by omega) (by omega)), ⟨live, L, hR, Hd, htotal⟩, ?_, ?_⟩
  · exact le_max_of_le_left T.nonneg
  · simp only [htotal]
    apply max_le <;> omega

theorem wrapSigned_size (h : b.size ≤ MAX_HEAP) : wrapSigned 32 (b.size : ℤ) = b.size :=
  wrapSigned_of_fits (by decide) (fits_of_le_heap (by omega) (by omega))

theorem wp_utilOp_alloc (H : Provides P base cost R) (T : Tallied R base n ids u d)
    (hr : TraceOp.Ready n ids (.alloc i size)) (ha : TraceOp.Answered P d s (.alloc i size)) :
    wp (utilOp P u (.alloc i size))
      (fun u' d' ↦ Tallied R base n (insert i ids) u' d' ∧ d'.heap.memBrk = s.memBrk) d := by
  obtain ⟨live, L, hR, Hd, htotal⟩ := T.held
  obtain ⟨h₀, hlt, hsize, hmax⟩ := hr
  have hsz := sizeT_of_size hsize hmax
  have hlb : i < d.blocks.length := by rw [Hd.slots.lengthBlocks]; exact hlt
  have hls : i < d.blockSizes.length := by rw [Hd.slots.lengthSizes]; exact hlt
  rw [TraceOp.Answered, hsz] at ha
  obtain ⟨p, hm, hp⟩ := ha
  obtain ⟨hnew, hgain, hle, -⟩ := H.malloc hR (by omega) (by omega) hm
  have hput := Hd.put (b := .fresh size.toNat) hp hnew h₀ hlt
    (by change 0 < size.toNat ∧ size.toNat ≤ MAX_HEAP; omega) trivial
  have htotal' : u.totalSize + size = (((⟨p, size.toNat⟩ :: L).map Extent.size).sum : ℕ) := by
    rw [List.map_cons, List.sum_cons, htotal, Nat.cast_add]
    change _ = (size.toNat : ℤ) + _
    omega
  obtain ⟨u', hadd, T'⟩ := T.add ⟨s, d.ranges, _, _, d.errors, d.output⟩ H hle hgain hput
    htotal'
  rw [utilOp, wp_bind, wp_call, hsz]
  refine (wp_of_eq hm).mpr ?_
  rw [wp_ite, if_neg hp, wp_bind, wp_setBlock]
  refine ⟨_, store_eq h₀ hlb _, ?_⟩
  rw [wp_bind, wp_setBlockSize]
  exact ⟨_, store_eq h₀ hls _, wp_lift.mpr ⟨u', hadd, T', rfl⟩⟩

theorem wp_utilOp_realloc (H : Provides P base cost R) (T : Tallied R base n ids u d)
    (hr : TraceOp.Ready n ids (.realloc i size)) (ha : TraceOp.Answered P d s (.realloc i size)) :
    wp (utilOp P u (.realloc i size))
      (fun u' d' ↦ Tallied R base n ids u' d' ∧ d'.heap.memBrk = s.memBrk) d := by
  obtain ⟨live, L, hR, Hd, htotal⟩ := T.held
  obtain ⟨hi, hsize, hmax⟩ := hr
  have hsz := sizeT_of_size hsize hmax
  obtain ⟨p, b, hblock, hold, hlive, -⟩ := Hd.slots.held i hi
  obtain ⟨hpos, hle⟩ := Hd.sized p b hlive
  obtain ⟨h₀, hlb⟩ := element_range hblock
  have hlt : i < n := by rw [← Hd.slots.lengthBlocks]; exact hlb
  have hls : i < d.blockSizes.length := by rw [Hd.slots.lengthSizes]; exact hlt
  obtain ⟨_, q, hblock', hm, hq⟩ := ha
  obtain rfl := Option.some.inj (hblock.symm.trans hblock')
  rw [hsz] at hm
  obtain ⟨hnew, hgain, hbrk, -⟩ := H.realloc hR hlive hpos (by omega) (by omega) hm
  have hrlive : reallocated live p size.toNat q b = gain (lose live p) q (b.resize size.toNat) :=
    if_neg fun h ↦ hq h.1
  rw [hrlive] at hgain
  have hnone : lose live p q = none := by
    by_cases hqp : q = p
    · rw [hqp, lose, Function.update_self]
    · exact (lose_of_ne hqp).trans hnew
  have hput := (Hd.drop hi hblock).put (b := b.resize size.toNat) hq hnone h₀ hlt
    (by change 0 < size.toNat ∧ size.toNat ≤ MAX_HEAP; omega) trivial
  rw [Finset.insert_erase hi] at hput
  have htotal' : u.totalSize + (size - b.size) =
      (((⟨q, size.toNat⟩ :: L.eraseP fun e ↦ e.addr = p).map Extent.size).sum : ℕ) := by
    have hsum := Hd.tracks.sum_eraseP hlive
    rw [List.map_cons, List.sum_cons, htotal, Nat.cast_add]
    change _ = (size.toNat : ℤ) + _
    omega
  obtain ⟨u', hadd, T'⟩ := T.add ⟨s, d.ranges, _, _, d.errors, d.output⟩ H hbrk hgain hput
    htotal'
  have hincr : Fits 32 (size - b.size) := by
    unfold MAX_HEAP at hmax hle
    exact fits_int.mpr (by omega)
  rw [utilOp, wp_bind, wp_getBlockSize]
  refine ⟨b.size, hold, ?_⟩
  rw [wrapSigned_size hle, wp_bind, wp_getBlock]
  refine ⟨p, hblock, ?_⟩
  rw [wp_bind, wp_call, hsz]
  refine (wp_of_eq hm).mpr ?_
  rw [wp_ite, if_neg hq, wp_bind, wp_setBlock]
  refine ⟨_, store_eq h₀ hlb _, ?_⟩
  rw [wp_bind, wp_setBlockSize]
  refine ⟨_, store_eq h₀ hls _, ?_⟩
  rw [wp_bind, wp_lift]
  exact ⟨_, checked_of_fits hincr, wp_lift.mpr ⟨u', hadd, T', rfl⟩⟩

theorem wp_utilOp_free (H : Provides P base cost R) (T : Tallied R base n ids u d)
    (hr : TraceOp.Ready n ids (.free i)) (ha : TraceOp.Answered P d s (.free i)) :
    wp (utilOp P u (.free i))
      (fun u' d' ↦ Tallied R base n (ids.erase i) u' d' ∧ d'.heap.memBrk = s.memBrk) d := by
  obtain ⟨live, L, hR, Hd, htotal⟩ := T.held
  obtain ⟨p, b, hblock, hold, hlive, -⟩ := Hd.slots.held i hr
  obtain ⟨hpos, hle⟩ := Hd.sized p b hlive
  have hsum := Hd.tracks.sum_eraseP hlive
  have hpack := Hd.tracks.sum_le (H.isolated hR)
  have hplaced := H.placed hR
  simp only at hplaced
  rw [utilOp, wp_bind, wp_getBlockSize]
  refine ⟨b.size, hold, ?_⟩
  rw [wrapSigned_size hle, wp_bind, wp_getBlock]
  refine ⟨p, hblock, ?_⟩
  rw [wp_bind, wp_call]
  refine (H.free hR hlive hpos).mono ?_
  intro _ s' h
  rw [wp_bind, wp_lift]
  refine ⟨_, checked_of_fits (fits_of_le_heap (by omega) (by omega)), wp_pure.mpr ?_⟩
  refine ⟨⟨⟨_, _, h.1, Hd.drop hr hblock, ?_⟩, T.nonneg, ?_⟩, h.2.trans ha.symm⟩
  · simp only
    omega
  · simp only [h.2]
    exact T.fits

theorem wp_utilOp (H : Provides P base cost R) (T : Tallied R base n ids u d)
    (hr : op.Ready n ids) (ha : op.Answered P d s) :
    wp (utilOp P u op)
      (fun u' d' ↦ Tallied R base n (op.after ids) u' d' ∧ d'.heap.memBrk = s.memBrk) d := by
  cases op with
  | alloc index size => exact wp_utilOp_alloc H T hr ha
  | realloc index size => exact wp_utilOp_realloc H T hr ha
  | free index => exact wp_utilOp_free H T hr ha

/-- A round that has returned was answered: a refusal ends the program. -/
theorem answered_of_utilOp (h : utilOp P u op d = some (u', d')) : ∃ s, op.Answered P d s := by
  have hw : wp (utilOp P u op) (fun _ _ ↦ True) d := ⟨u', d', h, trivial⟩
  cases op with
  | alloc index size =>
    rw [utilOp, wp_bind, wp_call] at hw
    obtain ⟨p, s, hm, hw⟩ := hw
    rw [wp_ite] at hw
    split_ifs at hw with hp
    · exact absurd hw wp_failure
    · exact ⟨s, p, hm, hp⟩
  | realloc index size =>
    rw [utilOp, wp_bind, wp_getBlockSize] at hw
    obtain ⟨old, -, hw⟩ := hw
    rw [wp_bind, wp_getBlock] at hw
    obtain ⟨p, hblock, hw⟩ := hw
    rw [wp_bind, wp_call] at hw
    obtain ⟨q, s, hm, hw⟩ := hw
    rw [wp_ite] at hw
    split_ifs at hw with hq
    · exact absurd hw wp_failure
    · exact ⟨s, p, q, hblock, hm, hq⟩
  | free index => exact ⟨d.heap, rfl⟩

theorem utilLoop_tallied (H : Provides P base cost R) (T : Tallied R base n ids u d)
    (hops : Playable n ids ops) (h : utilLoop P u ops d = some (u', d')) :
    ∃ ids', Tallied R base n ids' u' d' := by
  induction ops generalizing ids u d with
  | nil =>
    obtain ⟨rfl, rfl⟩ := Prod.ext_iff.mp (Option.some.inj h)
    exact ⟨ids, T⟩
  | cons op ops ih =>
    obtain ⟨⟨u₁, d₁⟩, hop, hloop⟩ := Option.bind_eq_some_iff.mp h
    obtain ⟨s, ha⟩ := answered_of_utilOp hop
    exact ih ((wp_utilOp H T hops.1 ha).result hop).1 hops.2 hloop

theorem wp_utilLoop (H : Provides P base cost R) (T : Tallied R base n ids u d)
    (hops : Playable n ids ops) (hroom : d.heap.memBrk + totalTakes cost ops ≤ base + MAX_HEAP) :
    wp (utilLoop P u ops) (fun _ _ ↦ True) d := by
  induction ops generalizing ids u d with
  | nil => exact wp_pure.mpr trivial
  | cons op ops ih =>
    obtain ⟨live, L, hR, Hd, -⟩ := T.held
    rw [totalTakes, List.map_cons, List.sum_cons, ← totalTakes] at hroom
    obtain ⟨s, ha⟩ := answered_of_room H hR Hd hops.1 (by omega)
    have hle := TraceOp.Answered.memBrk_le H hR Hd hops.1 ha
    rw [utilLoop, wp_bind]
    refine (wp_utilOp H T hops.1 ha).mono ?_
    rintro u₁ d₁ ⟨T₁, hbrk⟩
    exact ih T₁ hops.2 (by omega)

theorem not_refused_of_answered (h : op.Answered P d s) : ¬ op.Refused P d := by
  intro href
  cases op with
  | alloc index size =>
    obtain ⟨p, hm, hp⟩ := h
    obtain ⟨s', hm'⟩ := href
    rw [hm] at hm'
    exact hp (Prod.ext_iff.mp (Option.some.inj hm')).1
  | realloc index size =>
    obtain ⟨p, q, hp, hm, hq⟩ := h
    obtain ⟨p', s', hp', hm'⟩ := href
    obtain rfl := Option.some.inj (hp.symm.trans hp')
    rw [hm] at hm'
    exact hq (Prod.ext_iff.mp (Option.some.inj hm')).1
  | free index => exact href

theorem utilLoop_naive (hb : Base base) (T : Tallied (NaiveStore base) base n ids u d)
    (hops : Playable n ids ops) (h : utilLoop naive u ops d = some (u', d')) :
    d'.heap.memBrk = d.heap.memBrk + totalTakes MallocNaive.chunkFor ops := by
  induction ops generalizing ids u d with
  | nil =>
    obtain ⟨rfl, rfl⟩ := Prod.ext_iff.mp (Option.some.inj h)
    rfl
  | cons op ops ih =>
    obtain ⟨⟨u₁, d₁⟩, hop, hloop⟩ := Option.bind_eq_some_iff.mp h
    obtain ⟨live, L, hR, Hd, -⟩ := T.held
    obtain ⟨s', ha'⟩ := answered_of_utilOp hop
    rcases naive_answers hR Hd hops.1 with ⟨-, s, ha, hs⟩ | ⟨-, href⟩
    · obtain ⟨T₁, hbrk⟩ := (wp_utilOp (naive_provides hb) T hops.1 ha).result hop
      rw [totalTakes, List.map_cons, List.sum_cons, ← totalTakes, ih T₁ hops.2 hloop, hbrk, hs]
      omega
    · exact absurd href (not_refused_of_answered ha')

section Packages

def tally (u : Usage) (sizes : List (Option ℕ)) : TraceOp → Option (Usage × List (Option ℕ))
  | .alloc index size => do
    let sizes ← CArray.store sizes index (some (sizeT size))
    return (← u.add size, sizes)
  | .realloc index newsize => do
    let oldsize ← element sizes index
    let sizes ← CArray.store sizes index (some (sizeT newsize))
    let incr ← int (newsize - wrapSigned 32 oldsize)
    return (← u.add incr, sizes)
  | .free index => do
    let size ← element sizes index
    let totalSize ← int (u.totalSize - wrapSigned 32 size)
    return ({ u with totalSize := totalSize }, sizes)

structure Alike (d e : Driver) : Prop where
  heap : d.heap = e.heap
  blocks : d.blocks = e.blocks

/-- A round of `eval_mm_util`: its statistics are those of the trace, and `eval_mm_speed` makes the
same call. -/
theorem utilOp_outcome (h : utilOp P u op d = some (u', d')) :
    tally u d.blockSizes op = some (u', d'.blockSizes) ∧
      ∀ e, Alike d e → wp (speedOp P op) (fun _ e' ↦ Alike d' e') e := by
  have hw : wp (utilOp P u op) (fun v t ↦ v = u' ∧ t = d') d := ⟨u', d', h, rfl, rfl⟩
  cases op with
  | alloc index size =>
    rw [utilOp, wp_bind, wp_call] at hw
    obtain ⟨p, s, hm, hw⟩ := hw
    rw [wp_ite] at hw
    split_ifs at hw with hp
    · exact absurd hw wp_failure
    rw [wp_bind, wp_setBlock] at hw
    obtain ⟨blocks, hblocks, hw⟩ := hw
    rw [wp_bind, wp_setBlockSize] at hw
    obtain ⟨sizes, hsizes, hw⟩ := hw
    obtain ⟨v, hadd, rfl, rfl⟩ := wp_lift.mp hw
    simp only at hblocks hsizes
    constructor
    · rw [tally, hsizes, hadd]
      rfl
    · rintro e ⟨hheap, hbl⟩
      rw [hheap] at hm
      rw [hbl] at hblocks
      rw [speedOp, wp_bind, wp_call]
      refine (wp_of_eq hm).mpr ?_
      rw [wp_ite, if_neg hp, wp_setBlock]
      exact ⟨blocks, hblocks, rfl, rfl⟩
  | realloc index size =>
    rw [utilOp, wp_bind, wp_getBlockSize] at hw
    obtain ⟨old, hold, hw⟩ := hw
    rw [wp_bind, wp_getBlock] at hw
    obtain ⟨p, hblock, hw⟩ := hw
    rw [wp_bind, wp_call] at hw
    obtain ⟨q, s, hm, hw⟩ := hw
    rw [wp_ite] at hw
    split_ifs at hw with hq
    · exact absurd hw wp_failure
    rw [wp_bind, wp_setBlock] at hw
    obtain ⟨blocks, hblocks, hw⟩ := hw
    rw [wp_bind, wp_setBlockSize] at hw
    obtain ⟨sizes, hsizes, hw⟩ := hw
    rw [wp_bind, wp_lift] at hw
    obtain ⟨incr, hincr, hw⟩ := hw
    obtain ⟨v, hadd, rfl, rfl⟩ := wp_lift.mp hw
    simp only at hblocks hsizes
    constructor
    · rw [tally, hold, Option.bind_eq_bind, Option.bind_some, hsizes, Option.bind_eq_bind,
        Option.bind_some, hincr, Option.bind_eq_bind, Option.bind_some, hadd]
      rfl
    · rintro e ⟨hheap, hbl⟩
      rw [hheap] at hm
      rw [hbl] at hblocks hblock
      rw [speedOp, wp_bind, wp_getBlock]
      refine ⟨p, hblock, ?_⟩
      rw [wp_bind, wp_call]
      refine (wp_of_eq hm).mpr ?_
      rw [wp_ite, if_neg hq, wp_setBlock]
      exact ⟨blocks, hblocks, rfl, rfl⟩
  | free index =>
    rw [utilOp, wp_bind, wp_getBlockSize] at hw
    obtain ⟨old, hold, hw⟩ := hw
    rw [wp_bind, wp_getBlock] at hw
    obtain ⟨p, hblock, hw⟩ := hw
    rw [wp_bind, wp_call] at hw
    obtain ⟨_, s, hm, hw⟩ := hw
    rw [wp_bind, wp_lift] at hw
    obtain ⟨t, ht, hw⟩ := hw
    obtain ⟨rfl, rfl⟩ := wp_pure.mp hw
    constructor
    · rw [tally, hold, Option.bind_eq_bind, Option.bind_some, ht]
      rfl
    · rintro e ⟨hheap, hbl⟩
      rw [hheap] at hm
      rw [hbl] at hblock
      rw [speedOp, wp_bind, wp_getBlock]
      refine ⟨p, hblock, ?_⟩
      rw [wp_call]
      exact (wp_of_eq hm).mpr ⟨rfl, hbl⟩

def tallyLoop : Usage → List (Option ℕ) → List TraceOp → Option (Usage × List (Option ℕ))
  | u, sizes, [] => some (u, sizes)
  | u, sizes, op :: ops => do
    let (u, sizes) ← tally u sizes op
    tallyLoop u sizes ops

theorem utilLoop_outcome (h : utilLoop P u ops d = some (u', d')) :
    tallyLoop u d.blockSizes ops = some (u', d'.blockSizes) ∧
      ∀ e, Alike d e → wp (speedLoop P ops) (fun _ e' ↦ Alike d' e') e := by
  induction ops generalizing u d with
  | nil =>
    obtain ⟨rfl, rfl⟩ := Prod.ext_iff.mp (Option.some.inj h)
    exact ⟨rfl, fun e he ↦ wp_pure.mpr he⟩
  | cons op ops ih =>
    obtain ⟨⟨u₁, d₁⟩, hop, hloop⟩ := Option.bind_eq_some_iff.mp h
    obtain ⟨htally, hspeed⟩ := utilOp_outcome hop
    obtain ⟨htallies, hspeeds⟩ := ih hloop
    constructor
    · rw [tallyLoop, htally]
      exact htallies
    · intro e he
      rw [speedLoop, wp_bind]
      exact (hspeed e he).mono fun _ e' he' ↦ hspeeds e' he'

end Packages

section Evaluation

theorem evalMmUtil_parts {m : ℤ} {h : ℕ} (hr : evalMmUtil P ops d = some ((m, h), d')) :
    ∃ r s u, 0 ≤ r ∧ P.mmInit { d.heap with memBrk := d.heap.memStartBrk } = some (r, s) ∧
      utilLoop P ⟨0, 0⟩ ops { d with heap := s } = some (u, d') ∧ m = u.maxTotalSize ∧
      h = memHeapsize d'.heap := by
  have hw : wp (evalMmUtil P ops) (fun v t ↦ v = (m, h) ∧ t = d') d := ⟨_, d', hr, rfl, rfl⟩
  rw [evalMmUtil, wp_bind, wp_call, wp_memResetBrk, wp_bind, wp_call] at hw
  obtain ⟨r, s, hinit, hw⟩ := hw
  rw [wp_ite] at hw
  split_ifs at hw with hneg
  · exact absurd hw wp_failure
  rw [wp_bind] at hw
  obtain ⟨u, d₁, hloop, hw⟩ := hw
  rw [wp_bind, wp_get, wp_pure] at hw
  obtain ⟨hres, rfl⟩ := hw
  obtain ⟨rfl, rfl⟩ := Prod.ext_iff.mp hres
  exact ⟨r, s, u, not_lt.mp hneg, hinit, hloop, rfl, rfl⟩

theorem tallied_start (H : Provides P base cost R) (hd : Prepared base n d) :
    ∃ s, P.mmInit { d.heap with memBrk := d.heap.memStartBrk } = some (0, s) ∧
      Tallied R base n ∅ ⟨0, 0⟩ { d with heap := s } ∧ s.memBrk = base := by
  have hstart := hd.placed.memStartBrk
  obtain ⟨_, s, hinit, rfl, hR, hbrk⟩ := H.init (s := { d.heap with memBrk := d.heap.memStartBrk })
    hstart hstart hd.placed.memMaxAddr
  exact ⟨s, hinit, ⟨⟨_, [], hR, .empty hd.blocks hd.blockSizes, rfl⟩, le_rfl, Int.natCast_nonneg _⟩,
    hbrk⟩

theorem evalMmUtil_bounds {m : ℤ} {h : ℕ} (H : Provides P base cost R) (hd : Prepared base n d)
    (hops : Playable n ∅ ops) (hr : evalMmUtil P ops d = some ((m, h), d')) :
    0 ≤ m ∧ m ≤ h ∧ h ≤ MAX_HEAP := by
  obtain ⟨r, s, u, -, hinit, hloop, rfl, rfl⟩ := evalMmUtil_parts hr
  obtain ⟨s', hinit', T, -⟩ := tallied_start H hd
  obtain ⟨-, rfl⟩ := Prod.ext_iff.mp (Option.some.inj (hinit.symm.trans hinit'))
  obtain ⟨ids, ⟨live, L, hR, -⟩, hnonneg, hfits⟩ := utilLoop_tallied H T hops hloop
  obtain ⟨hstart, -, hbrk⟩ := H.placed hR
  simp only at hstart hbrk
  unfold memHeapsize
  rw [hstart]
  exact ⟨hnonneg, hfits, by omega⟩

theorem evalMmUtil_returns (H : Provides P base cost R) (hd : Prepared base n d)
    (hops : Playable n ∅ ops) (hroom : totalTakes cost ops ≤ MAX_HEAP) :
    ∃ m h d', evalMmUtil P ops d = some ((m, h), d') := by
  obtain ⟨s, hinit, T, hbrk⟩ := tallied_start H hd
  have hw : wp (evalMmUtil P ops) (fun _ _ ↦ True) d := by
    rw [evalMmUtil, wp_bind, wp_call, wp_memResetBrk, wp_bind, wp_call]
    refine (wp_of_eq hinit).mpr ?_
    rw [wp_ite, if_neg (by decide), wp_bind]
    refine (wp_utilLoop H T hops ?_).mono fun u d₁ _ ↦ ?_
    · simp only
      omega
    · rw [wp_bind, wp_get, wp_pure]
      trivial
  obtain ⟨⟨m, h⟩, d', hr, -⟩ := hw
  exact ⟨m, h, d', hr⟩

end Evaluation

/-- On mm.c the largest amount of data that a trace holds fits into the heap that it leaves. -/
theorem mm_utilisation (hb : Base base) (hd : Prepared base n d) (hops : Playable n ∅ ops) :
    (∀ m h d', evalMmUtil mm ops d = some ((m, h), d') → 0 ≤ m ∧ m ≤ h ∧ h ≤ MAX_HEAP) ∧
      (totalTakes Malloc.chunkFor ops ≤ MAX_HEAP →
        ∃ m h d', evalMmUtil mm ops d = some ((m, h), d')) :=
  ⟨fun _ _ _ h ↦ evalMmUtil_bounds (Malloc.mm_provides hb) hd hops h,
    evalMmUtil_returns (Malloc.mm_provides hb) hd hops⟩

theorem mm_utilisation_24 : ∃ m h d', evalMmUtil mm [.alloc 0 24, .realloc 0 40, .free 0]
    (freshDriver 1) = some ((m, h), d') ∧ 0 ≤ m ∧ m ≤ h ∧ h ≤ MAX_HEAP := by
  obtain ⟨hbounds, hreturns⟩ := mm_utilisation Malloc.base_4096 (prepared_freshDriver 1)
    (by decide : Playable 1 ∅ [.alloc 0 24, .realloc 0 40, .free 0])
  obtain ⟨m, h, d', hr⟩ := hreturns (by decide)
  exact ⟨m, h, d', hr, hbounds m h d' hr⟩

/-- The naive package never reuses a chunk: the heap it leaves is all that the trace has asked for,
and `eval_mm_util` returns exactly if that fits into the simulated memory. -/
theorem naive_utilisation (hb : Base base) (hd : Prepared base n d) (hops : Playable n ∅ ops) :
    ((∃ m h d', evalMmUtil naive ops d = some ((m, h), d')) ↔
        totalTakes MallocNaive.chunkFor ops ≤ MAX_HEAP) ∧
      ∀ m h d', evalMmUtil naive ops d = some ((m, h), d') →
        h = totalTakes MallocNaive.chunkFor ops ∧ 0 ≤ m ∧ m ≤ h := by
  have hheap : ∀ m h d', evalMmUtil naive ops d = some ((m, h), d') →
      h = totalTakes MallocNaive.chunkFor ops := by
    intro m h d' hr
    obtain ⟨r, s, u, -, hinit, hloop, -, rfl⟩ := evalMmUtil_parts hr
    obtain ⟨s', hinit', T, hbrk⟩ := tallied_start (naive_provides hb) hd
    obtain ⟨-, rfl⟩ := Prod.ext_iff.mp (Option.some.inj (hinit.symm.trans hinit'))
    obtain ⟨ids, ⟨live, L, hR, -⟩, -⟩ := utilLoop_tallied (naive_provides hb) T hops hloop
    have hstart := ((naive_provides hb).placed hR).1
    simp only at hstart hbrk
    rw [memHeapsize, hstart, utilLoop_naive hb T hops hloop, hbrk, Nat.add_sub_cancel_left]
  refine ⟨⟨?_, evalMmUtil_returns (naive_provides hb) hd hops⟩, ?_⟩
  · intro ⟨m, h, d', hr⟩
    have hle := (evalMmUtil_bounds (naive_provides hb) hd hops hr).2.2
    rwa [hheap m h d' hr] at hle
  · intro m h d' hr
    obtain ⟨h₀, hle, -⟩ := evalMmUtil_bounds (naive_provides hb) hd hops hr
    exact ⟨hheap m h d' hr, h₀, hle⟩

theorem naive_utilisation_24 : ∃ m d', evalMmUtil naive [.alloc 0 24, .realloc 0 40, .free 0]
    (freshDriver 1) = some ((m, 112), d') ∧ 0 ≤ m ∧ m ≤ (112 : ℕ) := by
  obtain ⟨hreturns, hbounds⟩ := naive_utilisation Malloc.base_4096 (prepared_freshDriver 1)
    (by decide : Playable 1 ∅ [.alloc 0 24, .realloc 0 40, .free 0])
  obtain ⟨m, h, d', hr⟩ := hreturns.mpr (by decide)
  obtain ⟨hheap, h₀, hle⟩ := hbounds m h d' hr
  obtain rfl : h = 112 := hheap.trans (by decide)
  exact ⟨m, d', hr, h₀, hle⟩

/-- The numerator of the utilisation is a matter of the trace: two packages that come through a
trace have the same. -/
theorem utilisation_of_trace {m m' : ℤ} {h h' : ℕ} (hs : d.blockSizes = e.blockSizes)
    (hP : evalMmUtil P ops d = some ((m, h), d')) (hQ : evalMmUtil Q ops e = some ((m', h'), e')) :
    m = m' ∧ d'.blockSizes = e'.blockSizes := by
  obtain ⟨_, s, u, -, -, hloop, rfl, -⟩ := evalMmUtil_parts hP
  obtain ⟨_, s', u', -, -, hloop', rfl, -⟩ := evalMmUtil_parts hQ
  have htally := (utilLoop_outcome hloop).1
  have htally' := (utilLoop_outcome hloop').1
  simp only at htally htally'
  rw [hs, htally', Option.some.injEq] at htally
  obtain ⟨rfl, hsizes⟩ := Prod.ext_iff.mp htally
  exact ⟨rfl, hsizes.symm⟩

theorem utilisation_of_trace_24 : ∃ m h h' d' e',
    evalMmUtil mm [.alloc 0 24, .realloc 0 40, .free 0] (freshDriver 1) = some ((m, h), d') ∧
    evalMmUtil naive [.alloc 0 24, .realloc 0 40, .free 0] (freshDriver 1) = some ((m, h'), e') := by
  have hops : Playable 1 ∅ [.alloc 0 24, .realloc 0 40, .free 0] := by decide
  obtain ⟨m, h, d', hr⟩ := evalMmUtil_returns (Malloc.mm_provides Malloc.base_4096)
    (prepared_freshDriver 1) hops (by decide)
  obtain ⟨m', h', e', hr'⟩ := evalMmUtil_returns (naive_provides Malloc.base_4096)
    (prepared_freshDriver 1) hops (by decide)
  obtain ⟨rfl, -⟩ := utilisation_of_trace rfl hr hr'
  exact ⟨m, h, h', d', e', hr, hr'⟩

end CsoLabs.Mdriver
