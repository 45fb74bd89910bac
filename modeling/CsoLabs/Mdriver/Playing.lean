import CsoLabs.Mdriver.Holding

namespace CsoLabs.Mdriver

open Foundation CInt
open Malloc (Heap Alloc World Block Package Provides NULL ALIGNMENT MAX_HEAP sizeT gain lose
  reallocated Isolated Base)

def rangeOf (e : Extent) : RangeT := ⟨e.addr, e.addr + e.size - 1⟩

def stamp (index : ℤ) : UInt8 := UInt8.ofNat (wrapUnsigned 8 (lowByte index))

def Stamped (index : ℤ) (b : Block) : Prop := ∀ j < b.size, b.bytes j = some (stamp index)

/-- Between two requests: the package holds the blocks of the trace, and the range list shows
exactly these. -/
structure Playing (R : World → Prop) (n : ℕ) (ids : Finset ℤ) (d : Driver) (live : ℕ → Option Block)
    (L : List Extent) : Prop where
  store : R ⟨d.heap, live⟩
  holding : Holding Stamped n ids live L d.blocks d.blockSizes
  ranges : d.ranges = L.map rangeOf

def TraceOp.Ready (n : ℕ) (ids : Finset ℤ) : TraceOp → Prop
  | .alloc index size => 0 ≤ index ∧ index < n ∧ 0 < size ∧ size ≤ MAX_HEAP
  | .realloc index size => index ∈ ids ∧ 0 < size ∧ size ≤ MAX_HEAP
  | .free index => index ∈ ids

def TraceOp.after (ids : Finset ℤ) : TraceOp → Finset ℤ
  | .alloc index _ => insert index ids
  | .realloc _ _ => ids
  | .free index => ids.erase index

/-- A trace that treats its blocks as a client may. -/
def Playable (n : ℕ) : Finset ℤ → List TraceOp → Prop
  | _, [] => True
  | ids, op :: ops => op.Ready n ids ∧ Playable n (op.after ids) ops

instance decidableReady (n : ℕ) (ids : Finset ℤ) : ∀ op, Decidable (TraceOp.Ready n ids op)
  | .alloc _ _ => inferInstanceAs (Decidable (_ ∧ _ ∧ _ ∧ _))
  | .realloc _ _ => inferInstanceAs (Decidable (_ ∧ _ ∧ _))
  | .free _ => inferInstanceAs (Decidable (_ ∈ _))

instance decidablePlayable (n : ℕ) : ∀ ids ops, Decidable (Playable n ids ops)
  | _, [] => inferInstanceAs (Decidable True)
  | ids, op :: ops =>
    have := decidablePlayable n (op.after ids) ops
    inferInstanceAs (Decidable (_ ∧ _))

/-- The driver compares a `char` with an `int` between 0 and 255. -/
def TraceOp.Misread : TraceOp → Prop
  | .realloc index _ => 128 ≤ lowByte index
  | _ => False

variable {P : Package} {base n p q k : ℕ} {cost : ℕ → ℕ} {R : World → Prop} {ids : Finset ℤ}
  {live : ℕ → Option Block} {L : List Extent} {b : Block} {i size tracenum opnum : ℤ}
  {m : ByteMemory.Memory} {v : UInt8} {s : Heap} {d d' : Driver} {op : TraceOp} {ops : List TraceOp}

theorem sizeT_of_size (h : 0 < size) (h' : size ≤ MAX_HEAP) : sizeT size = size.toNat := by
  unfold MAX_HEAP at h'
  rw [sizeT, wrapUnsigned_of_lt (by omega) (by omega)]

section Fill

def filled (b : Block) (k : ℕ) (v : UInt8) : Block :=
  ⟨b.size, fun j ↦ if j < k then some v else b.bytes j⟩

theorem fill_zero : fill m p 0 v = m := by
  funext x
  exact if_neg (by omega)

theorem fill_succ : fill m p (k + 1) v = Function.update (fill m p k v) (p + k) v := by
  funext x
  by_cases hx : x = p + k
  · rw [hx, Function.update_self]
    exact if_pos (by omega)
  · rw [Function.update_of_ne hx]
    unfold fill
    split_ifs <;> first | rfl | omega

theorem filled_zero : filled b 0 v = b := by
  unfold filled
  simp

theorem filled_succ : filled b (k + 1) v = (filled b k v).write k v := by
  unfold filled Block.write
  congr 1
  funext j
  by_cases hj : j = k
  · rw [hj, Function.update_self]
    exact if_pos (by omega)
  · rw [Function.update_of_ne hj]
    dsimp only
    split_ifs <;> first | rfl | omega

theorem fill_store (H : Provides P base cost R) (h : R ⟨s, live⟩) (hp : live p = some b) (v : UInt8)
    (hk : k ≤ b.size) :
    R ⟨{ s with mem := fill s.mem p k v }, Function.update live p (some (filled b k v))⟩ := by
  induction k with
  | zero =>
    have hlive : Function.update live p (some b) = live := by rw [← hp, Function.update_eq_self]
    rw [fill_zero, filled_zero, hlive]
    exact h
  | succ k ih =>
    have hwrite := H.write (p := p) (b := filled b k v) (i := k) v (ih (by omega))
      (Function.update_self _ _ _) hk
    rw [Function.update_idem, ← filled_succ] at hwrite
    rw [fill_succ]
    exact hwrite

theorem wp_memset {c : ℤ} {Q : Unit → Heap → Prop} (h : s.Mapped p n) :
    wp (memset p c n) Q s ↔
      Q () { s with mem := fill s.mem p n (UInt8.ofNat (wrapUnsigned 8 c)) } := by
  rw [memset, wp_bind, wp_get, wp_ite, if_pos h, wp_modify]

theorem wp_readChar {Q : ℤ → Heap → Prop} (h : s.Mapped p 1) :
    wp (readChar p) Q s ↔ Q (s.mem p).toInt8.toInt s := by
  rw [readChar, wp_bind, wp_get, wp_ite, if_pos h, wp_pure]

/-- A stamped byte reads back as the low byte of the index if that byte has no sign bit. -/
theorem readChar_stamp : (stamp i).toInt8.toInt = lowByte i ↔ lowByte i < 128 := by
  have h₀ : 0 ≤ lowByte i := Int.emod_nonneg i (by decide)
  have h₁ : lowByte i < 256 := Int.emod_lt_of_pos i (by decide)
  obtain ⟨k, hk⟩ := Int.eq_ofNat_of_zero_le h₀
  rw [stamp, hk, wrapUnsigned_of_lt (by omega) (by omega), Int.toNat_natCast, Int8.toInt,
    UInt8.toBitVec_toInt8, BitVec.toInt_eq_toNat_cond, UInt8.toNat_toBitVec, UInt8.toNat_ofNat']
  omega

end Fill

section Requests

theorem mapped_of_live (hw : Isolated ⟨s, live⟩) (hplaced : s.memBrk ≤ s.memMaxAddr)
    (hp : live p = some b) : s.Mapped p b.size := by
  have hin := hw.inside p b hp
  exact ⟨hin.1, hin.2.trans hplaced⟩

theorem acceptable_of_gain (hw : Isolated ⟨d.heap, gain live p b⟩) (hbrk : d.heap.memBrk < 2 ^ 64)
    (T : Tracks live L) (hd : d.ranges = L.map rangeOf)
    (hsized : ∀ q b', live q = some b' → 0 < b'.size) (hp : p ≠ NULL) (hnew : live p = none)
    (hsize : 0 < size) (hb : (b.size : ℤ) = size) :
    Acceptable d p size ∧ lastByte p size = p + b.size - 1 := by
  have hself : gain live p b p = some b := gain_self hp
  have hin := hw.inside p b hself
  simp only at hin
  have hlast : lastByte p size = p + b.size - 1 := by
    unfold lastByte wrapUnsigned
    omega
  refine ⟨⟨hw.aligned p b hself, hin.1, by omega, ?_⟩, hlast⟩
  intro q hq
  rw [hd] at hq
  obtain ⟨e, he, rfl⟩ := List.mem_map.mp hq
  obtain ⟨b', hb', hsize'⟩ := T.live he
  have hne : e.addr ≠ p := by
    intro hep
    rw [hep, hnew] at hb'
    cases hb'
  have hpos := hsized _ _ hb'
  have hlive : gain live p b e.addr = some b' := (gain_of_ne hne).trans hb'
  have hdisj := hw.disjoint p b e.addr b' hself hlive (Ne.symm hne)
  refine .inl ?_
  unfold RangeT.Apart rangeOf
  rw [hlast]
  simp only
  omega

theorem placed_of_live (H : Provides P base cost R) (h : R ⟨s, live⟩) (hp : live p = some b) :
    Placed base s := by
  obtain ⟨hstart, hmax, hbrk⟩ := H.placed h
  have hin := (H.isolated h).inside p b hp
  simp only at hstart hmax hbrk hin
  exact ⟨hstart, hmax, by omega, hbrk⟩

theorem wp_addRange_gain {Q : ℤ → Driver → Prop} (hb : Base base) (H : Provides P base cost R)
    (h : R ⟨d.heap, gain live p b⟩) (T : Tracks live L) (hd : d.ranges = L.map rangeOf)
    (hsized : ∀ q b', live q = some b' → 0 < b'.size) (hp : p ≠ NULL) (hnew : live p = none)
    (hsize : 0 < size) (hmax : size ≤ MAX_HEAP) (hbs : b.size = size.toNat)
    (hQ : Q 1 { d with ranges := List.map rangeOf (⟨p, b.size⟩ :: L) }) :
    wp (addRange p size tracenum opnum) Q d := by
  have hplaced := placed_of_live H h (gain_self hp)
  have hfits := hb.fits
  have hbrk := hplaced.brk_le
  obtain ⟨ha, hlast⟩ := acceptable_of_gain (H.isolated h) (by omega) T hd hsized hp hnew hsize
    (by omega)
  have hfit : Fits 32 size := by
    unfold MAX_HEAP at hmax
    rw [fits_int]
    omega
  refine (wp_addRange hb hplaced hsize hfit).mono ?_
  intro r d' hr
  rcases hr with ⟨rfl, -, rfl⟩ | ⟨-, hna, -⟩
  · rw [hlast, hd]
    exact hQ
  · exact absurd ha hna

def Played (R : World → Prop) (n : ℕ) (ids : Finset ℤ) (d : Driver) : Prop :=
  ∃ live L, Playing R n ids d live L

theorem wp_remember (H : Provides P base cost R) (h : R ⟨d.heap, gain live p b⟩) (hp : p ≠ NULL)
    (hnew : live p = none) (hsize : 0 < size) (hmax : size ≤ MAX_HEAP) (hbs : b.size = size.toNat)
    (Hd : Holding Stamped n ids live L d.blocks d.blockSizes) (h₀ : 0 ≤ i) (hlt : i < n)
    (hd : d.ranges = List.map rangeOf (⟨p, b.size⟩ :: L)) :
    wp (remember i size p)
      (fun _ d' ↦ Played R n (insert i ids) d' ∧ d'.heap.memBrk = d.heap.memBrk) d := by
  have hself : gain live p b p = some b := gain_self hp
  have hmapped : d.heap.Mapped p b.size := by
    obtain ⟨-, htop, hbrk⟩ := H.placed h
    exact mapped_of_live (H.isolated h) (by rw [htop]; exact hbrk) hself
  have hlb : i < d.blocks.length := by rw [Hd.slots.lengthBlocks]; exact hlt
  have hls : i < d.blockSizes.length := by rw [Hd.slots.lengthSizes]; exact hlt
  have hstore := fill_store H h hself (stamp i) le_rfl
  have hlive : Function.update (gain live p b) p (some (filled b b.size (stamp i))) =
      gain live p (filled b b.size (stamp i)) := by
    unfold gain
    rw [if_neg hp, if_neg hp, Function.update_idem]
  rw [hlive] at hstore
  have hgood : Stamped i (filled b b.size (stamp i)) := fun j hj ↦ if_pos hj
  have hput := Hd.put hp hnew h₀ hlt (b := filled b b.size (stamp i))
    (by change 0 < b.size ∧ b.size ≤ MAX_HEAP; omega) hgood
  rw [remember, wp_bind, wp_call, sizeT_of_size hsize hmax, ← hbs, wp_memset hmapped, wp_bind,
    wp_setBlock]
  refine ⟨_, store_eq h₀ hlb _, wp_setBlockSize.mpr ⟨_, store_eq h₀ hls _, ?_⟩⟩
  exact ⟨⟨_, _, hstore, hput, hd⟩, rfl⟩

/-- The driver finds in a block what it has written there, unless it misreads the bytes. -/
theorem wp_preserved {j : ℕ} (hbytes : ∀ l, j ≤ l → l < j + k → d.heap.mem (p + l) = stamp i)
    (hmapped : d.heap.Mapped p (j + k)) :
    wp (preserved p i k j) (fun same d' ↦ (same = true ↔ k = 0 ∨ lowByte i < 128) ∧ d' = d) d := by
  induction k generalizing j with
  | zero => exact wp_pure.mpr ⟨by simp, rfl⟩
  | succ k ih =>
    have hone : d.heap.Mapped (p + j) 1 := ⟨by have := hmapped.1; omega, by have := hmapped.2; omega⟩
    rw [preserved, wp_bind, wp_call, wp_readChar hone, hbytes j le_rfl (by omega), wp_ite]
    split_ifs with hread
    · rw [ne_eq, readChar_stamp] at hread
      exact wp_pure.mpr ⟨by simp [hread], rfl⟩
    · rw [ne_eq, not_not, readChar_stamp] at hread
      refine (ih (j := j + 1) ?_ ?_).mono ?_
      · intro l hl hu
        exact hbytes l (by omega) (by omega)
      · exact ⟨hmapped.1, by have := hmapped.2; omega⟩
      · intro same d' h
        exact ⟨by simp [h.1, hread], h.2⟩

theorem wp_moved (H : Provides P base cost R) (h : R ⟨d.heap, gain live p (b.resize size.toNat)⟩)
    (hp : p ≠ NULL) (hnew : live p = none) (hsize : 0 < size) (hmax : size ≤ MAX_HEAP)
    (hgood : Stamped i b) (hk : 0 < k) (hkb : k ≤ b.size) (hks : k ≤ size.toNat)
    (Hd : Holding Stamped n ids live L d.blocks d.blockSizes) (h₀ : 0 ≤ i) (hlt : i < n)
    (hd : d.ranges = List.map rangeOf (⟨p, size.toNat⟩ :: L)) :
    wp (do
      if ← preserved p i k 0 then do
        remember i size p
        pure true
      else do
        mallocError tracenum opnum "mm_realloc did not preserve the data from old block"
        pure false)
      (fun r d' ↦ (r = true ↔ lowByte i < 128) ∧ (r = true → Played R n (insert i ids) d') ∧
        d'.heap.memBrk = d.heap.memBrk) d := by
  have hself : gain live p (b.resize size.toNat) p = some (b.resize size.toNat) := gain_self hp
  have hmapped : d.heap.Mapped p size.toNat := by
    obtain ⟨-, htop, hbrk⟩ := H.placed h
    exact mapped_of_live (H.isolated h) (by rw [htop]; exact hbrk) hself
  have hbytes : ∀ l, 0 ≤ l → l < 0 + k → d.heap.mem (p + l) = stamp i := by
    intro l _ hl
    refine (H.isolated h).intact p _ l _ hself ?_
    exact (if_pos (by omega)).trans (hgood l (by omega))
  rw [wp_bind]
  refine (wp_preserved hbytes ⟨hmapped.1, by have := hmapped.2; omega⟩).mono ?_
  rintro same d' ⟨hsame, rfl⟩
  rw [or_iff_right (by omega)] at hsame
  rw [wp_ite]
  split_ifs with hgo
  · rw [wp_bind]
    refine (wp_remember H h hp hnew hsize hmax rfl Hd h₀ hlt hd).mono ?_
    intro _ d₁ h₁
    exact wp_pure.mpr ⟨by simp [hsame.mp hgo], fun _ ↦ h₁.1, h₁.2⟩
  · rw [wp_bind, wp_mallocError, wp_pure]
    exact ⟨⟨fun h ↦ (by cases h), fun h ↦ absurd (hsame.mpr h) hgo⟩, fun h ↦ (by cases h), rfl⟩

def TraceOp.Answered (P : Package) (d : Driver) (s : Heap) : TraceOp → Prop
  | .alloc _ size => ∃ p, P.mmMalloc (sizeT size) d.heap = some (p, s) ∧ p ≠ NULL
  | .realloc index size => ∃ p q, element d.blocks index = some p ∧
    P.mmRealloc p (sizeT size) d.heap = some (q, s) ∧ q ≠ NULL
  | .free _ => s.memBrk = d.heap.memBrk

/-- A request that is answered goes on with the blocks that the trace then holds, unless it is
misread. -/
structure Served (R : World → Prop) (n : ℕ) (ids : Finset ℤ) (op : TraceOp) (s : Heap) (b : Bool)
    (d' : Driver) : Prop where
  goes : b = true ↔ ¬ op.Misread
  played : b = true → Played R n (op.after ids) d'
  memBrk : d'.heap.memBrk = s.memBrk

theorem validOp_alloc (hb : Base base) (H : Provides P base cost R) (Pl : Playing R n ids d live L)
    (hr : TraceOp.Ready n ids (.alloc i size)) (ha : TraceOp.Answered P d s (.alloc i size)) :
    wp (validOp P tracenum opnum (.alloc i size)) (Served R n ids (.alloc i size) s) d := by
  obtain ⟨h₀, hlt, hsize, hmax⟩ := hr
  have hsz := sizeT_of_size hsize hmax
  rw [TraceOp.Answered, hsz] at ha
  obtain ⟨p, hm, hp⟩ := ha
  obtain ⟨hnew, hgain, -⟩ := H.malloc Pl.store (by omega) (by omega) hm
  rw [validOp, wp_bind, wp_call, hsz]
  refine (wp_of_eq hm).mpr ?_
  rw [wp_ite, if_neg hp, wp_bind]
  refine wp_addRange_gain hb H hgain Pl.holding.tracks Pl.ranges
    (fun q b' hq ↦ (Pl.holding.sized q b' hq).1) hp hnew hsize hmax rfl ?_
  rw [wp_ite, if_neg one_ne_zero, wp_bind]
  refine (wp_remember (d := { d with heap := s, ranges := List.map rangeOf (⟨p, _⟩ :: L) }) H hgain hp
    hnew hsize hmax rfl Pl.holding h₀ hlt rfl).mono ?_
  intro _ d' h
  exact wp_pure.mpr ⟨by simp [TraceOp.Misread], fun _ ↦ h.1, h.2⟩

theorem validOp_free (H : Provides P base cost R) (Pl : Playing R n ids d live L)
    (hr : TraceOp.Ready n ids (.free i)) (ha : TraceOp.Answered P d s (.free i)) :
    wp (validOp P tracenum opnum (.free i)) (Served R n ids (.free i) s) d := by
  obtain ⟨p, b, hblock, -, hp, -⟩ := Pl.holding.slots.held i hr
  rw [validOp, wp_bind, wp_getBlock]
  refine ⟨p, hblock, ?_⟩
  rw [wp_bind, removeRange, wp_modify, wp_bind, wp_call]
  refine (H.free Pl.store hp (Pl.holding.sized p b hp).1).mono ?_
  intro _ s' h
  refine wp_pure.mpr ⟨by simp [TraceOp.Misread], ?_, h.2.trans ha.symm⟩
  refine fun _ ↦ ⟨_, _, h.1, Pl.holding.drop hr hblock, ?_⟩
  rw [Pl.ranges, List.eraseP_map]
  rfl

theorem validOp_realloc (hb : Base base) (H : Provides P base cost R) (Pl : Playing R n ids d live L)
    (hr : TraceOp.Ready n ids (.realloc i size)) (ha : TraceOp.Answered P d s (.realloc i size)) :
    wp (validOp P tracenum opnum (.realloc i size)) (Served R n ids (.realloc i size) s) d := by
  obtain ⟨hi, hsize, hmax⟩ := hr
  have hsz := sizeT_of_size hsize hmax
  obtain ⟨oldp, b, hblock, hold, hlive, hgood⟩ := Pl.holding.slots.held i hi
  obtain ⟨hpos, hle⟩ := Pl.holding.sized oldp b hlive
  obtain ⟨_, q, hblock', hm, hq⟩ := ha
  obtain rfl := Option.some.inj (hblock.symm.trans hblock')
  rw [hsz] at hm
  obtain ⟨hnew, hgain, -⟩ := H.realloc Pl.store hlive hpos (by omega) (by omega) hm
  have hrlive : reallocated live oldp size.toNat q b =
      gain (lose live oldp) q (b.resize size.toNat) := if_neg fun h ↦ hq h.1
  rw [hrlive] at hgain
  have hdrop := Pl.holding.drop hi hblock
  have hnone : lose live oldp q = none := by
    by_cases hqp : q = oldp
    · rw [hqp, lose, Function.update_self]
    · exact (lose_of_ne hqp).trans hnew
  have hrange := element_range hblock
  rw [Pl.holding.slots.lengthBlocks] at hrange
  rw [validOp, wp_bind, wp_getBlock]
  refine ⟨oldp, hblock, ?_⟩
  rw [wp_bind, wp_call, hsz]
  refine (wp_of_eq hm).mpr ?_
  rw [wp_ite, if_neg hq, wp_bind, removeRange, wp_modify, wp_bind]
  refine wp_addRange_gain hb H hgain hdrop.tracks ?_ (fun r b' hr ↦ (hdrop.sized r b' hr).1) hq
    hnone hsize hmax rfl ?_
  · rw [Pl.ranges, List.eraseP_map]
    rfl
  rw [wp_ite, if_neg one_ne_zero, wp_bind, wp_getBlockSize]
  refine ⟨b.size, hold, ?_⟩
  have hfit : Fits 32 (b.size : ℤ) := by
    unfold MAX_HEAP at hle
    rw [fits_int]
    omega
  rw [wrapSigned_of_fits (by decide) hfit]
  refine (wp_moved (d := { d with heap := s, ranges := List.map rangeOf (⟨q, _⟩ :: _) }) H hgain hq
    hnone hsize hmax hgood ?_ ?_ ?_ hdrop hrange.1 hrange.2 rfl).mono ?_
  · split_ifs <;> omega
  · split_ifs <;> omega
  · split_ifs <;> omega
  intro r d' h
  rw [Finset.insert_erase hi] at h
  exact ⟨h.1.trans not_le.symm, h.2.1, h.2.2⟩

/-- One round of `eval_mm_valid` on a package that does not turn the request down. -/
theorem validOp_served (hb : Base base) (H : Provides P base cost R) (Pl : Playing R n ids d live L)
    (hr : op.Ready n ids) (ha : op.Answered P d s) :
    wp (validOp P tracenum opnum op) (Served R n ids op s) d := by
  cases op with
  | alloc index size => exact validOp_alloc hb H Pl hr ha
  | realloc index size => exact validOp_realloc hb H Pl hr ha
  | free index => exact validOp_free H Pl hr ha

end Requests

def TraceOp.takes (cost : ℕ → ℕ) : TraceOp → ℕ
  | .alloc _ size => cost (sizeT size)
  | .realloc _ size => cost (sizeT size)
  | .free _ => 0

section Answers

theorem TraceOp.Answered.memBrk_le {good : ℤ → Block → Prop} (H : Provides P base cost R)
    (hR : R ⟨d.heap, live⟩) (Hd : Holding good n ids live L d.blocks d.blockSizes)
    (hr : op.Ready n ids) (ha : op.Answered P d s) :
    s.memBrk ≤ d.heap.memBrk + op.takes cost := by
  cases op with
  | alloc index size =>
    obtain ⟨h₀, hlt, hsize, hmax⟩ := hr
    obtain ⟨p, hm, -⟩ := ha
    have hsz := sizeT_of_size hsize hmax
    exact (H.malloc hR (by omega) (by omega) hm).2.2.2
  | realloc index size =>
    obtain ⟨hi, hsize, hmax⟩ := hr
    obtain ⟨p, q, hp, hm, -⟩ := ha
    obtain ⟨p', b, hblock, -, hlive, -⟩ := Hd.slots.held index hi
    obtain rfl := Option.some.inj (hblock.symm.trans hp)
    have hsz := sizeT_of_size hsize hmax
    exact (H.realloc hR hlive (Hd.sized _ b hlive).1 (by omega) (by omega) hm).2.2.2
  | free index => exact ha.le

theorem answered_of_room {good : ℤ → Block → Prop} (H : Provides P base cost R)
    (hR : R ⟨d.heap, live⟩) (Hd : Holding good n ids live L d.blocks d.blockSizes)
    (hr : op.Ready n ids) (hroom : d.heap.memBrk + op.takes cost ≤ base + MAX_HEAP) :
    ∃ s, op.Answered P d s := by
  cases op with
  | alloc index size =>
    obtain ⟨h₀, hlt, hsize, hmax⟩ := hr
    have hsz := sizeT_of_size hsize hmax
    obtain ⟨p, s, hm, hp⟩ := H.mallocRoom hR (by omega) (by omega) hroom
    exact ⟨s, p, hm, hp⟩
  | realloc index size =>
    obtain ⟨hi, hsize, hmax⟩ := hr
    obtain ⟨p, b, hblock, -, hlive, -⟩ := Hd.slots.held index hi
    have hsz := sizeT_of_size hsize hmax
    obtain ⟨q, s, hm, hq⟩ := H.reallocRoom hR hlive (Hd.sized p b hlive).1 (by omega) (by omega)
      hroom
    exact ⟨s, p, q, hblock, hm, hq⟩
  | free index => exact ⟨d.heap, rfl⟩

theorem answered_of_returns {e : Bool} (hr : op.Ready n ids)
    (hm : ∀ {size p s}, 0 < size → size ≤ MAX_HEAP → P.mmMalloc size d.heap = some (p, s) → p ≠ NULL)
    (hre : ∀ {size p q s}, 0 < size → size ≤ MAX_HEAP → P.mmRealloc p size d.heap = some (q, s) →
      q ≠ NULL)
    (h : validOp P tracenum opnum op d = some (e, d')) : ∃ s, op.Answered P d s := by
  have hw : wp (validOp P tracenum opnum op) (fun _ _ ↦ True) d := ⟨e, d', h, trivial⟩
  cases op with
  | alloc index size =>
    obtain ⟨h₀, hlt, hsize, hmax⟩ := hr
    have hsz := sizeT_of_size hsize hmax
    rw [validOp, wp_bind, wp_call] at hw
    obtain ⟨p, s, hcall, -⟩ := hw
    exact ⟨s, p, hcall, hm (by omega) (by omega) hcall⟩
  | realloc index size =>
    obtain ⟨hi, hsize, hmax⟩ := hr
    have hsz := sizeT_of_size hsize hmax
    rw [validOp, wp_bind, wp_getBlock] at hw
    obtain ⟨p, hblock, hw⟩ := hw
    rw [wp_bind, wp_call] at hw
    obtain ⟨q, s, hcall, -⟩ := hw
    exact ⟨s, p, q, hblock, hcall, hre (by omega) (by omega) hcall⟩
  | free index => exact ⟨d.heap, rfl⟩

end Answers

end CsoLabs.Mdriver
