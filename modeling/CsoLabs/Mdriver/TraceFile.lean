import CsoLabs.Foundation.Scanf
import CsoLabs.Mdriver.Utilisation

namespace CsoLabs.Mdriver

open Foundation CInt Scanf

/-- What `read_trace` returns. A header field whose conversion has failed is not initialised. -/
structure Trace where
  suggHeapsize : Option ℤ
  numIds : ℤ
  numOps : ℤ
  weight : Option ℤ
  ops : List TraceOp
  blocks : List (Option ℕ)
  blockSizes : List (Option ℕ)
deriving DecidableEq

def MAXLINE : ℕ := 1024

/-- The variables of the reading loop that live from one request to the next, all of type
`unsigned`; `size` is not initialised. -/
structure Vars where
  index : ℕ
  size : Option ℕ
  maxIndex : ℕ

def scanfIndexSize (v : Vars) : Scan Vars := do
  match ← scanfUnsigned with
  | none => pure v
  | some index =>
    match ← scanfUnsigned with
    | none => pure { v with index := index }
    | some size => pure { v with index := index, size := some size }

/-- `fscanf(tracefile, "%ud", &index)`, where the `d` is an ordinary character. -/
def scanfIndex (v : Vars) : Scan Vars := do
  match ← scanfUnsigned with
  | none => pure v
  | some index =>
    scanfChar 'd'
    pure { v with index := index }

def Vars.see (v : Vars) : Vars :=
  { v with maxIndex := if v.index > v.maxIndex then v.index else v.maxIndex }

def readRequest (v : Vars) (type : Char) : Scan (Vars × TraceOp) := do
  if type = 'a' then do
    let v ← scanfIndexSize v
    let size ← liftM v.size
    pure (v.see, .alloc (wrapSigned 32 v.index) (wrapSigned 32 size))
  else if type = 'r' then do
    let v ← scanfIndexSize v
    let size ← liftM v.size
    pure (v.see, .realloc (wrapSigned 32 v.index) (wrapSigned 32 size))
  else if type = 'f' then do
    let v ← scanfIndex v
    pure (v, .free (wrapSigned 32 v.index))
  else failure

/-- The array of the requests has room for `numOps` of them, and `op_index` is the number of those
read so far. Each round uses up a word of the input, so that `fuel` does not run out. -/
def readLoop (numOps : ℕ) : ℕ → Vars → List TraceOp → Scan (Vars × List TraceOp)
  | 0, _, _ => failure
  | fuel + 1, v, ops => do
    match ← scanfWord with
    | none => pure (v, ops)
    | some type =>
      assertThat (type.length < MAXLINE)
      let (v, op) ← readRequest v (type.headD '\x00')
      assertThat (ops.length < numOps)
      readLoop numOps fuel v (ops ++ [op])

/-- The allocation of an array of a negative length fails and ends the program; other allocations
are taken to succeed. -/
def readTrace : Scan Trace := do
  let suggHeapsize ← scanfInt
  let numIds ← liftM (← scanfInt)
  let numOps ← liftM (← scanfInt)
  let weight ← scanfInt
  assertThat (0 ≤ numOps)
  assertThat (0 ≤ numIds)
  let (v, ops) ← readLoop numOps.toNat ((← get).length + 1) ⟨0, none, 0⟩ []
  assertThat (v.maxIndex = wrapUnsigned 32 (numIds - 1))
  assertThat (wrapUnsigned 32 numOps = ops.length)
  pure ⟨suggHeapsize, numIds, numOps, weight, ops, List.replicate numIds.toNat none,
    List.replicate numIds.toNat none⟩

structure Letter (c : Char) (w : List Char) : Prop where
  head : w.head? = some c
  length : w.length < MAXLINE

def IntNumeral (x : ℤ) (w : List Char) : Prop := Numeral x w ∧ x < 2 ^ 31

instance (x : ℤ) (w : List Char) : Decidable (IntNumeral x w) := inferInstanceAs (Decidable (_ ∧ _))

inductive Spells : List TraceOp → List (List Char) → Prop
  | nil : Spells [] []
  | alloc {i n : ℤ} {ops : List TraceOp} {w a b : List Char} {ws : List (List Char)}
      (hw : Letter 'a' w) (ha : IntNumeral i a) (hb : IntNumeral n b) (h : Spells ops ws) :
      Spells (.alloc i n :: ops) (w :: a :: b :: ws)
  | realloc {i n : ℤ} {ops : List TraceOp} {w a b : List Char} {ws : List (List Char)}
      (hw : Letter 'r' w) (ha : IntNumeral i a) (hb : IntNumeral n b) (h : Spells ops ws) :
      Spells (.realloc i n :: ops) (w :: a :: b :: ws)
  | free {i : ℤ} {ops : List TraceOp} {w a : List Char} {ws : List (List Char)}
      (hw : Letter 'f' w) (ha : IntNumeral i a) (h : Spells ops ws) :
      Spells (.free i :: ops) (w :: a :: ws)

def TraceOp.seen (m : ℕ) : TraceOp → ℕ
  | .alloc index _ => max m index.toNat
  | .realloc index _ => max m index.toNat
  | .free _ => m

def maxIndex (m : ℕ) (ops : List TraceOp) : ℕ := ops.foldl TraceOp.seen m

variable {α β σ : Type} {c : StateT σ Option α} {f : α → StateT σ Option β} {x : α} {t t' : σ}
  {s r : List Char} {w a b : List Char} {ws : List (List Char)} {i n : ℤ} {v : Vars} {op : TraceOp}
  {ops acc : List TraceOp} {fuel numOps m : ℕ}

theorem bind_of_eq (h : c t = some (x, t')) : (c >>= f) t = f x t' := by
  change (c t).bind _ = _
  rw [h]
  rfl

theorem bind_of_eq_none (h : c t = none) : (c >>= f) t = none := by
  change (c t).bind _ = _
  rw [h]
  rfl

theorem wrapSigned_index (h : IntNumeral i w) : wrapSigned 32 (i.toNat : ℤ) = i := by
  have hpos := h.1.nonneg
  have hlt := h.2
  rw [Int.toNat_of_nonneg hpos]
  exact wrapSigned_of_fits (by decide) (fits_int.mpr (by omega))

theorem scanfIndexSize_cons (h : words s = a :: b :: ws) (ha : IntNumeral i a) (hb : IntNumeral n b) :
    ∃ r, scanfIndexSize v s = some ({ v with index := i.toNat, size := some n.toNat }, r) ∧
      words r = ws := by
  have hi := ha.2
  have hn := hb.2
  obtain ⟨r, hs, hr, -⟩ := scanfUnsigned_cons h ha.1 (by omega)
  obtain ⟨r', hs', hr', -⟩ := scanfUnsigned_cons hr hb.1 (by omega)
  refine ⟨r', ?_, hr'⟩
  rw [scanfIndexSize, bind_of_eq hs]
  dsimp only
  rw [bind_of_eq hs']
  rfl

theorem scanfIndex_cons (h : words s = a :: ws) (ha : IntNumeral i a) :
    ∃ r, scanfIndex v s = some ({ v with index := i.toNat }, r) ∧ words r = ws := by
  have hi := ha.2
  obtain ⟨r, hs, hr, hend⟩ := scanfUnsigned_cons h ha.1 (by omega)
  refine ⟨r, ?_, hr⟩
  rw [scanfIndex, bind_of_eq hs]
  dsimp only
  rw [bind_of_eq (scanfChar_of_ends hend (by decide))]
  rfl

theorem see_maxIndex (k : ℕ) (size : Option ℕ) :
    (Vars.see ⟨k, size, m⟩).maxIndex = max m k := by
  unfold Vars.see
  dsimp only
  split_ifs with h
  · exact (max_eq_right h.le).symm
  · exact (max_eq_left (not_lt.mp h)).symm

theorem readRequest_spelled (v : Vars) (h : Spells (op :: ops) (words s)) :
    ∃ w r v' r', scanfWord s = some (some w, r) ∧ w.length < MAXLINE ∧
      readRequest v (w.headD '\x00') r = some ((v', op), r') ∧
      v'.maxIndex = op.seen v.maxIndex ∧ Spells ops (words r') := by
  have hhead : ∀ {c : Char} {w : List Char}, Letter c w → w.headD '\x00' = c := by
    intro c w hw
    rw [List.headD_eq_head?_getD, hw.head, Option.getD_some]
  generalize hws : words s = ws at h
  cases h with
  | @alloc i n _ w a b ws hw ha hb h =>
    obtain ⟨r, hs, hr⟩ := scanfWord_cons hws
    obtain ⟨r', hs', hr'⟩ := scanfIndexSize_cons (v := v) hr ha hb
    refine ⟨w, r, Vars.see ⟨i.toNat, some n.toNat, v.maxIndex⟩, r', hs, hw.length, ?_,
      see_maxIndex _ _, hr' ▸ h⟩
    rw [hhead hw, readRequest, if_pos rfl, bind_of_eq hs']
    simp only [wrapSigned_index ha]
    change some ((_, TraceOp.alloc i (wrapSigned 32 _)), r') = _
    rw [wrapSigned_index hb]
  | @realloc i n _ w a b ws hw ha hb h =>
    obtain ⟨r, hs, hr⟩ := scanfWord_cons hws
    obtain ⟨r', hs', hr'⟩ := scanfIndexSize_cons (v := v) hr ha hb
    refine ⟨w, r, Vars.see ⟨i.toNat, some n.toNat, v.maxIndex⟩, r', hs, hw.length, ?_,
      see_maxIndex _ _, hr' ▸ h⟩
    rw [hhead hw, readRequest, if_neg (by decide), if_pos rfl, bind_of_eq hs']
    simp only [wrapSigned_index ha]
    change some ((_, TraceOp.realloc i (wrapSigned 32 _)), r') = _
    rw [wrapSigned_index hb]
  | @free i _ w a ws hw ha h =>
    obtain ⟨r, hs, hr⟩ := scanfWord_cons hws
    obtain ⟨r', hs', hr'⟩ := scanfIndex_cons (v := v) hr ha
    refine ⟨w, r, { v with index := i.toNat }, r', hs, hw.length, ?_, rfl, hr' ▸ h⟩
    rw [hhead hw, readRequest, if_neg (by decide), if_neg (by decide), if_pos rfl, bind_of_eq hs']
    simp only [wrapSigned_index ha]
    rfl

theorem assertThat_of {p : Prop} [Decidable p] (h : p) : assertThat p t = some ((), t) := by
  rw [assertThat, if_pos h]
  rfl

theorem assertThat_of_not {p : Prop} [Decidable p] (h : ¬ p) : assertThat p t = none := by
  rw [assertThat, if_neg h]
  rfl

theorem readLoop_spelled (v : Vars) (acc : List TraceOp) (numOps : ℕ) (h : Spells ops (words s))
    (hfuel : ops.length < fuel) :
    (acc.length + ops.length ≤ numOps → ∃ v' r, readLoop numOps fuel v acc s =
        some ((v', acc ++ ops), r) ∧ v'.maxIndex = maxIndex v.maxIndex ops) ∧
      (numOps < acc.length + ops.length → acc.length ≤ numOps →
        readLoop numOps fuel v acc s = none) := by
  induction ops generalizing fuel v acc s with
  | nil =>
    obtain ⟨fuel, rfl⟩ := Nat.exists_eq_add_one.mpr hfuel
    have hws : words s = [] := by
      generalize words s = ws at h
      cases h
      rfl
    constructor
    · intro _
      refine ⟨v, [], ?_, rfl⟩
      rw [readLoop, bind_of_eq (scanfWord_nil hws), List.append_nil]
      rfl
    · intro hlt hle
      rw [List.length_nil] at hlt
      omega
  | cons op ops ih =>
    obtain ⟨fuel, rfl⟩ := Nat.exists_eq_add_one.mpr (Nat.zero_lt_of_lt hfuel)
    obtain ⟨w, r, v', r', hs, hlen, hreq, hmax, h'⟩ := readRequest_spelled v h
    rw [List.length_cons] at hfuel ⊢
    have hround : readLoop numOps (fuel + 1) v acc s =
        (do assertThat (acc.length < numOps); readLoop numOps fuel v' (acc ++ [op])) r' := by
      rw [readLoop, bind_of_eq hs]
      dsimp only
      rw [bind_of_eq (assertThat_of hlen), bind_of_eq hreq]
    have ih' := ih v' (acc ++ [op]) h' (by omega : ops.length < fuel)
    rw [List.length_append, List.length_singleton] at ih'
    rw [hround]
    constructor
    · intro hle
      obtain ⟨v'', r'', hloop, hmax'⟩ := ih'.1 (by omega)
      refine ⟨v'', r'', ?_, ?_⟩
      · rw [bind_of_eq (assertThat_of (by omega)), hloop, List.append_assoc, List.singleton_append]
      · rw [hmax', hmax]
        rfl
    · intro hlt hle
      by_cases hfull : acc.length < numOps
      · rw [bind_of_eq (assertThat_of hfull)]
        exact ih'.2 (by omega) (by omega)
      · exact bind_of_eq_none (assertThat_of_not hfull)

theorem Spells.length_le (h : Spells ops ws) : ops.length ≤ ws.length := by
  induction h with
  | nil => exact le_rfl
  | alloc _ _ _ _ ih =>
    simp only [List.length_cons]
    omega
  | realloc _ _ _ _ ih =>
    simp only [List.length_cons]
    omega
  | free _ _ _ ih =>
    simp only [List.length_cons]
    omega

theorem IntNumeral.fits (h : IntNumeral i w) : Fits 32 i := by
  have hpos := h.1.nonneg
  have hlt := h.2
  exact fits_int.mpr (by omega)

structure Header where
  suggHeapsize : ℤ
  numIds : ℤ
  numOps : ℤ
  weight : ℤ

def Header.Fitting (h : Header) (ops : List TraceOp) : Prop :=
  maxIndex 0 ops = wrapUnsigned 32 (h.numIds - 1) ∧ (ops.length : ℤ) = h.numOps

instance (h : Header) (ops : List TraceOp) : Decidable (h.Fitting ops) :=
  inferInstanceAs (Decidable (_ ∧ _))

def Header.trace (h : Header) (ops : List TraceOp) : Trace :=
  ⟨some h.suggHeapsize, h.numIds, h.numOps, some h.weight, ops,
    List.replicate h.numIds.toNat none, List.replicate h.numIds.toNat none⟩

def SpellsFile (h : Header) (ops : List TraceOp) (ws : List (List Char)) : Prop :=
  ∃ a b c d rest, ws = a :: b :: c :: d :: rest ∧ IntNumeral h.suggHeapsize a ∧
    IntNumeral h.numIds b ∧ IntNumeral h.numOps c ∧ IntNumeral h.weight d ∧ Spells ops rest

theorem readTrace_of_spells {h : Header} (hws : SpellsFile h ops (words s)) :
    (readTrace s).map Prod.fst = if h.Fitting ops then some (h.trace ops) else none := by
  obtain ⟨a, b, c, d, rest, hws, ha, hb, hc, hd, hops⟩ := hws
  obtain ⟨r₁, h₁, hws₁⟩ := scanfInt_cons hws ha.1 ha.fits
  obtain ⟨r₂, h₂, hws₂⟩ := scanfInt_cons hws₁ hb.1 hb.fits
  obtain ⟨r₃, h₃, hws₃⟩ := scanfInt_cons hws₂ hc.1 hc.fits
  obtain ⟨r₄, h₄, hws₄⟩ := scanfInt_cons hws₃ hd.1 hd.fits
  have hids := hb.1.nonneg
  have hnum := hc.1.nonneg
  have hlt := hc.2
  have hlen : ops.length < r₄.length + 1 := by
    have := hops.length_le
    have := length_words r₄
    rw [hws₄] at this
    omega
  have hspells : Spells ops (words r₄) := by
    rw [hws₄]
    exact hops
  obtain ⟨hroom, hfull⟩ := readLoop_spelled ⟨0, none, 0⟩ [] h.numOps.toNat hspells hlen
  have hread : readTrace s = (do
      let (v, ops) ← readLoop h.numOps.toNat (r₄.length + 1) ⟨0, none, 0⟩ []
      assertThat (v.maxIndex = wrapUnsigned 32 (h.numIds - 1))
      assertThat (wrapUnsigned 32 h.numOps = ops.length)
      pure (⟨some h.suggHeapsize, h.numIds, h.numOps, some h.weight, ops,
        List.replicate h.numIds.toNat none, List.replicate h.numIds.toNat none⟩ : Trace)) r₄ := by
    have hlift : ∀ (x : ℤ) r, (liftM (some x) : Scan ℤ) r = some (x, r) := fun _ _ ↦ rfl
    rw [readTrace, bind_of_eq h₁, bind_of_eq h₂, bind_of_eq (hlift _ _), bind_of_eq h₃,
      bind_of_eq (hlift _ _), bind_of_eq h₄, bind_of_eq (assertThat_of hnum),
      bind_of_eq (assertThat_of hids)]
    rfl
  have hwrap : wrapUnsigned 32 h.numOps = h.numOps.toNat := wrapUnsigned_of_lt hnum (by omega)
  rw [hread]
  rcases le_or_gt ops.length h.numOps.toNat with hle | hgt
  · obtain ⟨v', r, hloop, hmax⟩ := hroom (by simpa using hle)
    rw [List.nil_append] at hloop
    rw [bind_of_eq hloop]
    dsimp only
    by_cases hfit : h.Fitting ops
    · rw [if_pos hfit, bind_of_eq (assertThat_of (hmax.trans hfit.1)),
        bind_of_eq (assertThat_of (by rw [hwrap]; have := hfit.2; omega))]
      rfl
    · rw [if_neg hfit]
      by_cases hids : v'.maxIndex = wrapUnsigned 32 (h.numIds - 1)
      · have hne : ¬ wrapUnsigned 32 h.numOps = ops.length := by
          intro heq
          exact hfit ⟨hmax.symm.trans hids, by omega⟩
        rw [bind_of_eq (assertThat_of hids), bind_of_eq_none (assertThat_of_not hne)]
        rfl
      · rw [bind_of_eq_none (assertThat_of_not hids)]
        rfl
  · rw [bind_of_eq_none (hfull (by simpa using hgt) (Nat.zero_le _)), if_neg]
    · rfl
    · intro hfit
      have := hfit.2
      omega

section Accepted

/-- The index of the request was read as an `unsigned` of at most `m`, and the size is an `int`. -/
def TraceOp.Seen (m : ℕ) : TraceOp → Prop
  | .alloc index size => (∃ k ≤ m, index = wrapSigned 32 (k : ℕ)) ∧ Fits 32 size
  | .realloc index size => (∃ k ≤ m, index = wrapSigned 32 (k : ℕ)) ∧ Fits 32 size
  | .free index => Fits 32 index

theorem TraceOp.Seen.mono {m' : ℕ} (h : op.Seen m) (hle : m ≤ m') : op.Seen m' := by
  cases op with
  | alloc index size =>
    obtain ⟨⟨k, hk, he⟩, hsize⟩ := h
    exact ⟨⟨k, hk.trans hle, he⟩, hsize⟩
  | realloc index size =>
    obtain ⟨⟨k, hk, he⟩, hsize⟩ := h
    exact ⟨⟨k, hk.trans hle, he⟩, hsize⟩
  | free index => exact h

theorem yields_scanfIndexSize (v : Vars) :
    Yields (fun v' ↦ v'.maxIndex = v.maxIndex) (scanfIndexSize v) := by
  refine .bind (.any _) fun o _ ↦ ?_
  cases o with
  | none => exact .pure rfl
  | some index =>
    refine .bind (.any _) fun o _ ↦ ?_
    cases o with
    | none => exact .pure rfl
    | some size => exact .pure rfl

theorem yields_readRequest (v : Vars) (type : Char) :
    Yields (fun r ↦ v.maxIndex ≤ r.1.maxIndex ∧ r.2.Seen r.1.maxIndex) (readRequest v type) := by
  have hsee : ∀ v' : Vars, v'.maxIndex = v.maxIndex →
      v.maxIndex ≤ v'.see.maxIndex ∧ v'.index ≤ v'.see.maxIndex := by
    intro ⟨k, size, m⟩ h
    rw [see_maxIndex]
    exact ⟨h ▸ le_max_left _ _, le_max_right _ _⟩
  refine .ite ?_ (.ite ?_ (.ite ?_ .failure))
  · refine .bind (yields_scanfIndexSize v) fun v' h ↦ .bind (.any _) fun size _ ↦ .pure ?_
    exact ⟨(hsee v' h).1, ⟨_, (hsee v' h).2, rfl⟩, fits_wrapSigned _⟩
  · refine .bind (yields_scanfIndexSize v) fun v' h ↦ .bind (.any _) fun size _ ↦ .pure ?_
    exact ⟨(hsee v' h).1, ⟨_, (hsee v' h).2, rfl⟩, fits_wrapSigned _⟩
  · have hindex : Yields (fun v' : Vars ↦ v.maxIndex = v'.maxIndex) (scanfIndex v) := by
      refine .bind (.any _) fun o _ ↦ ?_
      cases o with
      | none => exact .pure rfl
      | some index => exact .bind (.any _) fun _ _ ↦ .pure rfl
    exact .bind hindex fun v' h ↦ .pure ⟨h.le, fits_wrapSigned _⟩

theorem yields_readLoop (hlen : acc.length ≤ numOps) (hseen : ∀ op ∈ acc, op.Seen v.maxIndex) :
    Yields (fun r ↦ r.2.length ≤ numOps ∧ ∀ op ∈ r.2, op.Seen r.1.maxIndex)
      (readLoop numOps fuel v acc) := by
  induction fuel generalizing v acc with
  | zero => exact .failure
  | succ fuel ih =>
    refine .bind (.any _) fun o _ ↦ ?_
    cases o with
    | none => exact .pure ⟨hlen, hseen⟩
    | some type =>
      refine .bind (.any _) fun _ _ ↦ .bind (yields_readRequest v _) fun r hr ↦ ?_
      obtain ⟨v', op⟩ := r
      refine .bind .assertThat fun _ hroom ↦ ih ?_ ?_
      · rw [List.length_append, List.length_singleton]
        exact hroom
      · intro o ho
        rcases List.mem_append.mp ho with ho | ho
        · exact (hseen o ho).mono hr.1
        · rw [List.mem_singleton.mp ho]
          exact hr.2

/-- The index of an allocation or a reallocation is one of the `n` indices of the trace; that of a
free request is not looked at. -/
def TraceOp.Indexed (n : ℤ) : TraceOp → Prop
  | .alloc index _ => 0 ≤ index ∧ index < n
  | .realloc index _ => 0 ≤ index ∧ index < n
  | .free _ => True

def TraceOp.IntIndex : TraceOp → Prop
  | .alloc index _ => Fits 32 index
  | .realloc index _ => Fits 32 index
  | .free index => Fits 32 index

/-- What `read_trace` has made sure of. -/
structure Trace.Sane (t : Trace) : Prop where
  numOps : (t.ops.length : ℤ) = t.numOps
  typed : ∀ op ∈ t.ops, op.Typed
  intIndex : ∀ op ∈ t.ops, op.IntIndex
  blocks : (t.blocks.length : ℤ) = t.numIds
  blockSizes : (t.blockSizes.length : ℤ) = t.numIds
  indexed : 0 < t.numIds → ∀ op ∈ t.ops, op.Indexed t.numIds

theorem TraceOp.Seen.indexed {ids : ℤ} (h : op.Seen (wrapUnsigned 32 (ids - 1))) (hpos : 0 < ids)
    (hfit : Fits 32 ids) : op.Indexed ids := by
  have hlt := (fits_int.mp hfit).2
  rw [wrapUnsigned_of_lt (by omega) (by omega)] at h
  have hindex : ∀ {index : ℤ}, (∃ k ≤ (ids - 1).toNat, index = wrapSigned 32 (k : ℕ)) →
      0 ≤ index ∧ index < ids := by
    intro index hk
    obtain ⟨k, hk, he⟩ := hk
    rw [wrapSigned_of_fits (by decide) (fits_int.mpr (by omega))] at he
    omega
  cases op with
  | alloc index size => exact hindex h.1
  | realloc index size => exact hindex h.1
  | free index => trivial

theorem TraceOp.Seen.typed (h : op.Seen m) : op.Typed := by
  cases op with
  | alloc index size => exact h.2
  | realloc index size => exact h.2
  | free index => trivial

theorem TraceOp.Seen.intIndex (h : op.Seen m) : op.IntIndex := by
  have hfits : ∀ {index : ℤ}, (∃ k ≤ m, index = wrapSigned 32 (k : ℕ)) → Fits 32 index := by
    intro index hk
    obtain ⟨k, -, he⟩ := hk
    rw [he]
    exact fits_wrapSigned _
  cases op with
  | alloc index size => exact hfits h.1
  | realloc index size => exact hfits h.1
  | free index => exact h

theorem yields_lift {α : Type} (o : Option α) :
    Yields (fun a ↦ o = some a) (liftM o : Scan α) := by
  intro s a s' h
  have hw : wp (liftM o : Scan α) (fun b _ ↦ b = a) s := ⟨a, s', h, rfl⟩
  obtain ⟨b, hb, rfl⟩ := wp_lift.mp hw
  exact hb

theorem yields_readTrace : Yields Trace.Sane readTrace := by
  refine .bind (.any _) fun sugg _ ↦ .bind yields_scanfInt fun o hids ↦ ?_
  refine .bind (yields_lift o) fun numIds ho ↦ .bind yields_scanfInt fun o' hops ↦ ?_
  refine .bind (yields_lift o') fun numOps ho' ↦ .bind (.any _) fun weight _ ↦ ?_
  refine .bind .assertThat fun _ hn ↦ .bind .assertThat fun _ hi ↦ .bind (.any _) fun s _ ↦ ?_
  refine .bind (yields_readLoop (Nat.zero_le _) (by simp)) fun r hr ↦ ?_
  obtain ⟨v, ops⟩ := r
  refine .bind .assertThat fun _ hmax ↦ .bind .assertThat fun _ hnum ↦ .pure ?_
  have hlt := (fits_int.mp (hops numOps ho')).2
  rw [wrapUnsigned_of_lt hn (by omega)] at hnum
  have hlen : ((List.replicate numIds.toNat (none : Option ℕ)).length : ℤ) = numIds := by
    rw [List.length_replicate]
    omega
  refine ⟨by simp only; omega, fun op hop ↦ (hr.2 op hop).typed,
    fun op hop ↦ (hr.2 op hop).intIndex, hlen, hlen, ?_⟩
  intro hpos op hop
  have hseen := hr.2 op hop
  rw [hmax] at hseen
  exact hseen.indexed hpos (hids numIds ho)

end Accepted

section Fuel

theorem shorter_scanfIndexSize (v : Vars) : Within Shorter (scanfIndexSize v) := by
  refine .bind shorter_scanfUnsigned fun o ↦ ?_
  cases o with
  | none => exact .pure _
  | some index =>
    refine .bind shorter_scanfUnsigned fun o ↦ ?_
    cases o with
    | none => exact .pure _
    | some size => exact .pure _

theorem shorter_readRequest (v : Vars) (type : Char) : Within Shorter (readRequest v type) := by
  refine .ite ?_ (.ite ?_ (.ite ?_ .failure))
  · exact .bind (shorter_scanfIndexSize v) fun _ ↦ .bind (.lift _) fun _ ↦ .pure _
  · exact .bind (shorter_scanfIndexSize v) fun _ ↦ .bind (.lift _) fun _ ↦ .pure _
  · refine .bind (.bind shorter_scanfUnsigned fun o ↦ ?_) fun _ ↦ .pure _
    cases o with
    | none => exact .pure _
    | some index => exact .bind (shorter_scanfChar 'd') fun _ ↦ .pure _

/-- More rounds than the input has characters make no difference. -/
theorem readLoop_fuel {fuel' : ℕ} (h : s.length < fuel) (h' : s.length < fuel') :
    readLoop numOps fuel v acc s = readLoop numOps fuel' v acc s := by
  induction fuel generalizing fuel' v acc s with
  | zero => exact absurd h (Nat.not_lt_zero _)
  | succ fuel ih =>
    obtain ⟨fuel', rfl⟩ := Nat.exists_eq_add_one.mpr (Nat.zero_lt_of_lt h')
    rw [readLoop, readLoop]
    cases hw : scanfWord s with
    | none => rw [bind_of_eq_none hw, bind_of_eq_none hw]
    | some p =>
      obtain ⟨o, r⟩ := p
      rw [bind_of_eq hw, bind_of_eq hw]
      cases o with
      | none => rfl
      | some type =>
        have hlt := length_scanfWord hw
        dsimp only
        by_cases hlen : type.length < MAXLINE
        · rw [bind_of_eq (assertThat_of hlen), bind_of_eq (assertThat_of hlen)]
          cases hreq : readRequest v (type.headD '\x00') r with
          | none => rw [bind_of_eq_none hreq, bind_of_eq_none hreq]
          | some q =>
            obtain ⟨⟨v', op⟩, r'⟩ := q
            have hle : r'.length ≤ r.length := shorter_readRequest v _ _ _ _ hreq
            rw [bind_of_eq hreq, bind_of_eq hreq]
            dsimp only
            by_cases hroom : acc.length < numOps
            · rw [bind_of_eq (assertThat_of hroom), bind_of_eq (assertThat_of hroom)]
              exact ih (by omega) (by omega)
            · rw [bind_of_eq_none (assertThat_of_not hroom),
                bind_of_eq_none (assertThat_of_not hroom)]
        · rw [bind_of_eq_none (assertThat_of_not hlen), bind_of_eq_none (assertThat_of_not hlen)]

end Fuel

/-- A file whose words spell a header and requests, whatever white space stands between them: the
requests are read back if they fit the header, and otherwise the program ends. -/
theorem trace_file_round_trip (h : Header) (ops : List TraceOp) (hws : SpellsFile h ops (words s)) :
    (readTrace s).map Prod.fst = if h.Fitting ops then some (h.trace ops) else none :=
  readTrace_of_spells hws

def shortFile : List Char := ['8', ' ', '1', ' ', '2', ' ', '1', '\n', 'a', ' ', '0', '\t', '0', '8',
  '\n', 'f', ' ', '0', '\n']

theorem shortFile_spelled : SpellsFile ⟨8, 1, 2, 1⟩ [.alloc 0 8, .free 0] (words shortFile) := by
  refine ⟨['8'], ['1'], ['2'], ['1'], [['a'], ['0'], ['0', '8'], ['f'], ['0']], by decide,
    by decide, by decide, by decide, by decide, ?_⟩
  exact .alloc ⟨rfl, by decide⟩ (by decide) (by decide) (.free ⟨rfl, by decide⟩ (by decide) .nil)

theorem trace_file_round_trip_short : (readTrace shortFile).map Prod.fst =
    some (Header.trace ⟨8, 1, 2, 1⟩ [.alloc 0 8, .free 0]) :=
  trace_file_round_trip ⟨8, 1, 2, 1⟩ [.alloc 0 8, .free 0] shortFile_spelled

/-- What `read_trace` accepts has as many requests as the header says, sizes and indices that are
`int`s, and allocates and reallocates within the arrays only, unless the header says that there are
no indices. -/
theorem trace_file_accepted {t : Trace} (h : readTrace s = some (t, r)) : t.Sane :=
  yields_readTrace s t r h

theorem trace_file_accepted_short : ∃ t r, readTrace shortFile = some (t, r) ∧ t.Sane := by
  have hread : (readTrace shortFile).map Prod.fst = some _ := readTrace_of_spells shortFile_spelled
  obtain ⟨⟨t, r⟩, h, -⟩ := Option.map_eq_some_iff.mp hread
  exact ⟨t, r, h, trace_file_accepted h⟩

end CsoLabs.Mdriver
