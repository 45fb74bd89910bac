import CsoLabs.Foundation.CArray
import CsoLabs.Foundation.Fields
import CsoLabs.Rkgrep.Bloom
import CsoLabs.Rkgrep.PrintMatch

namespace CsoLabs.Rkgrep

open Foundation CInt

inductive AlgoType
  | naive
  | rk
  | bloom
  | rkBloom
  | all
deriving DecidableEq

def MAX_PATTERNS : ℕ := 1000
def bar : Int8 := 124

structure Outcome where
  status : ℕ
  out : List Int8
deriving DecidableEq

def ascii (s : String) : List Int8 := s.toList.map fun c ↦ Int8.ofNat c.toNat

def usage : List Int8 :=
  ascii "rkgrep -a <test type> pattern1|pattern2|pattern3 <filename>\n"

def literal (s : String) : CString := ⟨(ascii s).filter (· ≠ 0), by simp⟩

/-- A file that `read_ascii_file` has opened: its size, the cells of `doc` behind the call of
`read`, and what `read` has returned. -/
structure OpenFile where
  size : ℕ
  cells : List Int8
  n : ℤ
  length_cells : cells.length = size + 1
  fits_n : Fits 32 n

/-- The loop that checks the chars. It goes on after it has given `doc` back. -/
def checkAscii (size : ℕ) : ℕ → ℤ → Option (List Int8) → Option (Option (List Int8))
  | 0, _, _ => none
  | fuel + 1, i, doc =>
    if i < size then do
      let cells ← doc
      let c ← CArray.load cells i
      let i ← int (i + 1)
      checkAscii size fuel i (if c ≤ 0 then none else doc)
    else some doc

/-- The terminating NUL is written if `doc` is NULL, and only then. -/
def terminate : Option (List Int8) → Option (Option (List Int8))
  | none => none
  | some cells => some (some cells)

/-- Without a file or memory for it the program ends; else `doc` is returned, `none` if NULL. -/
def readAsciiFile : Option OpenFile → Option (Except Outcome (Option (List Int8)))
  | none => some (.error ⟨1, []⟩)
  | some f => do
    let doc ← if f.n < 0 ∨ f.n ≠ f.size then some none
      else checkAscii f.size (f.size + 1) 0 (some f.cells)
    let doc ← terminate doc
    return .ok doc

def stringOf (cells : List Int8) : Option CString :=
  if 0 ∈ cells then
    some ⟨cells.takeWhile (· ≠ 0), fun c hc ↦ by simpa using List.mem_takeWhile_imp hc⟩
  else none

/-- `strtok_r` for the delimiter `|`: a token and what is behind it. -/
def strtokR (s : CString) : Option (CString × CString) :=
  if s.chars.dropWhile (· = bar) = [] then none
  else some (⟨Fields.word bar (s.chars.dropWhile (· = bar)), fun c hc ↦ s.nonNul c
      ((List.dropWhile_sublist _).subset ((List.takeWhile_sublist _).subset hc))⟩,
    ⟨(Fields.after bar (s.chars.dropWhile (· = bar))).drop 1, fun c hc ↦ s.nonNul c
      ((List.dropWhile_sublist _).subset ((List.dropWhile_sublist _).subset
        (List.mem_of_mem_drop hc)))⟩)

def splitPatterns : ℕ → CString → List CString → Option (List CString)
  | 0, _, _ => none
  | fuel + 1, ind, patterns =>
    match strtokR ind with
    | none => some patterns
    | some (ptr, ind) =>
      if patterns.length + 1 < MAX_PATTERNS then splitPatterns fuel ind (patterns ++ [ptr])
      else none

def decimal (n : ℕ) : List Int8 := (Nat.digits 10 n).reverse.map fun d ↦ Int8.ofNat (48 + d)

def notice (nMatches : ℤ) (pattern : CString) : List Int8 :=
  ascii "--  only 1 out " ++ decimal nMatches.toNat ++ ascii " matches for pattern " ++
    pattern.chars ++ ascii " is displayed\n"

def reportPatterns (doc : CString) (search : ℕ → CString → Option (ℤ × ℤ)) :
    ℕ → List CString → Option (List Int8)
  | _, [] => some []
  | i, pattern :: patterns => do
    let (nMatches, firstMatchInd) ← search i pattern
    let sentence ← printMatchedSentence firstMatchInd pattern doc
    let rest ← reportPatterns doc search (i + 1) patterns
    return sentence ++ (if nMatches > 1 then notice nMatches pattern else []) ++ rest

/-- The assertion on the length of the pattern, an `int` compared with a `size_t`. -/
def SameLength (m : ℤ) (pattern : CString) : Prop := wrapUnsigned 64 m = pattern.chars.length

instance (m : ℤ) (pattern : CString) : Decidable (SameLength m pattern) :=
  inferInstanceAs (Decidable (_ = _))

/-- The `switch` over the algorithm; `ind i` is what `first_match_ind` holds before the call for
the pattern `i`. -/
def searchPatterns (doc : CString) (patterns : List CString) (ind : ℕ → ℤ) :
    AlgoType → Option Outcome
  | .naive => do
    let out ← reportPatterns doc (fun _ pattern ↦ naiveSubstringMatch pattern doc) 0 patterns
    return ⟨0, out⟩
  | .rk => do
    let out ← reportPatterns doc (fun _ pattern ↦ rkSubstringMatch pattern doc) 0 patterns
    return ⟨0, out⟩
  | .rkBloom => do
    let first ← patterns.head?
    let m := wrapSigned 32 first.chars.length
    if ∀ pattern ∈ patterns.tail, SameLength m pattern then
      let bf ← rkCreateDocBloom m doc (wrapSigned 32 (doc.chars.length * 8))
      let out ← reportPatterns doc
        (fun i pattern ↦ rkSubstringMatchUsingBloom pattern doc bf (ind i)) 0 patterns
      return ⟨0, out⟩
    else none
  | .bloom => some ⟨1, ascii "Unknown algo type 2\n"⟩
  | .all => some ⟨1, ascii "Unknown algo type 4\n"⟩

/-- The loop over what `getopt` returns: the argument of an `-a`, or `none` for a `?`. -/
def parseOptions : List (Option CString) → AlgoType → Except Outcome AlgoType
  | [], whichAlgo => .ok whichAlgo
  | none :: _, _ => .error ⟨1, usage⟩
  | some optarg :: options, _ =>
    if optarg.strcmp (literal "naive") = 0 then parseOptions options .naive
    else if optarg.strcmp (literal "rk") = 0 then parseOptions options .rk
    else if optarg.strcmp (literal "rkbloom") = 0 then parseOptions options .rkBloom
    else .error ⟨1, ascii "unknown test type " ++ optarg.chars⟩

def runPatterns (whichAlgo : AlgoType) (args : List CString) (files : CString → Option OpenFile)
    (ind : ℕ → ℤ) : Option Outcome :=
  match args with
  | [] => some ⟨1, usage⟩
  | pattern :: args => do
    let patterns ← splitPatterns (pattern.chars.length + 1) pattern []
    if patterns = [] then some ⟨1, usage⟩
    else
      let doc ← readAsciiFile (args.head?.bind files)
      match doc with
      | .error e => some e
      | .ok none => some ⟨1, []⟩
      | .ok (some cells) => do
        let doc ← stringOf cells
        searchPatterns doc patterns ind whichAlgo

def main (options : List (Option CString)) (args : List CString) (files : CString → Option OpenFile)
    (ind : ℕ → ℤ) : Option Outcome :=
  match parseOptions options .rk with
  | .error e => some e
  | .ok whichAlgo => runPatterns whichAlgo args files ind

variable {s t : CString} {w : List Int8} {f : OpenFile} {doc : CString} {fuel : ℕ}

def patternsOf (s : CString) : List CString :=
  (Fields.fields bar s.chars).pmap CString.mk fun w hw c hc ↦ by
    have hflat : c ∈ (Fields.fields bar s.chars).flatten := List.mem_flatten.mpr ⟨w, hw, hc⟩
    rw [Fields.fields_flatten] at hflat
    exact s.nonNul c (List.mem_of_mem_filter hflat)

theorem map_patternsOf (s : CString) : (patternsOf s).map CString.chars = Fields.fields bar s.chars := by
  rw [patternsOf, List.map_pmap, List.pmap_eq_map, List.map_id']

theorem eq_of_map_chars {ps qs : List CString} (h : ps.map CString.chars = qs.map CString.chars) :
    ps = qs :=
  List.map_injective_iff.mpr (fun _ _ ↦ CString.ext) h

theorem patternsOf_eq_nil (h : strtokR s = none) : patternsOf s = [] := by
  have hnil : s.chars.dropWhile (· = bar) = [] := by
    by_contra hne
    rw [strtokR, if_neg hne] at h
    cases h
  apply eq_of_map_chars
  rw [map_patternsOf, ← List.takeWhile_append_dropWhile (p := (· = bar)) (l := s.chars), hnil]
  exact Fields.fields_gap fun c hc ↦ by simpa using List.mem_takeWhile_imp hc

theorem patternsOf_eq_cons {ind : CString} (h : strtokR s = some (t, ind)) :
    patternsOf s = t :: patternsOf ind ∧ ind.chars.length < s.chars.length := by
  set u := s.chars.dropWhile (· = bar) with hu
  by_cases hne : u = []
  · rw [strtokR, if_pos hne] at h
    cases h
  rw [strtokR, if_neg hne, Option.some_inj, Prod.mk.injEq] at h
  obtain ⟨rfl, rfl⟩ := h
  obtain ⟨c, v, hcv⟩ := List.exists_cons_of_ne_nil hne
  have hc : c ≠ bar := by
    have hhead := List.head?_dropWhile_not (· = bar) s.chars
    rw [← hu, hcv] at hhead
    simpa using hhead
  have hword : Fields.word bar u ≠ [] := by
    rw [hcv]
    exact Fields.word_ne_nil hc
  have hgap : Fields.fields bar s.chars = Fields.fields bar u := by
    conv_lhs => rw [← List.takeWhile_append_dropWhile (p := (· = bar)) (l := s.chars)]
    exact Fields.fields_gap fun c hc ↦ by simpa using List.mem_takeWhile_imp hc
  have hafter : Fields.fields bar (Fields.after bar u) =
      Fields.fields bar ((Fields.after bar u).drop 1) := by
    cases hcase : Fields.after bar u with
    | nil => rfl
    | cons d v =>
      rw [Fields.after_head hcase, Fields.fields_delim]
      rfl
  constructor
  · apply eq_of_map_chars
    rw [List.map_cons, map_patternsOf, map_patternsOf, hgap, Fields.fields_eq hword,
      ← Fields.fields_after, hafter]
  · have hlen := congrArg List.length (Fields.word_append_after (d := bar) (s := u))
    have hpos := List.length_pos_iff.mpr hword
    have hle := (List.dropWhile_sublist (· = bar) (l := s.chars)).length_le
    rw [List.length_append] at hlen
    rw [← hu] at hle
    rw [List.length_drop, ← hu]
    omega

theorem splitPatterns_eq {ps : List CString} (hf : s.chars.length < fuel)
    (hps : ps.length < MAX_PATTERNS) :
    splitPatterns fuel s ps =
      if ps.length + (patternsOf s).length < MAX_PATTERNS then some (ps ++ patternsOf s) else none := by
  induction fuel generalizing s ps with
  | zero => omega
  | succ fuel ih =>
    rw [splitPatterns]
    cases htok : strtokR s with
    | none => simp [patternsOf_eq_nil htok, hps]
    | some r =>
      obtain ⟨t, ind⟩ := r
      obtain ⟨heq, hlt⟩ := patternsOf_eq_cons htok
      have hlen : (ps ++ [t]).length = ps.length + 1 := by simp
      have hsum : ps.length + 1 + (patternsOf ind).length =
          ps.length + (t :: patternsOf ind).length := by
        rw [List.length_cons]
        omega
      dsimp only
      by_cases hroom : ps.length + 1 < MAX_PATTERNS
      · rw [if_pos hroom, ih (by omega) (by omega), hlen, heq, hsum, List.append_assoc,
          List.singleton_append]
      · rw [if_neg hroom, if_neg (by rw [heq, ← hsum]; omega)]

/-- The document that the program gets out of a file: the cells in front of the last one, which
holds 0. -/
def OpenFile.document (f : OpenFile) : Option CString := do
  let doc ← stringOf f.cells
  if f.n = f.size ∧ doc.chars.length = f.size ∧ doc.Ascii then some doc else none

theorem stringOf_eq_some : stringOf f.cells = some doc ↔
    ∃ tail, f.cells = doc.chars ++ 0 :: tail := by
  constructor
  · intro h
    unfold stringOf at h
    split_ifs at h with h0
    have hsplit := List.takeWhile_append_dropWhile (p := (· ≠ 0)) (l := f.cells)
    rw [← Option.some.inj h]
    cases hrest : f.cells.dropWhile (· ≠ 0) with
    | nil =>
      rw [hrest, List.append_nil] at hsplit
      rw [← hsplit] at h0
      have hne := List.mem_takeWhile_imp h0
      simp at hne
    | cons c tail =>
      have hhead := List.head?_dropWhile_not (fun c ↦ decide (c ≠ (0 : Int8))) f.cells
      rw [hrest] at hhead hsplit
      have hc : c = 0 := by simpa using hhead
      rw [hc] at hsplit
      exact ⟨tail, hsplit.symm⟩
  · intro h
    obtain ⟨tail, htail⟩ := h
    have h0 : (0 : Int8) ∈ f.cells := by simp [htail]
    rw [stringOf, if_pos h0, Option.some_inj]
    apply CString.ext
    simp only
    rw [htail, List.takeWhile_append_of_pos fun c hc ↦ by simpa using doc.nonNul c hc]
    simp

theorem document_eq_some : f.document = some doc ↔
    f.n = f.size ∧ f.cells = doc.chars ++ [0] ∧ doc.Ascii := by
  have hlen := f.length_cells
  constructor
  · intro h
    obtain ⟨d, hd, h⟩ := Option.bind_eq_some_iff.mp h
    split_ifs at h with hcond
    obtain rfl := Option.some.inj h
    obtain ⟨tail, htail⟩ := stringOf_eq_some.mp hd
    rw [htail, List.length_append, List.length_cons] at hlen
    have htnil : tail = [] := List.length_eq_zero_iff.mp (by omega)
    rw [htnil] at htail
    exact ⟨hcond.1, htail, hcond.2.2⟩
  · intro h
    obtain ⟨hn, hcells, hascii⟩ := h
    rw [hcells, List.length_append, List.length_singleton] at hlen
    rw [OpenFile.document, stringOf_eq_some.mpr ⟨[], hcells⟩]
    exact if_pos ⟨hn, by omega, hascii⟩

theorem checkAscii_none (size : ℕ) (i : ℤ) :
    (checkAscii size fuel i none).bind terminate = none := by
  cases fuel with
  | zero => rfl
  | succ fuel =>
    rw [checkAscii]
    split_ifs <;> rfl

def AsciiChars (cells : List Int8) : Prop := ∀ c ∈ cells, 0 < c

instance (cells : List Int8) : Decidable (AsciiChars cells) := List.decidableBAll (0 < ·) cells

theorem asciiChars_cons {c : Int8} {cells : List Int8} (hc : 0 < c) :
    AsciiChars (c :: cells) ↔ AsciiChars cells := by
  simp only [AsciiChars, List.mem_cons, forall_eq_or_imp, hc, true_and]

theorem checkAscii_some {size i : ℕ} {cells : List Int8} (hlen : cells.length = size + 1)
    (hsize : size < 2 ^ 31) (hi : i ≤ size) (hf : size - i < fuel) :
    (checkAscii size fuel i (some cells)).bind terminate =
      if AsciiChars ((cells.take size).drop i) then some (some cells) else none := by
  induction fuel generalizing i with
  | zero => omega
  | succ fuel ih =>
    rw [checkAscii]
    by_cases hend : i < size
    · have hget : cells[i]? = some cells[i] := List.getElem?_eq_getElem (by omega)
      have hdrop : (cells.take size).drop i = cells[i] :: (cells.take size).drop (i + 1) := by
        rw [List.drop_eq_getElem_cons (by rw [List.length_take]; omega), List.getElem_take]
      have hint : int ((i : ℤ) + 1) = some ((i + 1 : ℕ) : ℤ) := by
        rw [Nat.cast_succ]
        exact int_of_bounds (by omega) (by omega)
      rw [if_pos (by omega), Option.bind_eq_bind, Option.bind_some, CArray.load_natCast, hget,
        Option.bind_eq_bind, Option.bind_some, hint, Option.bind_eq_bind, Option.bind_some, hdrop]
      by_cases hc : cells[i] ≤ 0
      · rw [if_pos hc, checkAscii_none, if_neg]
        intro hall
        exact absurd (hall _ List.mem_cons_self) (Int8.not_lt.mpr hc)
      · rw [if_neg hc, ih (by omega) (by omega)]
        exact (if_congr (asciiChars_cons (Int8.not_le.mp hc)) rfl rfl).symm
    · obtain rfl : i = size := by omega
      rw [if_neg (by omega), List.drop_of_length_le (by rw [List.length_take]; omega)]
      rfl

/-- A file with an other char than ASCII, or a short `read`, ends in a write through NULL. -/
theorem readAsciiFile_some (f : OpenFile) : readAsciiFile (some f) =
    if f.n = f.size ∧ AsciiChars (f.cells.take f.size) then some (.ok (some f.cells)) else none := by
  have hn := fits_int.mp f.fits_n
  by_cases hsize : f.n = f.size
  · have hcheck := checkAscii_some f.length_cells (by omega) (Nat.zero_le f.size)
      (show f.size - 0 < f.size + 1 by omega)
    rw [List.drop_zero, Nat.cast_zero] at hcheck
    rw [readAsciiFile, if_neg (by omega), Option.bind_eq_bind, ← Option.bind_assoc]
    rw [hcheck]
    simp only [hsize, true_and]
    split_ifs <;> rfl
  · rw [readAsciiFile, if_pos (.inr hsize), if_neg (fun h ↦ hsize h.1)]
    rfl

theorem read_document (f : OpenFile) (k : CString → Option Outcome) :
    ((readAsciiFile (some f)).bind fun doc ↦ match doc with
      | .error e => some e
      | .ok none => some ⟨1, []⟩
      | .ok (some cells) => (stringOf cells).bind k) = f.document.bind k := by
  rw [readAsciiFile_some]
  by_cases hgood : f.n = f.size ∧ AsciiChars (f.cells.take f.size)
  · rw [if_pos hgood, Option.bind_some]
    dsimp only
    cases hs : stringOf f.cells with
    | none => rw [OpenFile.document, hs]; rfl
    | some doc =>
      obtain ⟨tail, htail⟩ := stringOf_eq_some.mp hs
      have hlen := f.length_cells
      rw [htail, List.length_append, List.length_cons] at hlen
      have hall : doc.chars.length = f.size := by
        by_contra hne
        have hmem : (0 : Int8) ∈ f.cells.take f.size := by
          rw [htail, List.take_append, List.mem_append]
          right
          obtain ⟨k, hk⟩ : ∃ k, f.size - doc.chars.length = k + 1 :=
            ⟨f.size - doc.chars.length - 1, by omega⟩
          rw [hk, List.take_succ_cons]
          exact List.mem_cons_self
        exact absurd (hgood.2 0 hmem) Int8.lt_irrefl
      have htnil : tail = [] := List.length_eq_zero_iff.mp (by omega)
      have hascii : doc.Ascii := by
        intro c hc
        apply hgood.2
        rw [htail, ← hall, List.take_left]
        exact hc
      rw [document_eq_some.mpr ⟨hgood.1, htnil ▸ htail, hascii⟩]
  · rw [if_neg hgood, Option.bind_none]
    cases hdoc : f.document with
    | none => rfl
    | some doc =>
      obtain ⟨hn, hcells, hascii⟩ := document_eq_some.mp hdoc
      have hlen := f.length_cells
      rw [hcells, List.length_append, List.length_singleton] at hlen
      have hsize : doc.chars.length = f.size := by omega
      apply absurd _ hgood
      refine ⟨hn, fun c hc ↦ ?_⟩
      rw [hcells, ← hsize, List.take_left] at hc
      exact hascii c hc

end CsoLabs.Rkgrep
