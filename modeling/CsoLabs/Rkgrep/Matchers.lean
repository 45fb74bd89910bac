import CsoLabs.Foundation.CInt
import CsoLabs.Foundation.CString

namespace CsoLabs.Rkgrep

open Foundation CInt

def PRIME : ℤ := 961748941

def madd (a b : ℤ) : Option ℤ := do
  let s ← longLong (a + b)
  return s.tmod PRIME

def msub (a b : ℤ) : Option ℤ :=
  if a > b then longLong (a - b) else do
    let s ← longLong (a + PRIME)
    longLong (s - b)

def mmul (a b : ℤ) : Option ℤ := do
  let p ← longLong (a * b)
  return p.tmod PRIME

def strlengthLoop : List Int8 → ℕ → ℕ
  | [], count => count
  | _ :: tmp, count => strlengthLoop tmp ((count + 1) % 2 ^ 32)

/-- The `unsigned int` length, before its conversion to `int`. -/
def strlength (pattern : CString) : ℕ := strlengthLoop pattern.chars 0

def rkhashInitLoop (charbuf : CString) : ℕ → ℤ → ℤ → Option (ℤ × ℤ)
  | 0, hashret, rkval => some (hashret, rkval)
  | i + 1, hashret, rkval => do
    let c ← charbuf.read i
    let t ← mmul rkval c.toInt
    let hashret ← madd hashret t
    let rkval ← mmul rkval 256
    rkhashInitLoop charbuf i hashret rkval

def rkhashInit (charbuf : CString) (m : ℤ) : Option (ℤ × ℤ) :=
  rkhashInitLoop charbuf m.toNat 0 1

def rkhashNext (currHash h : ℤ) (leftmost rightmost : Int8) : Option ℤ := do
  let a ← mmul 256 currHash
  let b ← mmul leftmost.toInt h
  let d ← msub a b
  madd d rightmost.toInt

/-- The loop over the pattern of `naive_substring_match`. Its end-of-document test
compares the pointer `pattmp`, not `*pattmp`, with NUL, so that part always holds. -/
def naiveInner (doc : CString) : List Int8 → ℤ → Bool → Option Bool
  | [], _, found => some found
  | p :: pattmp, docsub, _ => do
    let d ← doc.read docsub
    if p = d then
      let d ← doc.read (docsub + 1)
      if d = 0 then some false else naiveInner doc pattmp (docsub + 1) true
    else some false

def tally (r : ℤ × ℤ) (index : ℤ) (found : Bool) : Option (ℤ × ℤ) :=
  if found then do
    let count ← int (r.1 + 1)
    return (count, if r.2 = -1 then index else r.2)
  else some r

def naiveLoop (pattern doc : CString) : List Int8 → ℤ → ℤ × ℤ → Option (ℤ × ℤ)
  | [], _, r => some r
  | _ :: doctmp, index, r => do
    let found ← naiveInner doc pattern.chars index false
    let r ← tally r index found
    let index ← int (index + 1)
    naiveLoop pattern doc doctmp index r

/-- Returns the number of matches and the value stored in `*first_match_ind`. -/
def naiveSubstringMatch (pattern doc : CString) : Option (ℤ × ℤ) :=
  naiveLoop pattern doc doc.chars 0 (0, -1)

def rkVerify (doc : CString) : List Int8 → ℤ → Bool → Option Bool
  | [], _, found => some found
  | p :: pattmp, docsub, _ => do
    let d ← doc.read docsub
    if p = d then rkVerify doc pattmp (docsub + 1) true else some false

def rkWindow (pattern doc : CString) (patternHash docHash index : ℤ) (r : ℤ × ℤ) :
    Option (ℤ × ℤ) :=
  if patternHash = docHash then do
    let found ← rkVerify doc pattern.chars index false
    tally r index found
  else some r

/-- The scan of `rk_substring_match`; `doctmp` is always `doc + index`. Every round
advances `index`, and running out of `fuel` stands for a scan that does not end. -/
def rkLoop (pattern doc : CString) (patternLength docLength patternHash h : ℤ) :
    ℕ → ℤ → ℤ → ℤ × ℤ → Option (ℤ × ℤ)
  | 0, _, _, _ => none
  | fuel + 1, index, docHash, r => do
    let last ← int (docLength - patternLength)
    if index ≤ last then
      let r ← rkWindow pattern doc patternHash docHash index r
      let leftmost ← doc.read index
      let rightmost ← doc.read (index + patternLength)
      let docHash ← rkhashNext docHash h leftmost rightmost
      let index ← int (index + 1)
      rkLoop pattern doc patternLength docLength patternHash h fuel index docHash r
    else some r

def rkSubstringMatch (pattern doc : CString) : Option (ℤ × ℤ) :=
  let patternLength := wrapSigned 32 (strlength pattern)
  let docLength := wrapSigned 32 (strlength doc)
  if patternLength > docLength then some (0, -1) else do
    let (patternHash, _) ← rkhashInit pattern patternLength
    let (docHash, h) ← rkhashInit doc patternLength
    rkLoop pattern doc patternLength docLength patternHash h
      ((docLength - patternLength).toNat + 2) 0 docHash (0, -1)

theorem strlengthLoop_eq (tmp : List Int8) (count : ℕ) (h : count < 2 ^ 32) :
    strlengthLoop tmp count = (count + tmp.length) % 2 ^ 32 := by
  induction tmp generalizing count with
  | nil => exact (Nat.mod_eq_of_lt h).symm
  | cons c tmp ih =>
    rw [strlengthLoop, ih _ (Nat.mod_lt _ (by decide)), List.length_cons]
    omega

theorem strlength_eq (s : CString) : strlength s = s.chars.length % 2 ^ 32 := by
  rw [strlength, strlengthLoop_eq _ _ (by decide), Nat.zero_add]

theorem int_strlength {s : CString} (h : s.chars.length < 2 ^ 31) :
    wrapSigned 32 (strlength s) = s.chars.length := by
  rw [strlength_eq, Nat.mod_eq_of_lt (by omega)]
  exact wrapSigned_of_fits (by decide) (fits_int.mpr (by omega))

end CsoLabs.Rkgrep
