import CsoLabs.Foundation.CArray
import CsoLabs.Foundation.CInt
import CsoLabs.Foundation.CString

namespace CsoLabs.Bmgrep

open Foundation CInt

def strlen (s : CString) : ℤ := wrapSigned 32 s.chars.length

def initDelta1Loop (patlen : ℤ) : List Int8 → ℤ → List ℤ → Option (List ℤ)
  | [], _, delta1 => some delta1
  | c :: tmp, index, delta1 => do
    let distance ← int (patlen - index)
    let distance ← int (distance - 1)
    let delta1 ← CArray.store delta1 c.toInt distance
    let index ← int (index + 1)
    initDelta1Loop patlen tmp index delta1

def initDelta1 (pattern : CString) : Option (List ℤ) := do
  let patlen := strlen pattern
  let delta1 ← initDelta1Loop patlen pattern.chars 0 (List.replicate 128 (-1))
  return delta1.map fun x ↦ if x = -1 then patlen else x

def findRprInner (pattern : CString) (i : ℤ) : ℕ → ℤ → ℤ → Option ℤ
  | 0, _, matchpos => some matchpos
  | n + 1, k, matchpos => do
    let c ← pattern.read k
    let d ← pattern.read i
    findRprInner pattern i n (k + 1)
      (if c = d then if matchpos = -1 then k else matchpos else -1)

def findRprOuter (pattern : CString) (j : ℤ) : ℕ → ℤ → ℤ → Option ℤ
  | 0, _, matchpos => some matchpos
  | n + 1, i, matchpos => do
    let matchpos ← findRprInner pattern i j.toNat 0 matchpos
    findRprOuter pattern j n (i + 1) matchpos

def findRpr (pattern : CString) (j : ℤ) : Option ℤ :=
  let patlen := strlen pattern
  if j < 0 ∨ j ≥ patlen then some (-1)
  else if j = patlen - 1 then some 1
  else findRprOuter pattern j (patlen - (j + 1)).toNat (j + 1) (-1)

/-- `initDelta2Loop pattern n i` is the part of the array from `i` on, with `n` elements. -/
def initDelta2Loop (pattern : CString) : ℕ → ℤ → Option (List ℤ)
  | 0, _ => some []
  | n + 1, i => do
    let rpr ← findRpr pattern i
    let x ← int (strlen pattern - rpr)
    let delta2 ← initDelta2Loop pattern n (i + 1)
    return x :: delta2

def initDelta2 (pattern : CString) : Option (List ℤ) :=
  initDelta2Loop pattern (strlen pattern).toNat 0

structure Alignment where
  found : Bool
  i : ℤ
  j : ℕ
  nAligns : ℤ

def align (pattern doc : CString) : ℕ → ℤ → ℤ → Option Alignment
  | 0, i, nAligns => some ⟨true, i, 0, nAligns⟩
  | j + 1, i, nAligns => do
    let nAligns ← int (nAligns + 1)
    let c ← doc.read i
    let p ← pattern.read (j + 1)
    if c = p then align pattern doc j (i - 1) nAligns else some ⟨false, i, j + 1, nAligns⟩

/-- The outer loop. It need not end, so it runs on `fuel`. -/
def boyerMooreLoop (pattern doc : CString) (delta1 delta2 : List ℤ) :
    ℕ → ℤ → ℤ → Option (ℤ × ℤ)
  | 0, _, _ => none
  | fuel + 1, i, nAligns =>
    if i < strlen doc then do
      let a ← align pattern doc (strlen pattern).toNat i nAligns
      if a.found then return (a.i, a.nAligns)
      let c ← doc.read a.i
      let shift1 ← CArray.load delta1 c.toInt
      let shift2 ← CArray.load delta2 a.j
      let i ← int (a.i + max shift1 shift2)
      boyerMooreLoop pattern doc delta1 delta2 fuel i a.nAligns
    else some (-1, nAligns)

/-- Returns the position and `*n_aligns`. The length of the pattern is not negative as an `int`
in the loops, since `init_delta1` overflows on a longer one. -/
def boyerMoore (fuel : ℕ) (pattern doc : CString) (nAligns : ℤ) : Option (ℤ × ℤ) := do
  let delta1 ← initDelta1 pattern
  let delta2 ← initDelta2 pattern
  if strlen pattern > strlen doc then return (-1, nAligns)
  boyerMooreLoop pattern doc delta1 delta2 fuel (strlen pattern) nAligns

end CsoLabs.Bmgrep
