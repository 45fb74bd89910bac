import CsoLabs.Foundation.Bitmap
import CsoLabs.Rkgrep.Matchers

namespace CsoLabs.Rkgrep

open Foundation CInt

def H1PRIME : ℤ := 4189793
def H2PRIME : ℤ := 3296731
def BLOOM_HASH_NUM : ℕ := 10

/-- Computed in `long long`, apart from `i * i`, and returned as an `int`. -/
def hashI (i x : ℤ) : Option ℤ := do
  let p ← longLong (i * x.tmod H2PRIME)
  let s ← longLong (x.tmod H1PRIME + p)
  let s ← longLong (s + 1)
  let q ← int (i * i)
  let s ← longLong (s + q)
  return wrapSigned 32 s

structure BloomFilter where
  bsz : ℕ
  buf : List (BitVec 8)
  bsz_eq : bsz = 8 * buf.length
deriving DecidableEq

/-- The assertion fails on other sizes; of a negative size `malloc` has no memory. -/
def bloomInit (bsz : ℤ) : Option BloomFilter :=
  if h : bsz.tmod 8 = 0 ∧ 0 ≤ bsz then
    some ⟨bsz.toNat, List.replicate (bsz.toNat / 8) 0, by
      rw [List.length_replicate]
      have := Int.mul_tdiv_add_tmod bsz 8
      omega⟩
  else none

/-- `hash_i(i, elm) % bf->bsz`, where a remainder by zero is undefined. -/
def bloomPos (bf : BloomFilter) (i elm : ℤ) : Option ℤ := do
  let hashi ← hashI i elm
  if bf.bsz = 0 then none else some (hashi.tmod bf.bsz)

def BloomFilter.readByte (bf : BloomFilter) (whichByte : ℤ) : Option (BitVec 8) :=
  if 0 ≤ whichByte then bf.buf[whichByte.toNat]? else none

def BloomFilter.writeByte (bf : BloomFilter) (whichByte : ℤ) (b : BitVec 8) : BloomFilter :=
  ⟨bf.bsz, bf.buf.set whichByte.toNat b, by rw [List.length_set, ← bf.bsz_eq]⟩

/-- A round of `bloom_add`. A shift by a negative amount is undefined. -/
def bloomSet (bf : BloomFilter) (elm : ℤ) (i : ℕ) : Option BloomFilter := do
  let bloomPos ← bloomPos bf i elm
  let whichByte := bloomPos.tdiv 8
  let whichBit := bloomPos.tmod 8
  if 0 ≤ whichBit then
    let b ← bf.readByte whichByte
    let bitPattern := 0x80#32 >>> whichBit.toNat
    some (bf.writeByte whichByte ((b.signExtend 32 ||| bitPattern).truncate 8))
  else none

def bloomAdd (bf : BloomFilter) (elm : ℤ) : Option BloomFilter :=
  (List.range BLOOM_HASH_NUM).foldlM (fun bf i ↦ bloomSet bf elm i) bf

def bloomBitAtPos (bf : BloomFilter) (pos : ℤ) : Option Bool :=
  if pos < bf.bsz then do
    let whichByte := pos.tdiv 8
    let whichBit := pos.tmod 8
    let mask := 0x1#32 <<< (7 - whichBit).toNat
    let b ← bf.readByte whichByte
    return b.signExtend 32 &&& mask ≠ 0
  else none

def bloomQueryLoop (f : BloomFilter) (elm : ℤ) : List ℕ → Option Bool
  | [] => some true
  | i :: is => do
    let bloomPos ← bloomPos f i elm
    let isSet ← bloomBitAtPos f bloomPos
    if isSet then bloomQueryLoop f elm is else some false

def bloomQuery (f : BloomFilter) (elm : ℤ) : Option Bool :=
  bloomQueryLoop f elm (List.range BLOOM_HASH_NUM)

/-- The loop of `rk_create_doc_bloom`; `doctmp` is always `doc + index - 1`. -/
def rkCreateLoop (doc : CString) (m docLength h : ℤ) :
    ℕ → ℤ → ℤ → BloomFilter → Option BloomFilter
  | 0, _, _, _ => none
  | fuel + 1, index, docHash, bf => do
    let last ← int (docLength - m)
    if index ≤ last then
      let leftmost ← doc.read (index - 1)
      let rightmost ← doc.read (index - 1 + m)
      let docHash ← rkhashNext docHash h leftmost rightmost
      let bf ← bloomAdd bf docHash
      let index ← int (index + 1)
      rkCreateLoop doc m docLength h fuel index docHash bf
    else some bf

def rkCreateDocBloom (m : ℤ) (doc : CString) (bloomSize : ℤ) : Option BloomFilter := do
  let bf ← bloomInit bloomSize
  let (docHash, h) ← rkhashInit doc m
  let bf ← bloomAdd bf docHash
  let docLength := wrapSigned 32 (strlength doc)
  rkCreateLoop doc m docLength h ((docLength - m).toNat + 2) 1 docHash bf

/-- Returns the number of matches and the value left in `*first_match_ind`, which held
`firstMatchInd` before the call. -/
def rkSubstringMatchUsingBloom (pattern doc : CString) (bf : BloomFilter) (firstMatchInd : ℤ) :
    Option (ℤ × ℤ) := do
  let patternLength := wrapSigned 32 (strlength pattern)
  let (patternHash, _) ← rkhashInit pattern patternLength
  let found ← bloomQuery bf patternHash
  if found then rkSubstringMatch pattern doc else some (0, firstMatchInd)

end CsoLabs.Rkgrep
