import CsoLabs.Malloc.Model

namespace CsoLabs.MallocNaive

open Foundation CInt
open Malloc (Heap Alloc NULL ALIGNMENT sbrkError readWord writeWord align sizeT memSbrk memcpy)

/-- `sizeof(header)`: the field `size_n_status` and a padding of 8 bytes. -/
def headerSize : ℕ := 16

def NORMAL_VERBOSE : ℤ := 1

def setChunkSizeStatus (hdr size : ℕ) (status : Bool) : Alloc Unit :=
  writeWord hdr (size ||| status.toNat)

/-- The mask is all ones when `status` is set, so this never sets the status bit. -/
def setChunkStatus (hdr : ℕ) (status : Bool) : Alloc Unit := do
  let mask := ~~~ (1 - BitVec.ofNat 64 status.toNat)
  writeWord hdr ((← readWord hdr) &&& mask.toNat)

def getChunkStatus (hdr : ℕ) : Alloc Bool := do return (← readWord hdr) &&& 1 ≠ 0

def getChunkSize (hdr : ℕ) : Alloc ℕ := do return (← readWord hdr) &&& (~~~ (1 : BitVec 64)).toNat

def payloadToHeader (p : ℕ) : ℕ := (p + (2 ^ 64 - headerSize)) % 2 ^ 64

def headerToPayload (hdr : ℕ) : ℕ := hdr + headerSize

def getNextChunk (hdr : ℕ) : Alloc ℕ := do return (hdr + (← getChunkSize hdr)) % 2 ^ 64

def memHeapLo (s : Heap) : ℕ := s.memStartBrk

def memHeapHi (s : Heap) : ℕ := (s.memBrk + (2 ^ 64 - 1)) % 2 ^ 64

def mmInit : Alloc ℤ := pure 0

structure Totals where
  allocated : ℕ
  free : ℕ
  allocatedSz : ℕ
  freeSz : ℕ
deriving DecidableEq

def Totals.count (t : Totals) (size : ℕ) (status : Bool) : Totals :=
  if status then
    { t with
      allocatedSz := (t.allocatedSz + size) % 2 ^ 64
      allocated := (t.allocated + 1) % 2 ^ 64 }
  else
    { t with
      freeSz := (t.freeSz + size) % 2 ^ 64
      free := (t.free + 1) % 2 ^ 64 }

inductive Line
  | chunk (size : ℕ) (status : Bool)
  | totals (t : Totals)
deriving DecidableEq

/-- The `while` loop of `mm_checkheap` with the lines that it prints. Running out of `fuel`
stands for a walk that does not end. -/
def checkLoop (verboseLevel : ℤ) : ℕ → ℕ → Totals → Alloc (List Line × Totals)
  | 0, _, _ => failure
  | fuel + 1, h, t => do
    if h < memHeapHi (← get) then do
      let size ← getChunkSize h
      let status ← getChunkStatus h
      let line := if verboseLevel > NORMAL_VERBOSE then [Line.chunk size status] else []
      let (lines, t) ← checkLoop verboseLevel fuel (← getNextChunk h) (t.count size status)
      pure (line ++ lines, t)
    else pure ([], t)

def mmCheckheap (verboseLevel : ℤ) : Alloc (List Line) := do
  let s ← get
  let (lines, t) ← checkLoop verboseLevel s.fuel (memHeapLo s) ⟨0, 0, 0, 0⟩
  pure (lines ++ if verboseLevel > 0 then [Line.totals t] else [])

def getNewsize (size : ℕ) : ℤ := wrapSigned 32 ((align size + headerSize) % 2 ^ 64 : ℕ)

/-- The call of `mm_checkheap` behind the two returns is never reached. -/
def mmMalloc (size : ℕ) : Alloc ℕ := do
  let newsize := getNewsize size
  let h ← memSbrk newsize
  if h = sbrkError then
    pure NULL
  else do
    assertThat (h % ALIGNMENT = 0)
    setChunkSizeStatus h (sizeT newsize) true
    assertThat ((← getChunkStatus h) = true)
    assertThat ((← getChunkSize h) = sizeT newsize)
    pure (headerToPayload h)

def mmFree (ptr : ℕ) : Alloc Unit := do
  let s ← get
  assertThat (memHeapLo s ≤ ptr ∧ ptr ≤ memHeapHi s)
  let h := payloadToHeader ptr
  setChunkStatus h false
  assertThat ((← getChunkStatus h) = false)
  discard (mmCheckheap 0)

def mmRealloc (ptr size : ℕ) : Alloc ℕ :=
  if size > 0 then do
    let newptr ← mmMalloc size
    if newptr = NULL then
      pure NULL
    else do
      onlyIf (ptr ≠ NULL) do
        let h := payloadToHeader ptr
        let copySize := ((← getChunkSize h) + (2 ^ 64 - headerSize)) % 2 ^ 64
        memcpy newptr ptr (if size < copySize then size else copySize)
        mmFree ptr
      pure newptr
  else do
    onlyIf (ptr ≠ NULL) do
      mmFree ptr
    pure NULL

end CsoLabs.MallocNaive
