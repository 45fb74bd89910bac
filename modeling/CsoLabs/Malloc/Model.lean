import CsoLabs.Foundation.ByteMemory
import CsoLabs.Foundation.CInt
import CsoLabs.Foundation.Program

namespace CsoLabs.Malloc

open Foundation CInt ByteMemory

def NULL : ℕ := 0
def ALIGNMENT : ℕ := 16
def MAX_HEAP : ℕ := 200 * 2 ^ 20
def MIN_GUARD : ℤ := 1024

/-- `sizeof(header)`: the fields `size`, `next`, `prev` and `status` of 8 bytes each. -/
def headerSize : ℕ := 32

def sbrkError : ℕ := 2 ^ 64 - 1

/-- The simulated memory of memlib.c with its break, and the two list heads of mm.c. -/
structure Heap where
  mem : Memory
  memStartBrk : ℕ
  memBrk : ℕ
  memMaxAddr : ℕ
  globalFreeList : ℕ
  globalAllocatedListHead : ℕ

/-- An access outside the simulated memory, or a walk that does not end, is `none`. -/
abbrev Alloc := StateT Heap Option

def Heap.Mapped (s : Heap) (a n : ℕ) : Prop := s.memStartBrk ≤ a ∧ a + n ≤ s.memMaxAddr

instance (s : Heap) (a n : ℕ) : Decidable (s.Mapped a n) := inferInstanceAs (Decidable (_ ∧ _))

def readWord (a : ℕ) : Alloc ℕ := do
  let s ← get
  if s.Mapped a 8 then pure (load s.mem a 8) else failure

def writeWord (a v : ℕ) : Alloc Unit := do
  let s ← get
  if s.Mapped a 8 then modify fun s ↦ { s with mem := store s.mem a 8 v } else failure

def getChunkSize (hdr : ℕ) : Alloc ℕ := readWord hdr
def getNext (hdr : ℕ) : Alloc ℕ := readWord (hdr + 8)
def getPrev (hdr : ℕ) : Alloc ℕ := readWord (hdr + 16)
def getChunkStatus (hdr : ℕ) : Alloc Bool := do return (← readWord (hdr + 24)) ≠ 0

def setChunkSize (hdr size : ℕ) : Alloc Unit := writeWord hdr size
def setNext (hdr next : ℕ) : Alloc Unit := writeWord (hdr + 8) next
def setPrev (hdr prev : ℕ) : Alloc Unit := writeWord (hdr + 16) prev
def setChunkStatus (hdr : ℕ) (status : Bool) : Alloc Unit := writeWord (hdr + 24) status.toNat

def setChunkSizeStatus (hdr size : ℕ) (status : Bool) : Alloc Unit := do
  setChunkSize hdr size
  setChunkStatus hdr status

def setFreeList (hdr : ℕ) : Alloc Unit := modify fun s ↦ { s with globalFreeList := hdr }

def setAllocatedList (hdr : ℕ) : Alloc Unit :=
  modify fun s ↦ { s with globalAllocatedListHead := hdr }

def payloadToHeader (p : ℕ) : ℕ := (p + (2 ^ 64 - headerSize)) % 2 ^ 64

def headerToPayload (hdr : ℕ) : ℕ := hdr + headerSize

def headerToNextHeader (hdr size : ℕ) : ℕ := (hdr + size) % 2 ^ 64

def initHeader (hdr : ℕ) : Alloc Unit := do
  setNext hdr NULL
  setPrev hdr NULL
  setChunkStatus hdr false

def align (size : ℕ) : ℕ :=
  ((BitVec.ofNat 64 size + BitVec.ofNat 64 (ALIGNMENT - 1)) &&&
    ~~~ BitVec.ofNat 64 (ALIGNMENT - 1)).toNat

def sizeT (x : ℤ) : ℕ := wrapUnsigned 64 x

/-- The `size_t` sum is cut down to an `int`. -/
def getNewsize (size : ℕ) : ℤ := wrapSigned 32 ((align size + headerSize) % 2 ^ 64 : ℕ)

def removeFromList (hdr : ℕ) : Alloc Unit := do
  onlyIf (hdr = (← get).globalFreeList) do
    setFreeList (← getNext hdr)
  onlyIf (hdr = (← get).globalAllocatedListHead) do
    setAllocatedList (← getNext hdr)
  onlyIf ((← getPrev hdr) ≠ NULL) do
    setNext (← getPrev hdr) (← getNext hdr)
  onlyIf ((← getNext hdr) ≠ NULL) do
    setPrev (← getNext hdr) (← getPrev hdr)

def mergeRegions (hdr nxt : ℕ) : Alloc Bool := do
  if hdr = NULL ∨ nxt = NULL then
    pure false
  else if hdr + (← getChunkSize hdr) = nxt then do
    setNext hdr (← getNext nxt)
    onlyIf ((← getNext nxt) ≠ NULL) do
      setPrev (← getNext nxt) hdr
    setChunkSizeStatus hdr (((← getChunkSize hdr) + (← getChunkSize nxt)) % 2 ^ 64) false
    pure true
  else
    pure false

def insertAllocatedList (hdr : ℕ) : Alloc Unit := do
  setChunkStatus hdr true
  setNext hdr (← get).globalAllocatedListHead
  onlyIf ((← get).globalAllocatedListHead ≠ NULL) do
    setPrev (← get).globalAllocatedListHead hdr
  setPrev hdr NULL
  setAllocatedList hdr

/-- The `while` loop of `insert_free_list`; returns `temp` and `last` as it leaves them.
Running out of `fuel` stands for a walk that does not end. -/
def insertLoop (hdr : ℕ) : ℕ → ℕ → ℕ → Alloc (ℕ × ℕ)
  | 0, _, _ => failure
  | fuel + 1, temp, last =>
    if temp = NULL then
      pure (temp, last)
    else if hdr < temp then do
      setNext hdr temp
      setNext (← getPrev temp) hdr
      setPrev hdr (← getPrev temp)
      setPrev temp hdr
      pure (temp, last)
    else do
      insertLoop hdr fuel (← getNext temp) temp

def Heap.fuel (s : Heap) : ℕ := s.memMaxAddr - s.memStartBrk + 2

def linkFreeList (hdr temp : ℕ) : Alloc Unit :=
  if hdr < temp then do
    setNext hdr temp
    setPrev hdr NULL
    setPrev temp hdr
    setFreeList hdr
  else do
    let (temp, last) ← insertLoop hdr (← get).fuel temp NULL
    onlyIf (last ≠ NULL ∧ temp = NULL) do
      setNext last hdr
      setPrev hdr last
      setNext hdr NULL

def mergeNeighbours (hdr : ℕ) : Alloc Unit := do
  onlyIf (← mergeRegions hdr (← getNext hdr)) do
    discard (mergeRegions hdr (← getNext hdr))
  onlyIf (← mergeRegions (← getPrev hdr) hdr) do
    discard (mergeRegions (← getPrev hdr) hdr)

def insertFreeList (hdr : ℕ) : Alloc Unit := do
  let temp := (← get).globalFreeList
  setChunkStatus hdr false
  if temp = NULL then do
    setFreeList hdr
    setPrev hdr NULL
    setNext hdr NULL
  else do
    linkFreeList hdr temp
    mergeNeighbours hdr

def mmInit : Alloc ℤ := do
  setFreeList NULL
  setAllocatedList NULL
  pure 0

def takeChunk (temp : ℕ) : Alloc ℕ := do
  removeFromList temp
  insertAllocatedList temp
  pure (headerToPayload temp)

def splitChunk (temp chunkSize : ℕ) (newsize : ℤ) : Alloc ℕ := do
  setChunkSizeStatus temp (sizeT newsize) true
  removeFromList temp
  insertAllocatedList temp
  let nextHeader := headerToNextHeader temp (sizeT newsize)
  initHeader nextHeader
  setChunkSizeStatus nextHeader ((chunkSize + (2 ^ 64 - sizeT newsize)) % 2 ^ 64) false
  insertFreeList nextHeader
  pure (headerToPayload temp)

/-- The guard of the first pass; its `int` sum is reached only behind the first test. -/
def fitsGuard (chunkSize : ℕ) (newsize : ℤ) : Option Bool :=
  if chunkSize ≥ sizeT newsize then do
    let limit ← int (newsize + MIN_GUARD)
    return chunkSize < sizeT limit
  else some false

def tryChunk (i : ℕ) (newsize : ℤ) (temp : ℕ) : Alloc (Option ℕ) := do
  if (← getChunkStatus temp) = false then
    let chunkSize ← getChunkSize temp
    if i = 0 then
      if ← (fitsGuard chunkSize newsize : Option Bool) then some <$> takeChunk temp else pure none
    else if chunkSize > (sizeT newsize + headerSize) % 2 ^ 64 then
      some <$> splitChunk temp chunkSize newsize
    else pure none
  else pure none

def searchLoop (i : ℕ) (newsize : ℤ) : ℕ → ℕ → Alloc (Option ℕ)
  | 0, _ => failure
  | fuel + 1, temp =>
    if temp = NULL then
      pure none
    else do
      match ← tryChunk i newsize temp with
      | some p => pure (some p)
      | none => searchLoop i newsize fuel (← getNext temp)

def findMemory (size : ℕ) : Alloc ℕ :=
  if size = 0 then
    pure NULL
  else do
    let newsize := getNewsize size
    let s ← get
    match ← searchLoop 0 newsize s.fuel s.globalFreeList with
    | some p => pure p
    | none =>
      let s ← get
      match ← searchLoop 1 newsize s.fuel s.globalFreeList with
      | some p => pure p
      | none => pure NULL

def memSbrk (incr : ℤ) : Alloc ℕ := do
  let s ← get
  if incr < 0 ∨ (s.memBrk : ℤ) + incr > s.memMaxAddr then
    pure sbrkError
  else do
    modify fun s ↦ { s with memBrk := s.memBrk + incr.toNat }
    pure s.memBrk

/-- The check of the pointer that `mem_sbrk` returns is commented out in the source. -/
def mmMalloc (size : ℕ) : Alloc ℕ :=
  if size = 0 then
    pure NULL
  else do
    let allocatedMemory ← findMemory size
    if allocatedMemory ≠ NULL then
      pure allocatedMemory
    else do
      let newsize := getNewsize size
      let h ← memSbrk newsize
      setChunkSizeStatus h (sizeT newsize) true
      insertAllocatedList h
      pure (headerToPayload h)

def mmFree (ptr : ℕ) : Alloc Unit := do
  let h := payloadToHeader ptr
  removeFromList h
  insertFreeList h

def memcpy (dst src n : ℕ) : Alloc Unit := do
  let s ← get
  if s.Mapped dst n ∧ s.Mapped src n ∧ (dst + n ≤ src ∨ src + n ≤ dst) then
    modify fun s ↦ { s with mem := copy s.mem dst src n }
  else failure

def mmRealloc (ptr size : ℕ) : Alloc ℕ := do
  let newptr ← if size > 0 then do
      let newptr ← mmMalloc size
      onlyIf (ptr ≠ NULL) do
        let h := payloadToHeader ptr
        let copySize := ((← getChunkSize h) + (2 ^ 64 - headerSize)) % 2 ^ 64
        memcpy newptr ptr (if size < copySize then size else copySize)
      pure newptr
    else pure NULL
  onlyIf (ptr ≠ NULL) do
    mmFree ptr
  pure newptr

/-- The empty simulated heap that `mem_init` makes of the `MAX_HEAP` bytes at `base`. -/
def memInit (s : Heap) (base : ℕ) : Heap :=
  { s with memStartBrk := base, memBrk := base, memMaxAddr := base + MAX_HEAP }

end CsoLabs.Malloc
