import CsoLabs.Foundation.CArray
import CsoLabs.Malloc.Package

namespace CsoLabs.Mdriver

open Foundation CInt
open Malloc (Heap Alloc Package NULL ALIGNMENT MAX_HEAP sizeT)

/-- One request of a trace file. The size of a free request is never read. -/
inductive TraceOp
  | alloc (index size : ℤ)
  | realloc (index size : ℤ)
  | free (index : ℤ)
deriving DecidableEq

structure RangeT where
  lo : ℕ
  hi : ℕ
deriving DecidableEq

/-- The heap under test, the range list, the two arrays of the trace, and what has been reported.
An element that has not been written yet is `none`. -/
structure Driver where
  heap : Heap
  ranges : List RangeT
  blocks : List (Option ℕ)
  blockSizes : List (Option ℕ)
  errors : ℕ
  output : List String

/-- A fault, a failed assertion and a call of `exit` are all `none`. -/
abbrev Drive := StateT Driver Option

def call {α : Type} (c : Alloc α) : Drive α := onPart Driver.heap (fun d s ↦ { d with heap := s }) c

def showPtr (p : ℕ) : String :=
  if p = NULL then "(nil)" else "0x" ++ String.ofList (Nat.toDigits 16 p)

def LINENUM (i : ℤ) : ℤ := i + 5

def mallocError (tracenum opnum : ℤ) (msg : String) : Drive Unit :=
  modify fun d ↦ { d with
    errors := d.errors + 1
    output := d.output ++ ["ERROR [trace " ++ toString tracenum ++ ", line " ++
      toString (LINENUM opnum) ++ "]: " ++ msg ++ "\n"] }

def appError {α : Type} : Drive α := failure

def memHeapLo (s : Heap) : ℕ := s.memStartBrk

def memHeapHi (s : Heap) : ℕ := (s.memBrk + (2 ^ 64 - 1)) % 2 ^ 64

def memHeapsize (s : Heap) : ℕ := s.memBrk - s.memStartBrk

def memResetBrk : Alloc Unit := modify fun s ↦ { s with memBrk := s.memStartBrk }

def lastByte (lo : ℕ) (size : ℤ) : ℕ := wrapUnsigned 64 (lo + size - 1)

/-- The test of `add_range` against one record: an end of the new range lies in the record. -/
def RangeT.Overlaps (p : RangeT) (lo hi : ℕ) : Prop :=
  (p.lo ≤ lo ∧ lo ≤ p.hi) ∨ (p.lo ≤ hi ∧ hi ≤ p.hi)

instance (p : RangeT) (lo hi : ℕ) : Decidable (p.Overlaps lo hi) :=
  inferInstanceAs (Decidable (_ ∨ _))

def OutsideHeap (s : Heap) (lo hi : ℕ) : Prop :=
  lo < memHeapLo s ∨ lo > memHeapHi s ∨ hi < memHeapLo s ∨ hi > memHeapHi s

instance (s : Heap) (lo hi : ℕ) : Decidable (OutsideHeap s lo hi) :=
  inferInstanceAs (Decidable (_ ∨ _))

/-- The record of the new range is allocated by libc, which is taken to succeed. -/
def addRange (lo : ℕ) (size tracenum opnum : ℤ) : Drive ℤ := do
  let hi := lastByte lo size
  assertThat (size > 0)
  let d ← get
  if lo % ALIGNMENT ≠ 0 then do
    mallocError tracenum opnum ("Payload address (" ++ showPtr lo ++ ") not aligned to " ++
      toString ALIGNMENT ++ " bytes")
    pure 0
  else if OutsideHeap d.heap lo hi then do
    mallocError tracenum opnum ("Payload (" ++ showPtr lo ++ ":" ++ showPtr hi ++
      ") lies outside heap (" ++ showPtr (memHeapLo d.heap) ++ ":" ++
      showPtr (memHeapHi d.heap) ++ ")")
    pure 0
  else
    match d.ranges.find? fun p ↦ p.Overlaps lo hi with
    | some p => do
      mallocError tracenum opnum ("Payload (" ++ showPtr lo ++ ":" ++ showPtr hi ++
        ") overlaps another payload (" ++ showPtr p.lo ++ ":" ++ showPtr p.hi ++ ")\n")
      pure 0
    | none => do
      modify fun d ↦ { d with ranges := ⟨lo, hi⟩ :: d.ranges }
      pure 1

def removeRange (lo : ℕ) : Drive Unit :=
  modify fun d ↦ { d with ranges := d.ranges.eraseP fun p ↦ p.lo = lo }

def clearRanges : Drive Unit := modify fun d ↦ { d with ranges := [] }

def element (a : List (Option ℕ)) (index : ℤ) : Option ℕ := do
  let x ← CArray.load a index
  x

def getBlock (index : ℤ) : Drive ℕ := do liftM (element (← get).blocks index)

def getBlockSize (index : ℤ) : Drive ℕ := do liftM (element (← get).blockSizes index)

def setBlock (index : ℤ) (p : ℕ) : Drive Unit := do
  let d ← get
  let blocks ← liftM (CArray.store d.blocks index (some p))
  set { d with blocks := blocks }

def setBlockSize (index : ℤ) (size : ℕ) : Drive Unit := do
  let d ← get
  let blockSizes ← liftM (CArray.store d.blockSizes index (some size))
  set { d with blockSizes := blockSizes }

def lowByte (index : ℤ) : ℤ := index % 256

def fill (m : ByteMemory.Memory) (p n : ℕ) (v : UInt8) : ByteMemory.Memory := fun b ↦
  if p ≤ b ∧ b < p + n then v else m b

def memset (p : ℕ) (c : ℤ) (n : ℕ) : Alloc Unit := do
  let s ← get
  if s.Mapped p n then
    modify fun s ↦ { s with mem := fill s.mem p n (UInt8.ofNat (wrapUnsigned 8 c)) }
  else failure

def readChar (p : ℕ) : Alloc ℤ := do
  let s ← get
  if s.Mapped p 1 then pure (s.mem p).toInt8.toInt else failure

def preserved (newp : ℕ) (index : ℤ) : ℕ → ℕ → Drive Bool
  | 0, _ => pure true
  | n + 1, j => do
    if (← call (readChar (newp + j))) ≠ lowByte index then pure false
    else preserved newp index n (j + 1)

def remember (index size : ℤ) (p : ℕ) : Drive Unit := do
  call (memset p (lowByte index) (sizeT size))
  setBlock index p
  setBlockSize index (sizeT size)

/-- One round of the loop of `eval_mm_valid`; on `false` the function returns 0. -/
def validOp (P : Package) (tracenum i : ℤ) : TraceOp → Drive Bool
  | .alloc index size => do
    let p ← call (P.mmMalloc (sizeT size))
    if p = NULL then do
      mallocError tracenum i "mm_malloc failed."
      pure false
    else if (← addRange p size tracenum i) = 0 then
      pure false
    else do
      remember index size p
      pure true
  | .realloc index size => do
    let oldp ← getBlock index
    let newp ← call (P.mmRealloc oldp (sizeT size))
    if newp = NULL then do
      mallocError tracenum i "mm_realloc failed."
      pure false
    else do
      removeRange oldp
      if (← addRange newp size tracenum i) = 0 then
        pure false
      else do
        let oldsize := wrapSigned 32 (← getBlockSize index)
        let oldsize := if size < oldsize then size else oldsize
        if ← preserved newp index oldsize.toNat 0 then do
          remember index size newp
          pure true
        else do
          mallocError tracenum i "mm_realloc did not preserve the data from old block"
          pure false
  | .free index => do
    let p ← getBlock index
    removeRange p
    call (P.mmFree p)
    pure true

def validLoop (P : Package) (tracenum : ℤ) : ℤ → List TraceOp → Drive ℤ
  | _, [] => pure 1
  | i, op :: ops => do
    if ← validOp P tracenum i op then validLoop P tracenum (i + 1) ops else pure 0

def evalMmValid (P : Package) (ops : List TraceOp) (tracenum : ℤ) : Drive ℤ := do
  call memResetBrk
  clearRanges
  if (← call P.mmInit) < 0 then do
    mallocError tracenum 0 "mm_init failed."
    pure 0
  else
    validLoop P tracenum 0 ops

structure Usage where
  maxTotalSize : ℤ
  totalSize : ℤ

def Usage.add (u : Usage) (incr : ℤ) : Option Usage := do
  let totalSize ← int (u.totalSize + incr)
  return ⟨if totalSize > u.maxTotalSize then totalSize else u.maxTotalSize, totalSize⟩

def utilOp (P : Package) (u : Usage) : TraceOp → Drive Usage
  | .alloc index size => do
    let p ← call (P.mmMalloc (sizeT size))
    if p = NULL then appError
    else do
      setBlock index p
      setBlockSize index (sizeT size)
      liftM (u.add size)
  | .realloc index newsize => do
    let oldsize := wrapSigned 32 (← getBlockSize index)
    let oldp ← getBlock index
    let newp ← call (P.mmRealloc oldp (sizeT newsize))
    if newp = NULL then appError
    else do
      setBlock index newp
      setBlockSize index (sizeT newsize)
      let incr ← liftM (int (newsize - oldsize))
      liftM (u.add incr)
  | .free index => do
    let size := wrapSigned 32 (← getBlockSize index)
    let p ← getBlock index
    call (P.mmFree p)
    let totalSize ← liftM (int (u.totalSize - size))
    pure { u with totalSize := totalSize }

def utilLoop (P : Package) : Usage → List TraceOp → Drive Usage
  | u, [] => pure u
  | u, op :: ops => do utilLoop P (← utilOp P u op) ops

/-- The numerator and the denominator of the quotient that `eval_mm_util` returns. -/
def evalMmUtil (P : Package) (ops : List TraceOp) : Drive (ℤ × ℕ) := do
  call memResetBrk
  if (← call P.mmInit) < 0 then appError
  else do
    let u ← utilLoop P ⟨0, 0⟩ ops
    pure (u.maxTotalSize, memHeapsize (← get).heap)

def speedOp (P : Package) : TraceOp → Drive Unit
  | .alloc index size => do
    let p ← call (P.mmMalloc (sizeT size))
    if p = NULL then appError else setBlock index p
  | .realloc index newsize => do
    let oldp ← getBlock index
    let newp ← call (P.mmRealloc oldp (sizeT newsize))
    if newp = NULL then appError else setBlock index newp
  | .free index => do
    let block ← getBlock index
    call (P.mmFree block)

def speedLoop (P : Package) : List TraceOp → Drive Unit
  | [] => pure ()
  | op :: ops => do
    speedOp P op
    speedLoop P ops

end CsoLabs.Mdriver
