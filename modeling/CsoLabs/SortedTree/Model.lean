import CsoLabs.Foundation.CInt
import CsoLabs.Foundation.CString
import CsoLabs.Foundation.Program

namespace CsoLabs.SortedTree

open Foundation CInt

def NULL : ℕ := 0

/-- `tnode_t`; the string of a root may still be missing. -/
structure Tnode where
  string : Option CString
  left : ℕ
  right : ℕ
deriving DecidableEq

structure Heap where
  nodes : ℕ → Option Tnode
  fresh : ℕ

abbrev Prog := StateT Heap Option

def readNode (p : ℕ) : Prog Tnode := do
  let h ← get
  liftM (h.nodes p)

def writeNode (p : ℕ) (n : Tnode) : Prog Unit :=
  modify fun h ↦ { h with nodes := Function.update h.nodes p (some n) }

def allocNode (string : CString) : Prog ℕ := do
  let h ← get
  set (⟨Function.update h.nodes h.fresh (some ⟨some string, NULL, NULL⟩), h.fresh + 1⟩ : Heap)
  return h.fresh

def insertRec : ℕ → ℕ → CString → Prog ℤ
  | 0, _, _ => failure
  | fuel + 1, tree, s => do
    let n ← readNode tree
    match n.string with
    | none => do
      writeNode tree { n with string := some s }
      return 0
    | some string =>
      let path := string.strcmp s
      if path > 0 then
        if n.left = NULL then do
          let newNode ← allocNode s
          writeNode tree { n with left := newNode }
          return 0
        else insertRec fuel n.left s
      else if path < 0 then
        if n.right = NULL then do
          let newNode ← allocNode s
          writeNode tree { n with right := newNode }
          return 0
        else insertRec fuel n.right s
      else return 1

def insert (tree : ℕ) (s : CString) : Prog ℤ := do
  let h ← get
  insertRec (h.fresh + 1) tree s

/-- What the block that `malloc` returns at an address holds before anything is written to it. -/
abbrev Garbage := ℕ → Tnode

def malloc (garbage : Garbage) : Prog ℕ := do
  let h ← get
  set (⟨Function.update h.nodes h.fresh (some (garbage h.fresh)), h.fresh + 1⟩ : Heap)
  return h.fresh

/-- `init_tree`, which writes one field. -/
def initTreeFrom (garbage : Garbage) : Prog ℕ := do
  let tree ← malloc garbage
  let n ← readNode tree
  writeNode tree { n with string := none }
  return tree

def allocNodeFrom (garbage : Garbage) (string : CString) : Prog ℕ := do
  let ret ← malloc garbage
  let n ← readNode ret
  writeNode ret { n with string := some string }
  let n ← readNode ret
  writeNode ret { n with left := NULL }
  let n ← readNode ret
  writeNode ret { n with right := NULL }
  return ret

def insertRecFrom (garbage : Garbage) : ℕ → ℕ → CString → Prog ℤ
  | 0, _, _ => failure
  | fuel + 1, tree, s => do
    let n ← readNode tree
    match n.string with
    | none => do
      writeNode tree { n with string := some s }
      return 0
    | some string =>
      let path := string.strcmp s
      if path > 0 then
        if n.left = NULL then do
          let newNode ← allocNodeFrom garbage s
          writeNode tree { n with left := newNode }
          return 0
        else insertRecFrom garbage fuel n.left s
      else if path < 0 then
        if n.right = NULL then do
          let newNode ← allocNodeFrom garbage s
          writeNode tree { n with right := newNode }
          return 0
        else insertRecFrom garbage fuel n.right s
      else return 1

def insertFrom (garbage : Garbage) (tree : ℕ) (s : CString) : Prog ℤ := do
  let h ← get
  insertRecFrom garbage (h.fresh + 1) tree s

abbrev Result := List (Option CString)

def Result.store (result : Result) (i : ℤ) (string : Option CString) : Option Result :=
  if 0 ≤ i ∧ i < result.length then some (result.set i.toNat string) else none

def preorderDo (nodes : ℕ → Option Tnode) : ℕ → ℕ → Result → ℤ → ℤ → Option (Result × ℤ)
  | 0, _, _, _, _ => none
  | fuel + 1, node, result, curPosition, resultMax =>
    if curPosition ≥ resultMax then some (result, curPosition)
    else do
      let n ← nodes node
      let result ← Result.store result curPosition n.string
      let curPosition ← int (curPosition + 1)
      let (result, curPosition) ←
        if n.left ≠ NULL then preorderDo nodes fuel n.left result curPosition resultMax
        else some (result, curPosition)
      if n.right ≠ NULL then preorderDo nodes fuel n.right result curPosition resultMax
      else some (result, curPosition)

def preorder (h : Heap) (tree : ℕ) (result : Result) (resultMax : ℤ) : Option (Result × ℤ) :=
  preorderDo h.nodes (h.fresh + 1) tree result 0 resultMax

def inorderDo (nodes : ℕ → Option Tnode) : ℕ → ℕ → Result → ℤ → ℤ → Option (Result × ℤ)
  | 0, _, _, _, _ => none
  | fuel + 1, node, result, curPosition, maxResult =>
    if curPosition ≥ maxResult then some (result, curPosition)
    else do
      let n ← nodes node
      let (result, curPosition) ←
        if n.left ≠ NULL then inorderDo nodes fuel n.left result curPosition maxResult
        else some (result, curPosition)
      let result ← Result.store result curPosition n.string
      let curPosition ← int (curPosition + 1)
      if n.right ≠ NULL then inorderDo nodes fuel n.right result curPosition maxResult
      else some (result, curPosition)

def inorder (h : Heap) (tree : ℕ) (result : Result) (maxResult : ℤ) : Option (Result × ℤ) :=
  inorderDo h.nodes (h.fresh + 1) tree result 0 maxResult

/-- `free`; giving back what is not allocated is undefined behaviour. -/
def free (p : ℕ) : Prog Unit := do
  let _ ← readNode p
  modify fun h ↦ { h with nodes := Function.update h.nodes p none }

/-- Running out of `fuel` stands for a recursion that does not end. -/
def delTree : ℕ → ℕ → Prog Unit
  | 0, _ => failure
  | fuel + 1, tree =>
    if tree = NULL then return ()
    else do
      let n ← readNode tree
      onlyIf (n.left ≠ NULL) do
        delTree fuel n.left
        let n ← readNode tree
        writeNode tree { n with left := NULL }
      let n ← readNode tree
      onlyIf (n.right ≠ NULL) do
        delTree fuel n.right
        let n ← readNode tree
        writeNode tree { n with right := NULL }
      free tree

end CsoLabs.SortedTree
