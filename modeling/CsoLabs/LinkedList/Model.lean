import CsoLabs.Foundation.Program

namespace CsoLabs.LinkedList

open Foundation

def NULL : ℕ := 0

structure ListNode where
  value : ℤ
  next : ℕ
deriving DecidableEq

abbrev Nodes := ℕ → Option ListNode

/-- `head` is what `headp` points to, and `freed` are the calls of `free_node` so far. -/
structure State where
  nodes : Nodes
  head : ℕ
  freed : List ℕ

abbrev Prog := StateT State Option

def readNode (p : ℕ) : Prog ListNode := do
  let s ← get
  liftM (s.nodes p)

def writeNext (p next : ℕ) : Prog Unit := do
  let n ← readNode p
  modify fun s ↦ { s with nodes := Function.update s.nodes p (some { n with next := next }) }

def callFreeNode (freeNode : Nodes → ℕ → Nodes) (p : ℕ) : Prog Unit :=
  modify fun s ↦ { s with nodes := freeNode s.nodes p, freed := s.freed ++ [p] }

/-- The loop of `list_find`, which returns the node and `*predp`; running out of `fuel` stands
for a loop that does not end. -/
def listFindLoop (nodes : Nodes) (value : ℤ) : ℕ → ℕ → ℕ → Option (ℕ × ℕ)
  | 0, _, _ => none
  | fuel + 1, temp, prev =>
    if temp ≠ NULL then do
      let n ← nodes temp
      if n.value = value then some (temp, prev)
      else listFindLoop nodes value fuel n.next temp
    else some (NULL, NULL)

def listFind (nodes : Nodes) (fuel head : ℕ) (value : ℤ) : Option (ℕ × ℕ) :=
  if head = NULL then none
  else do
    let n ← nodes head
    if n.value = value then some (head, NULL)
    else listFindLoop nodes value fuel head NULL

def listRemove (freeNode : Nodes → ℕ → Nodes) (fuel : ℕ) (value : ℤ) : Prog ℤ := do
  let s ← get
  if s.head = NULL then failure
  else do
    let n ← readNode s.head
    if n.value = value then do
      set { s with head := n.next }
      callFreeNode freeNode s.head
      return 1
    else do
      let (remove, prev) ← liftM (listFind s.nodes fuel s.head value)
      if remove ≠ NULL then do
        let r ← readNode remove
        writeNext prev r.next
        callFreeNode freeNode remove
        return 1
      else return 0

end CsoLabs.LinkedList
