import CsoLabs.Hashtable.Hash

namespace CsoLabs.Hashtable

open Foundation CInt

def NULL : ℕ := 0
def MAX_COLLISION : ℤ := 10

structure Node where
  hashcode : ℤ
  key : CString
  val : ℕ
  next : ℕ
deriving DecidableEq

/-- `struct htable` with the nodes in memory; `fresh` is where `malloc` puts the next one. -/
structure Htable where
  allowResize : ℤ
  size : ℤ
  store : List ℕ
  nodes : ℕ → Option Node
  fresh : ℕ

def htableInit (sz allowResize : ℤ) : Option Htable := do
  let min ← int (sz + 1)
  let size ← getPrime min
  return ⟨allowResize, size, List.replicate size.toNat NULL, fun _ ↦ none, 1⟩

def slotOf (t : Htable) (hcode : ℤ) : Option ℤ :=
  if t.size = 0 then none else some (hcode.tmod t.size)

def readStore (store : List ℕ) (i : ℤ) : Option ℕ :=
  if 0 ≤ i then store[i.toNat]? else none

/-- The loop of `htable_insert` over a chain: `none` when the key is found, else `prev` and
`collision` as it leaves them. Running out of `fuel` stands for a walk that does not end. -/
def insertLoop (nodes : ℕ → Option Node) (hcode : ℤ) (key : CString) :
    ℕ → ℕ → ℕ → ℤ → Option (Option (ℕ × ℤ))
  | 0, _, _, _ => none
  | fuel + 1, curr, prev, collision =>
    if curr = NULL then some (some (prev, collision))
    else do
      let n ← nodes curr
      if n.hashcode = hcode ∧ n.key.strcmp key = 0 then some none
      else do
        let collision ← int (collision + 1)
        insertLoop nodes hcode key fuel n.next curr collision

def Htable.appendNode (t : Htable) (slot hcode : ℤ) (key : CString) (val prev : ℕ) :
    Option Htable :=
  let n := t.fresh
  let nodes := Function.update t.nodes n (some ⟨hcode, key, val, NULL⟩)
  if prev = NULL then
    some { t with store := t.store.set slot.toNat n, nodes := nodes, fresh := n + 1 }
  else do
    let p ← nodes prev
    some { t with nodes := Function.update nodes prev (some { p with next := n }), fresh := n + 1 }

/-- What `htable_insert` does under the slot lock; `none` instead of the collision count
when the key is in the chain already. -/
def insertAt (t : Htable) (slot hcode : ℤ) (key : CString) (val : ℕ) :
    Option (Option ℤ × Htable) := do
  let curr ← readStore t.store slot
  match ← insertLoop t.nodes hcode key (t.fresh + 1) curr NULL 0 with
  | none => some (none, t)
  | some (prev, collision) => do
    let t ← t.appendNode slot hcode key val prev
    some (some collision, t)

def lookupLoop (nodes : ℕ → Option Node) (hcode : ℤ) (key : CString) : ℕ → ℕ → Option ℕ
  | 0, _ => none
  | fuel + 1, curr =>
    if curr = NULL then some NULL
    else do
      let n ← nodes curr
      if n.hashcode = hcode ∧ n.key.strcmp key = 0 then some n.val
      else lookupLoop nodes hcode key fuel n.next

def lookupAt (t : Htable) (slot hcode : ℤ) (key : CString) : Option ℕ := do
  let curr ← readStore t.store slot
  lookupLoop t.nodes hcode key (t.fresh + 1) curr

abbrev Rehash := (ℕ → Option Node) × List ℕ

/-- The inner loop of `htable_resize`: every node of one old chain goes to the front of its
new chain. -/
def rehashChain (newSize : ℤ) : ℕ → ℕ → Rehash → Option Rehash
  | 0, _, _ => none
  | fuel + 1, curr, (nodes, newStore) =>
    if curr = NULL then some (nodes, newStore)
    else do
      let n ← nodes curr
      let slot := n.hashcode.tmod newSize
      let head ← readStore newStore slot
      rehashChain newSize fuel n.next
        (Function.update nodes curr (some { n with next := if head ≠ NULL then head else NULL }),
          newStore.set slot.toNat curr)

def rehashStore (newSize : ℤ) (fuel : ℕ) : List ℕ → Rehash → Option Rehash
  | [], r => some r
  | curr :: store, r => do
    let r ← rehashChain newSize fuel curr r
    rehashStore newSize fuel store r

def newSize (t : Htable) : Option ℤ := do
  let twice ← int (2 * t.size)
  getPrime twice

def rehash (t : Htable) (newSize : ℤ) : Option Htable := do
  let (nodes, newStore) ← rehashStore newSize (t.fresh + 1) t.store
    (t.nodes, List.replicate newSize.toNat NULL)
  return { t with size := newSize, store := newStore, nodes := nodes }

def htableResize (t : Htable) : Option Htable := do
  let size ← newSize t
  rehash t size

def htableInsert (t : Htable) (key : CString) (val : ℕ) : Option (ℤ × Htable) := do
  let hcode ← hashcode key
  let slot ← slotOf t hcode
  match ← insertAt t slot hcode key val with
  | (none, t) => some (1, t)
  | (some collision, t) =>
    if t.allowResize ≠ 0 ∧ collision ≥ MAX_COLLISION then do
      let t ← htableResize t
      some (0, t)
    else some (0, t)

def htableLookup (t : Htable) (key : CString) : Option ℕ := do
  let hcode ← hashcode key
  let slot ← slotOf t hcode
  lookupAt t slot hcode key

end CsoLabs.Hashtable
