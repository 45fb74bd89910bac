import CsoLabs.Foundation.Linearizability
import CsoLabs.Hashtable.Concurrent
import CsoLabs.Rwlock.Holding

namespace CsoLabs.Hashtable.Threads

open Foundation CInt

/-- The next step of a call, with the local variables that the rest of it needs. A walk takes
one node of its chain at a time. From `setFlag` on it is `htable_resize`. -/
inductive Pc
  | readFlag
  | lockMu
  | readSize (globalLock : Bool)
  | lockSlot (slot : ℤ) (globalLock : Bool)
  | unlockMu (slot : ℤ)
  | readHead (slot : ℤ)
  | insertWalk (slot : ℤ) (curr prev : ℕ) (collision : ℤ)
  | lookupWalk (slot : ℤ) (curr : ℕ)
  | append (slot : ℤ) (prev : ℕ) (collision : ℤ)
  | unlockSlot (slot : ℤ) (collision : Option ℤ)
  | checkResize (collision : ℤ)
  | setFlag
  | resizeMu
  | newSize
  | lockAll (size : ℤ) (i : ℕ)
  | rehash (size : ℤ)
  | unlockAll (i : ℕ)
  | clearFlag
  | ret
deriving DecidableEq

/-- A call in progress; `started` calls had returned when it started. -/
structure Call where
  request : Request
  hcode : ℤ
  started : ℕ
  result : Option ℕ
  pc : Pc
deriving DecidableEq

structure System (T : Type) where
  table : Htable
  undergoingResize : Bool
  mu : Option T
  rwlSlot : ℕ → Rwlock.Lock T
  calls : T → Option Call
  todo : T → List Request
  done : List (Returned Request ℕ)

def Call.wants (c : Call) : Option (ℕ × Mode) :=
  match c.pc with
  | .lockSlot slot _ => some (lockIndex slot, c.request.mode)
  | .lockAll _ i => if i < NUM_LOCKS then some (i, .write) else none
  | _ => none

def Pc.acquired : Pc → Pc
  | .lockSlot slot globalLock => if globalLock then .unlockMu slot else .readHead slot
  | .lockAll size i => .lockAll size (i + 1)
  | pc => pc

def Call.leaves (c : Call) : Option (ℕ × Mode) :=
  match c.pc with
  | .unlockSlot slot _ => some (lockIndex slot, c.request.mode)
  | .unlockAll i => if i < NUM_LOCKS then some (i, .write) else none
  | _ => none

def Pc.released : Pc → Pc
  | .unlockSlot _ none => .ret
  | .unlockSlot _ (some collision) => .checkResize collision
  | .unlockAll i => .unlockAll (i + 1)
  | pc => pc

variable {T : Type} [DecidableEq T]

namespace System

def goto (s : System T) (t : T) (c : Call) (pc : Pc) : System T :=
  { s with calls := Function.update s.calls t (some { c with pc := pc }) }

def setLock (s : System T) (i : ℕ) (l : Rwlock.Lock T) : System T :=
  { s with rwlSlot := Function.update s.rwlSlot i l }

def advance (s : System T) (t : T) (c : Call) : Option (System T) :=
  match c.pc with
  | .readFlag => some (s.goto t c (if s.undergoingResize then .lockMu else .readSize false))
  | .lockMu => if s.mu = none then some ({ s with mu := some t }.goto t c (.readSize true)) else none
  | .readSize globalLock => do
    let slot ← slotOf s.table c.hcode
    return s.goto t c (.lockSlot slot globalLock)
  | .unlockMu slot => some ({ s with mu := none }.goto t c (.readHead slot))
  | .readHead slot => do
    let curr ← readStore s.table.store slot
    match c.request with
    | .insert _ _ => return s.goto t c (.insertWalk slot curr NULL 0)
    | .lookup _ => return s.goto t c (.lookupWalk slot curr)
  | .insertWalk slot curr prev collision =>
    if curr = NULL then some (s.goto t c (.append slot prev collision))
    else do
      let n ← s.table.nodes curr
      if n.hashcode = c.hcode ∧ n.key.strcmp c.request.key = 0 then
        return s.goto t { c with result := some 1 } (.unlockSlot slot none)
      else do
        let collision ← int (collision + 1)
        return s.goto t c (.insertWalk slot n.next curr collision)
  | .lookupWalk slot curr =>
    if curr = NULL then some (s.goto t { c with result := some NULL } (.unlockSlot slot none))
    else do
      let n ← s.table.nodes curr
      if n.hashcode = c.hcode ∧ n.key.strcmp c.request.key = 0 then
        return s.goto t { c with result := some n.val } (.unlockSlot slot none)
      else return s.goto t c (.lookupWalk slot n.next)
  | .append slot prev collision =>
    match c.request with
    | .insert key val => do
      let table ← s.table.appendNode slot c.hcode key val prev
      return { s with table := table }.goto t { c with result := some 0 }
        (.unlockSlot slot (some collision))
    | .lookup _ => none
  | .checkResize collision =>
    some (s.goto t c
      (if s.table.allowResize ≠ 0 ∧ collision ≥ MAX_COLLISION then .setFlag else .ret))
  | .setFlag => some ({ s with undergoingResize := true }.goto t c .resizeMu)
  | .resizeMu => if s.mu = none then some ({ s with mu := some t }.goto t c .newSize) else none
  | .newSize => do
    let size ← newSize s.table
    return s.goto t c (.lockAll size 0)
  | .lockAll size i => if i < NUM_LOCKS then none else some (s.goto t c (.rehash size))
  | .rehash size => do
    let table ← rehash s.table size
    return { s with table := table }.goto t c (.unlockAll 0)
  | .unlockAll i =>
    if i < NUM_LOCKS then none else some ({ s with mu := none }.goto t c .clearFlag)
  | .clearFlag => some ({ s with undergoingResize := false }.goto t c .ret)
  | .ret => do
    let r ← c.result
    return { s with
      calls := Function.update s.calls t none
      done := s.done ++ [⟨c.request, r, c.started, s.done.length⟩] }
  | .lockSlot _ _ | .unlockSlot _ _ => none

end System

inductive Action
  | run
  | spurious
deriving DecidableEq

/-- A step of thread `t`, or a spurious wake-up of `t`. -/
inductive Step (t : T) : Action → System T → System T → Prop
  | start {s : System T} {r : Request} {rs : List Request} {hcode : ℤ} (hc : s.calls t = none)
      (hr : s.todo t = r :: rs) (hh : hashcode r.key = some hcode) :
      Step t .run s { s with
        calls := Function.update s.calls t (some ⟨r, hcode, s.done.length, none, .readFlag⟩)
        todo := Function.update s.todo t rs }
  | advance {s s' : System T} {c : Call} (hc : s.calls t = some c)
      (h : s.advance t c = some s') : Step t .run s s'
  | acquire {s : System T} {c : Call} {i : ℕ} {mode : Mode} {a : Rwlock.Action}
      {l : Rwlock.Lock T} (hc : s.calls t = some c) (hw : c.wants = some (i, mode))
      (ha : Rwlock.Takes mode a) (h : Rwlock.Step t a (s.rwlSlot i) l) :
      Step t .run s
        ((s.setLock i l).goto t c (if (l.threads t).call = .out then c.pc.acquired else c.pc))
  | release {s : System T} {c : Call} {i : ℕ} {mode : Mode} {l : Rwlock.Lock T}
      (hc : s.calls t = some c) (hl : c.leaves = some (i, mode))
      (h : Rwlock.Step t (Rwlock.release mode) (s.rwlSlot i) l) :
      Step t .run s ((s.setLock i l).goto t c c.pc.released)
  | spurious {s : System T} {i : ℕ} {l : Rwlock.Lock T}
      (h : Rwlock.Step t .spurious (s.rwlSlot i) l) : Step t .spurious s (s.setLock i l)

structure Initial (s : System T) : Prop where
  table : ∃ sz a, 0 ≤ sz ∧ htableInit sz a = some s.table
  undergoingResize : s.undergoingResize = false
  mu : s.mu = none
  rwlSlot : ∀ i, s.rwlSlot i = Rwlock.initial
  calls : ∀ t, s.calls t = none
  todo : ∀ t, ∀ r ∈ s.todo t, r.key.Ascii
  done : s.done = []

abbrev ReachableThreads : System T → Prop :=
  Reachable Initial fun s s' ↦ ∃ t a, Step t a s s'

def Finished (s : System T) (t : T) : Prop := s.calls t = none ∧ s.todo t = []

end CsoLabs.Hashtable.Threads
