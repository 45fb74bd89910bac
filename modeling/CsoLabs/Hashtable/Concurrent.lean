import CsoLabs.Foundation.Holders
import CsoLabs.Hashtable.FiniteMap

namespace CsoLabs.Hashtable

open Foundation CInt

def NUM_LOCKS : ℕ := 10000

inductive Request
  | insert (key : CString) (val : ℕ)
  | lookup (key : CString)
deriving DecidableEq

def Request.key : Request → CString
  | .insert key _ => key
  | .lookup key => key

def Request.mode : Request → Mode
  | .insert _ _ => .write
  | .lookup _ => .read

/-- The next step of a call, with the local variables that the rest of it needs. From
`setFlag` on it is `htable_resize`. -/
inductive Pc
  | readFlag
  | lockMu
  | readSize (globalLock : Bool)
  | lockSlot (slot : ℤ) (globalLock : Bool)
  | unlockMu (slot : ℤ)
  | body (slot : ℤ)
  | unlockSlot (slot : ℤ) (collision : Option ℤ)
  | checkResize (collision : ℤ)
  | setFlag
  | resizeMu
  | newSize
  | lockAll (size : ℤ) (i : ℕ)
  | rehash (size : ℤ)
  | unlockAll (i : ℕ)
  | clearFlag
  | ret
deriving DecidableEq

/-- A call in progress; `before` are the calls that had returned when it started. -/
structure Call where
  request : Request
  hcode : ℤ
  before : List Event
  result : Option Event
  pc : Pc
deriving DecidableEq

structure Completed where
  event : Event
  before : List Event
deriving DecidableEq

structure System (T : Type) where
  table : Htable
  undergoingResize : Bool
  mu : Option T
  rwlSlot : ℕ → Holders T
  calls : T → Option Call
  done : List Completed

def lockIndex (slot : ℤ) : ℕ := (slot.tmod NUM_LOCKS).toNat

theorem lockIndex_lt {slot : ℤ} (h : 0 ≤ slot) : lockIndex slot < NUM_LOCKS := by
  have h₁ := Int.tmod_nonneg (NUM_LOCKS : ℤ) h
  have h₂ := Int.tmod_lt_of_pos slot (show (0 : ℤ) < NUM_LOCKS by decide)
  unfold lockIndex
  omega

variable {T : Type} [DecidableEq T]

namespace System

def goto (s : System T) (t : T) (c : Call) (pc : Pc) : System T :=
  { s with calls := Function.update s.calls t (some { c with pc := pc }) }

def lockMu (s : System T) (t : T) : Option (System T) :=
  if s.mu = none then some { s with mu := some t } else none

def unlockMu (s : System T) : System T := { s with mu := none }

def lockSlot (s : System T) (t : T) (i : ℕ) (mode : Mode) : Option (System T) := do
  let l ← (s.rwlSlot i).acquire t mode
  return { s with rwlSlot := Function.update s.rwlSlot i l }

def unlockSlot (s : System T) (t : T) (i : ℕ) : System T :=
  { s with rwlSlot := Function.update s.rwlSlot i ((s.rwlSlot i).release t) }

/-- What a call does between taking and releasing its slot lock. -/
def body (s : System T) (t : T) (c : Call) (slot : ℤ) : Option (System T) :=
  match c.request with
  | .insert key val => do
    let r ← insertAt s.table slot c.hcode key val
    let e := Event.insert key val (if r.1 = none then 1 else 0)
    return { s with table := r.2 }.goto t { c with result := some e } (.unlockSlot slot r.1)
  | .lookup key => do
    let val ← lookupAt s.table slot c.hcode key
    return s.goto t { c with result := some (.lookup key val) } (.unlockSlot slot none)

def invoke (s : System T) (t : T) (r : Request) : Option (System T) :=
  if s.calls t = none then do
    let hcode ← hashcode r.key
    let c : Call := ⟨r, hcode, s.done.map Completed.event, none, .readFlag⟩
    return { s with calls := Function.update s.calls t (some c) }
  else none

/-- The next step of the call `c` of thread `t`; `none` while it has to wait for a lock. -/
def advance (s : System T) (t : T) (c : Call) : Option (System T) :=
  match c.pc with
  | .readFlag => some (s.goto t c (if s.undergoingResize then .lockMu else .readSize false))
  | .lockMu => do
    let s ← s.lockMu t
    return s.goto t c (.readSize true)
  | .readSize globalLock => do
    let slot ← slotOf s.table c.hcode
    return s.goto t c (.lockSlot slot globalLock)
  | .lockSlot slot globalLock => do
    let s ← s.lockSlot t (lockIndex slot) c.request.mode
    return s.goto t c (if globalLock then .unlockMu slot else .body slot)
  | .unlockMu slot => some (s.unlockMu.goto t c (.body slot))
  | .body slot => s.body t c slot
  | .unlockSlot slot none => some ((s.unlockSlot t (lockIndex slot)).goto t c .ret)
  | .unlockSlot slot (some collision) =>
    some ((s.unlockSlot t (lockIndex slot)).goto t c (.checkResize collision))
  | .checkResize collision =>
    some (s.goto t c
      (if s.table.allowResize ≠ 0 ∧ collision ≥ MAX_COLLISION then .setFlag else .ret))
  | .setFlag => some ({ s with undergoingResize := true }.goto t c .resizeMu)
  | .resizeMu => do
    let s ← s.lockMu t
    return s.goto t c .newSize
  | .newSize => do
    let size ← newSize s.table
    return s.goto t c (.lockAll size 0)
  | .lockAll size i =>
    if i < NUM_LOCKS then do
      let s ← s.lockSlot t i .write
      return s.goto t c (.lockAll size (i + 1))
    else some (s.goto t c (.rehash size))
  | .rehash size => do
    let table ← rehash s.table size
    return { s with table := table }.goto t c (.unlockAll 0)
  | .unlockAll i =>
    if i < NUM_LOCKS then some ((s.unlockSlot t i).goto t c (.unlockAll (i + 1)))
    else some (s.unlockMu.goto t c .clearFlag)
  | .clearFlag => some ({ s with undergoingResize := false }.goto t c .ret)
  | .ret => do
    let e ← c.result
    return { s with
      calls := Function.update s.calls t none
      done := s.done ++ [⟨e, c.before⟩] }

def act (s : System T) (t : T) : Option Request → Option (System T)
  | some r => if r.key.Ascii then s.invoke t r else none
  | none => (s.calls t).bind (s.advance t)

end System

structure Initial (s : System T) : Prop where
  table : ∃ sz a, 1 ≤ sz ∧ a ≠ 0 ∧ htableInit sz a = some s.table
  undergoingResize : s.undergoingResize = false
  mu : s.mu = none
  rwlSlot : ∀ i, s.rwlSlot i = .free
  calls : ∀ t, s.calls t = none
  done : s.done = []

abbrev ReachableSystem : System T → Prop :=
  Reachable Initial fun s s' ↦ ∃ t r, s.act t r = some s'

def Pc.slotToLock : Pc → Option ℤ
  | .lockSlot slot _ => some slot
  | _ => none

/-- If thread `t` is about to take its slot lock, the slot it computed from `ht->size` is
still the one of its key. -/
def FreshSlot (s : System T) (t : T) : Prop :=
  ∀ c ∈ s.calls t, ∀ slot ∈ c.pc.slotToLock, slot = c.hcode.tmod s.table.size

instance (s : System T) (t : T) : Decidable (FreshSlot s t) :=
  inferInstanceAs (Decidable (∀ c ∈ s.calls t, ∀ slot ∈ c.pc.slotToLock,
    slot = c.hcode.tmod s.table.size))

abbrev ReachableFresh : System T → Prop :=
  Reachable Initial fun s s' ↦ ∃ t r, FreshSlot s t ∧ s.act t r = some s'

/-- Nothing is lost, misplaced or stored twice, as far as threads can tell from the results
of their calls and as far as the chains show it. -/
structure Consistent (s : System T) : Prop where
  wellFormed : WellFormed s.table
  lookups : ∀ d ∈ s.done, ∀ key r val, d.event = .lookup key r →
    .insert key val 0 ∈ d.before → r = val
  inserts : ∀ (i j : ℕ) d d' key val val', s.done[i]? = some d → s.done[j]? = some d' →
    d.event = .insert key val 0 → d'.event = .insert key val' 0 → i = j

def exec (P : System T → T → Prop) [∀ s t, Decidable (P s t)] (s : System T) :
    List (T × Option Request) → Option (System T)
  | [] => some s
  | (t, r) :: as => if P s t then (s.act t r).bind fun s ↦ exec P s as else none

variable {s s' : System T} {as : List (T × Option Request)}

theorem exec_reachable {P : System T → T → Prop} [∀ s t, Decidable (P s t)]
    {init : System T → Prop} (h : Reachable init (fun s s' ↦ ∃ t r, P s t ∧ s.act t r = some s') s)
    (he : exec P s as = some s') :
    Reachable init (fun s s' ↦ ∃ t r, P s t ∧ s.act t r = some s') s' := by
  induction as generalizing s with
  | nil => exact Option.some.inj he ▸ h
  | cons a as ih =>
    obtain ⟨t, r⟩ := a
    rw [exec] at he
    split_ifs at he with hP
    obtain ⟨s₁, hs₁, he⟩ := Option.bind_eq_some_iff.mp he
    exact ih (h.next ⟨t, r, hP, hs₁⟩) he

theorem reachableSystem_of_exec (h : ReachableSystem s)
    (he : exec (fun _ _ ↦ True) s as = some s') : ReachableSystem s' :=
  (exec_reachable (h.mono fun _ _ ⟨t, r, hs⟩ ↦ ⟨t, r, trivial, hs⟩) he).mono
    fun _ _ ⟨t, r, _, hs⟩ ↦ ⟨t, r, hs⟩

def keyOf (chars : List Int8) : CString := ⟨chars.filter (· ≠ 0), by simp⟩

def twoThreads : System (Fin 2) :=
  ⟨emptyTable 1, false, none, fun _ ↦ .free, fun _ ↦ none, []⟩

def run (t : Fin 2) (r : Request) (n : ℕ) : List (Fin 2 × Option Request) :=
  (t, some r) :: List.replicate n (t, none)

theorem twoThreads_initial : Initial twoThreads :=
  ⟨⟨1, 1, le_rfl, one_ne_zero, htableInit_one⟩, rfl, rfl, fun _ ↦ rfl, fun _ ↦ rfl, rfl⟩

end CsoLabs.Hashtable
