import CsoLabs.Foundation.Transition

namespace CsoLabs.Rwlock

structure Rwl where
  nWaitingReaders : ℤ
  nWaitingWriters : ℤ
  nWriters : ℤ
  nReaders : ℤ
deriving DecidableEq

def rwlInit : Rwl := ⟨0, 0, 0, 0⟩

def rwlNwaiters (l : Rwl) : ℤ := l.nWaitingReaders + l.nWaitingWriters

/-- A thread blocked in `cond_timedwait` sleeps until it is signalled, woken by a
broadcast or woken spuriously. -/
inductive Wake
  | asleep
  | woken
deriving DecidableEq

/-- Where a thread stands with the lock; `expire` says whether the wait is timed. -/
inductive Call
  | out
  | rlock (expire : Bool) (wake : Wake)
  | wlock (expire : Bool) (wake : Wake)
deriving DecidableEq

def Call.isRlock : Call → Bool
  | .rlock _ _ => true
  | _ => false

def Call.isWlock : Call → Bool
  | .wlock _ _ => true
  | _ => false

def Call.isAsleep : Call → Bool
  | .rlock _ .asleep => true
  | .wlock _ .asleep => true
  | _ => false

def Call.wake : Call → Call
  | .rlock e .asleep => .rlock e .woken
  | .wlock e .asleep => .wlock e .woken
  | c => c

/-- A thread's call and the modes it holds; a thread may take the read mode again. -/
structure Thread where
  call : Call
  reads : ℕ
  writes : ℕ
deriving DecidableEq

def Thread.wake (me : Thread) : Thread := { me with call := me.call.wake }

/-- The loop of `rwl_rlock`, entered with `n_waiting_readers` already counting the caller. -/
def rlockLoop (expire : Bool) (l : Rwl) (me : Thread) : Rwl × Thread :=
  if l.nWriters ≠ 0 ∨ l.nWaitingWriters ≠ 0 then (l, { me with call := .rlock expire .asleep })
  else ({ l with nWaitingReaders := l.nWaitingReaders - 1, nReaders := l.nReaders + 1 },
    { me with call := .out, reads := me.reads + 1 })

def rwlRlock (expire : Bool) (l : Rwl) (me : Thread) : Rwl × Thread :=
  rlockLoop expire { l with nWaitingReaders := l.nWaitingReaders + 1 } me

def rlockTimeout (l : Rwl) (me : Thread) : Rwl × Thread :=
  ({ l with nWaitingReaders := l.nWaitingReaders - 1 }, { me with call := .out })

def wlockLoop (expire : Bool) (l : Rwl) (me : Thread) : Rwl × Thread :=
  if l.nWriters ≠ 0 ∨ l.nReaders ≠ 0 then (l, { me with call := .wlock expire .asleep })
  else ({ l with nWaitingWriters := l.nWaitingWriters - 1, nWriters := l.nWriters + 1 },
    { me with call := .out, writes := me.writes + 1 })

def rwlWlock (expire : Bool) (l : Rwl) (me : Thread) : Rwl × Thread :=
  wlockLoop expire { l with nWaitingWriters := l.nWaitingWriters + 1 } me

/-- The `ETIMEDOUT` exit of `rwl_wlock`, which wakes nobody. -/
def wlockTimeout (l : Rwl) (me : Thread) : Rwl × Thread :=
  ({ l with nWaitingWriters := l.nWaitingWriters - 1 }, { me with call := .out })

def runlockCount (l : Rwl) (me : Thread) : Rwl × Thread :=
  ({ l with nReaders := l.nReaders - 1 }, { me with reads := me.reads - 1 })

def wunlockCount (l : Rwl) (me : Thread) : Rwl × Thread :=
  ({ l with nWriters := l.nWriters - 1 }, { me with writes := me.writes - 1 })

variable {T : Type*} [DecidableEq T]

structure Lock (T : Type*) where
  rwl : Rwl
  threads : T → Thread

def initial : Lock T := ⟨rwlInit, fun _ ↦ ⟨.out, 0, 0⟩⟩

def Lock.set (s : Lock T) (t : T) (p : Rwl × Thread) : Lock T :=
  ⟨p.1, Function.update s.threads t p.2⟩

def Lock.wake (s : Lock T) (t : T) : Lock T :=
  ⟨s.rwl, Function.update s.threads t (s.threads t).wake⟩

/-- `pthread_cond_signal(&l->writer_cond)` wakes one sleeping writer, if there is one. -/
inductive SignalWriter (s : Lock T) : Lock T → Prop
  | wake {u : T} {e : Bool} (h : (s.threads u).call = .wlock e .asleep) : SignalWriter s (s.wake u)
  | none (h : ∀ u e, (s.threads u).call ≠ .wlock e .asleep) : SignalWriter s s

def broadcastReaders (s : Lock T) : Lock T :=
  ⟨s.rwl, fun u ↦ if (s.threads u).call.isRlock then (s.threads u).wake else s.threads u⟩

def RunlockSignal (s s' : Lock T) : Prop :=
  if s.rwl.nWaitingWriters ≠ 0 then SignalWriter s s' else s' = s

def WunlockSignal (s s' : Lock T) : Prop :=
  if s.rwl.nWaitingWriters ≠ 0 then SignalWriter s s'
  else if s.rwl.nWaitingReaders ≠ 0 then s' = broadcastReaders s
  else s' = s

inductive Action
  | rlock (expire : Bool)
  | rlockWake
  | rlockTimeout
  | runlock
  | wlock (expire : Bool)
  | wlockWake
  | wlockTimeout
  | wunlock
  | spurious
deriving DecidableEq

/-- One section of code between taking and releasing `l->mu`, run by thread `t`, or a
spurious wake-up of `t`. A timed wait may give `ETIMEDOUT` at any time. -/
inductive Step (t : T) : Action → Lock T → Lock T → Prop
  | rlock {s : Lock T} {e : Bool} (h : (s.threads t).call = .out) :
      Step t (.rlock e) s (s.set t (rwlRlock e s.rwl (s.threads t)))
  | rlockWake {s : Lock T} {e : Bool} (h : (s.threads t).call = .rlock e .woken) :
      Step t .rlockWake s (s.set t (rlockLoop e s.rwl (s.threads t)))
  | rlockTimeout {s : Lock T} {w : Wake} (h : (s.threads t).call = .rlock true w) :
      Step t .rlockTimeout s (s.set t (rlockTimeout s.rwl (s.threads t)))
  | runlock {s s' : Lock T} (h : (s.threads t).call = .out) (hold : 0 < (s.threads t).reads)
      (hs : RunlockSignal (s.set t (runlockCount s.rwl (s.threads t))) s') :
      Step t .runlock s s'
  | wlock {s : Lock T} {e : Bool} (h : (s.threads t).call = .out) :
      Step t (.wlock e) s (s.set t (rwlWlock e s.rwl (s.threads t)))
  | wlockWake {s : Lock T} {e : Bool} (h : (s.threads t).call = .wlock e .woken) :
      Step t .wlockWake s (s.set t (wlockLoop e s.rwl (s.threads t)))
  | wlockTimeout {s : Lock T} {w : Wake} (h : (s.threads t).call = .wlock true w) :
      Step t .wlockTimeout s (s.set t (wlockTimeout s.rwl (s.threads t)))
  | wunlock {s s' : Lock T} (h : (s.threads t).call = .out) (hold : 0 < (s.threads t).writes)
      (hs : WunlockSignal (s.set t (wunlockCount s.rwl (s.threads t))) s') :
      Step t .wunlock s s'
  | spurious {s : Lock T} (h : (s.threads t).call.isAsleep) : Step t .spurious s (s.wake t)

abbrev ReachableLock (s : Lock T) : Prop :=
  Foundation.Reachable (· = initial) (fun s s' ↦ ∃ t a, Step t a s s') s

end CsoLabs.Rwlock
