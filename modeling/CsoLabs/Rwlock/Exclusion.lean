import CsoLabs.Rwlock.Model

namespace CsoLabs.Rwlock

open Foundation
open scoped BigOperators

variable {T : Type*}

structure Woken (s s' : Lock T) : Prop where
  rwl : s'.rwl = s.rwl
  threads : ∀ u, s'.threads u = s.threads u ∨ s'.threads u = (s.threads u).wake

theorem Woken.refl (s : Lock T) : Woken s s := ⟨rfl, fun _ ↦ Or.inl rfl⟩

theorem Woken.broadcast (s : Lock T) : Woken s (broadcastReaders s) := by
  refine ⟨rfl, fun u ↦ ?_⟩
  by_cases h : (s.threads u).call.isRlock
  · exact Or.inr (by simp [broadcastReaders, h])
  · exact Or.inl (by simp [broadcastReaders, h])

structure Tally where
  waitsRead : ℤ
  waitsWrite : ℤ
  writes : ℤ
  reads : ℤ

def Thread.tally (me : Thread) : Tally :=
  ⟨if me.call.isRlock then 1 else 0, if me.call.isWlock then 1 else 0, me.writes, me.reads⟩

theorem Thread.tally_wake (me : Thread) : me.wake.tally = me.tally := by
  rcases me with ⟨_ | ⟨e, _ | _⟩ | ⟨e, _ | _⟩, r, w⟩ <;> rfl

section Signals

variable [DecidableEq T]

@[simp] theorem set_rwl (s : Lock T) (t : T) (p : Rwl × Thread) : (s.set t p).rwl = p.1 := rfl

@[simp] theorem set_threads_self (s : Lock T) (t : T) (p : Rwl × Thread) :
    (s.set t p).threads t = p.2 := by simp [Lock.set]

theorem set_threads_of_ne {t u : T} (s : Lock T) (p : Rwl × Thread) (h : u ≠ t) :
    (s.set t p).threads u = s.threads u := by simp [Lock.set, h]

theorem Woken.wake (s : Lock T) (t : T) : Woken s (s.wake t) := by
  refine ⟨rfl, fun u ↦ ?_⟩
  by_cases h : u = t
  · subst h; exact Or.inr (by simp [Lock.wake])
  · exact Or.inl (by simp [Lock.wake, h])

theorem SignalWriter.woken {s s' : Lock T} (h : SignalWriter s s') : Woken s s' := by
  cases h with
  | wake => exact Woken.wake s _
  | none => exact Woken.refl s

theorem RunlockSignal.woken {s s' : Lock T} (h : RunlockSignal s s') : Woken s s' := by
  unfold RunlockSignal at h
  split_ifs at h
  · exact h.woken
  · exact h ▸ Woken.refl s

theorem WunlockSignal.woken {s s' : Lock T} (h : WunlockSignal s s') : Woken s s' := by
  unfold WunlockSignal at h
  split_ifs at h
  · exact h.woken
  · exact h ▸ Woken.broadcast s
  · exact h ▸ Woken.refl s

end Signals

section Counters

variable [Fintype T]

/-- The counters are exact and a writer excludes everybody else. -/
structure Exact (s : Lock T) : Prop where
  waitingReaders : s.rwl.nWaitingReaders = ∑ t, (s.threads t).tally.waitsRead
  waitingWriters : s.rwl.nWaitingWriters = ∑ t, (s.threads t).tally.waitsWrite
  writers : s.rwl.nWriters = ∑ t, (s.threads t).tally.writes
  readers : s.rwl.nReaders = ∑ t, (s.threads t).tally.reads
  writers_le : s.rwl.nWriters ≤ 1
  exclusive : s.rwl.nWriters = 1 → s.rwl.nReaders = 0

theorem Exact.initial : Exact (initial : Lock T) := by
  constructor <;> simp [Rwlock.initial, rwlInit, Thread.tally, Call.isRlock, Call.isWlock]

theorem Exact.woken {s s' : Lock T} (hs : Exact s) (h : Woken s s') : Exact s' := by
  have ht : ∀ u, (s'.threads u).tally = (s.threads u).tally := by
    intro u
    rcases h.threads u with h | h
    · rw [h]
    · rw [h, Thread.tally_wake]
  obtain ⟨h₁, h₂, h₃, h₄, h₅, h₆⟩ := hs
  constructor <;> simp only [h.rwl, ht] <;> assumption

theorem Exact.reads_le {s : Lock T} (hs : Exact s) (t : T) :
    ((s.threads t).reads : ℤ) ≤ s.rwl.nReaders := by
  rw [hs.readers]
  exact Finset.single_le_sum (f := fun u ↦ (s.threads u).tally.reads)
    (fun u _ ↦ Int.natCast_nonneg _) (Finset.mem_univ t)

theorem Exact.writes_le {s : Lock T} (hs : Exact s) (t : T) :
    ((s.threads t).writes : ℤ) ≤ s.rwl.nWriters := by
  rw [hs.writers]
  exact Finset.single_le_sum (f := fun u ↦ (s.threads u).tally.writes)
    (fun u _ ↦ Int.natCast_nonneg _) (Finset.mem_univ t)

theorem Exact.nonneg {s : Lock T} (hs : Exact s) :
    0 ≤ s.rwl.nWaitingReaders ∧ 0 ≤ s.rwl.nWaitingWriters ∧
      0 ≤ s.rwl.nWriters ∧ 0 ≤ s.rwl.nReaders := by
  rw [hs.waitingReaders, hs.waitingWriters, hs.writers, hs.readers]
  refine ⟨?_, ?_, ?_, ?_⟩ <;> refine Finset.sum_nonneg (fun u _ ↦ ?_)
  · simp only [Thread.tally]; split_ifs <;> decide
  · simp only [Thread.tally]; split_ifs <;> decide
  · exact Int.natCast_nonneg _
  · exact Int.natCast_nonneg _

variable [DecidableEq T]

theorem sum_set (s : Lock T) (t : T) (p : Rwl × Thread) (f : Tally → ℤ) :
    ∑ u, f ((s.set t p).threads u).tally =
      (∑ u, f (s.threads u).tally) + (f p.2.tally - f (s.threads t).tally) := by
  rw [← Finset.add_sum_erase _ _ (Finset.mem_univ t),
    ← Finset.add_sum_erase _ (fun u ↦ f (s.threads u).tally) (Finset.mem_univ t), set_threads_self]
  have h : ∀ u ∈ Finset.univ.erase t,
      f ((s.set t p).threads u).tally = f (s.threads u).tally :=
    fun u hu ↦ by rw [set_threads_of_ne s p (Finset.ne_of_mem_erase hu)]
  rw [Finset.sum_congr rfl h]
  ring

theorem Exact.set {s : Lock T} (hs : Exact s) {t : T} {p : Rwl × Thread}
    (hwr : p.1.nWaitingReaders = s.rwl.nWaitingReaders +
      (p.2.tally.waitsRead - (s.threads t).tally.waitsRead))
    (hww : p.1.nWaitingWriters = s.rwl.nWaitingWriters +
      (p.2.tally.waitsWrite - (s.threads t).tally.waitsWrite))
    (hw : p.1.nWriters = s.rwl.nWriters + (p.2.tally.writes - (s.threads t).tally.writes))
    (hr : p.1.nReaders = s.rwl.nReaders + (p.2.tally.reads - (s.threads t).tally.reads))
    (hle : p.1.nWriters ≤ 1) (hex : p.1.nWriters = 1 → p.1.nReaders = 0) : Exact (s.set t p) where
  waitingReaders := by rw [sum_set s t p Tally.waitsRead, ← hs.waitingReaders]; exact hwr
  waitingWriters := by rw [sum_set s t p Tally.waitsWrite, ← hs.waitingWriters]; exact hww
  writers := by rw [sum_set s t p Tally.writes, ← hs.writers]; exact hw
  readers := by rw [sum_set s t p Tally.reads, ← hs.readers]; exact hr
  writers_le := hle
  exclusive := hex

theorem Exact.rlockLoop {s : Lock T} (hs : Exact s) {t : T} {e : Bool} {l : Rwl}
    (hl : l = { s.rwl with
      nWaitingReaders := s.rwl.nWaitingReaders + (1 - (s.threads t).tally.waitsRead) })
    (hc : (s.threads t).tally.waitsWrite = 0) : Exact (s.set t (rlockLoop e l (s.threads t))) := by
  have hle := hs.writers_le
  have hex := hs.exclusive
  subst hl
  unfold Rwlock.rlockLoop
  split_ifs with hb
  · apply hs.set <;> simp_all [Thread.tally, Call.isRlock, Call.isWlock]
  · apply hs.set <;> simp only [Thread.tally, Call.isRlock, Call.isWlock] at *
    all_goals simp_all
    ring

theorem Exact.wlockLoop {s : Lock T} (hs : Exact s) {t : T} {e : Bool} {l : Rwl}
    (hl : l = { s.rwl with
      nWaitingWriters := s.rwl.nWaitingWriters + (1 - (s.threads t).tally.waitsWrite) })
    (hc : (s.threads t).tally.waitsRead = 0) : Exact (s.set t (wlockLoop e l (s.threads t))) := by
  have hle := hs.writers_le
  have hex := hs.exclusive
  subst hl
  unfold Rwlock.wlockLoop
  split_ifs with hb
  · apply hs.set <;> simp_all [Thread.tally, Call.isRlock, Call.isWlock]
  · apply hs.set <;> simp only [Thread.tally, Call.isRlock, Call.isWlock] at *
    all_goals simp_all
    ring

theorem Exact.step {s s' : Lock T} {t : T} {a : Action} (hs : Exact s) (h : Step t a s s') :
    Exact s' := by
  have hle := hs.writers_le
  have hex := hs.exclusive
  cases h with
  | rlock h | rlockWake h =>
    exact hs.rlockLoop (by simp [Thread.tally, h, Call.isRlock])
      (by simp [Thread.tally, h, Call.isWlock])
  | rlockTimeout h =>
    apply hs.set <;> simp_all [Rwlock.rlockTimeout, Thread.tally, Call.isRlock, Call.isWlock]
    ring
  | runlock h hold hw =>
    have hr := hs.reads_le t
    refine Exact.woken (hs.set ?_ ?_ ?_ ?_ ?_ ?_) hw.woken
    · simp [runlockCount, Thread.tally, h, Call.isRlock, Call.isWlock]
    · simp [runlockCount, Thread.tally, h, Call.isRlock, Call.isWlock]
    all_goals
      simp only [runlockCount, Thread.tally, Nat.cast_pred hold]
      omega
  | wlock h | wlockWake h =>
    exact hs.wlockLoop (by simp [Thread.tally, h, Call.isWlock])
      (by simp [Thread.tally, h, Call.isRlock])
  | wlockTimeout h =>
    apply hs.set <;> simp_all [Rwlock.wlockTimeout, Thread.tally, Call.isRlock, Call.isWlock]
    ring
  | wunlock h hold hw =>
    have hr := hs.writes_le t
    refine Exact.woken (hs.set ?_ ?_ ?_ ?_ ?_ ?_) hw.woken
    · simp [wunlockCount, Thread.tally, h, Call.isRlock, Call.isWlock]
    · simp [wunlockCount, Thread.tally, h, Call.isRlock, Call.isWlock]
    all_goals
      simp only [wunlockCount, Thread.tally, Nat.cast_pred hold]
      omega
  | spurious h => exact hs.woken (Woken.wake s t)

theorem exact_of_reachable {s : Lock T} (h : ReachableLock s) : Exact s :=
  h.invariant (fun _ h ↦ h ▸ Exact.initial) (fun _ _ hs ⟨_, _, h⟩ ↦ hs.step h)

/-- In every reachable state the counters are exact and a writer excludes all others. The
readers' counter counts read holds, which is the number of holding threads when no thread
has taken the read mode twice. -/
theorem counters_exact {s : Lock T} (h : ReachableLock s) :
    s.rwl.nWriters = (Finset.univ.filter fun t ↦ 0 < (s.threads t).writes).card ∧
    s.rwl.nReaders = ∑ t, (s.threads t).reads ∧
    ((∀ t, (s.threads t).reads ≤ 1) →
      s.rwl.nReaders = (Finset.univ.filter fun t ↦ 0 < (s.threads t).reads).card) ∧
    s.rwl.nWaitingReaders = (Finset.univ.filter fun t ↦ (s.threads t).call.isRlock).card ∧
    s.rwl.nWaitingWriters = (Finset.univ.filter fun t ↦ (s.threads t).call.isWlock).card ∧
    s.rwl.nWriters ≤ 1 ∧ (s.rwl.nWriters = 1 → s.rwl.nReaders = 0) := by
  have hs := exact_of_reachable h
  have card_eq : ∀ f : T → ℕ, (∀ t, f t ≤ 1) →
      ((∑ t, f t : ℕ) : ℤ) = (Finset.univ.filter fun t ↦ 0 < f t).card := by
    intro f hf
    rw [Finset.card_filter]
    congr 1
    refine Finset.sum_congr rfl (fun t _ ↦ ?_)
    have := hf t
    split_ifs <;> omega
  refine ⟨?_, ?_, fun hr ↦ ?_, ?_, ?_, hs.writers_le, hs.exclusive⟩
  · have hw : ∀ t, (s.threads t).writes ≤ 1 := fun t ↦ by
      have := hs.writes_le t
      have := hs.writers_le
      omega
    rw [← card_eq _ hw, hs.writers]
    push_cast
    rfl
  · rw [hs.readers]
    push_cast
    rfl
  · rw [← card_eq _ hr, hs.readers]
    push_cast
    rfl
  · rw [hs.waitingReaders, Finset.card_filter]
    push_cast
    rfl
  · rw [hs.waitingWriters, Finset.card_filter]
    push_cast
    rfl

def twoReaders : Lock (Fin 3) :=
  let s₁ : Lock (Fin 3) := Lock.set initial 0 (rwlRlock false rwlInit ⟨.out, 0, 0⟩)
  let s₂ : Lock (Fin 3) := s₁.set 1 (rwlRlock true s₁.rwl (s₁.threads 1))
  s₂.set 2 (rwlWlock true s₂.rwl (s₂.threads 2))

theorem reachable_twoReaders : ReachableLock twoReaders := by
  have h₁ : ReachableLock (Lock.set initial (0 : Fin 3) (rwlRlock false rwlInit ⟨.out, 0, 0⟩)) :=
    .next (.start rfl) ⟨0, _, .rlock (e := false) rfl⟩
  have h₂ := h₁.next ⟨1, _, .rlock (e := true) rfl⟩
  exact h₂.next ⟨2, _, .wlock (e := true) rfl⟩

theorem counters_exact_two_readers :
    twoReaders.rwl.nReaders = 2 ∧ twoReaders.rwl.nWaitingWriters = 1 ∧
    twoReaders.rwl.nReaders = (Finset.univ.filter fun t ↦ 0 < (twoReaders.threads t).reads).card ∧
    twoReaders.rwl.nWaitingWriters =
      (Finset.univ.filter fun t ↦ (twoReaders.threads t).call.isWlock).card := by
  obtain ⟨-, -, hreaders, -, hwriters, -, -⟩ := counters_exact reachable_twoReaders
  exact ⟨by decide, by decide, hreaders (by decide), hwriters⟩

/-- `rwl_nwaiters` counts the threads that wait, and none that has the lock. -/
theorem rwlNwaiters_eq {s : Lock T} (h : ReachableLock s) :
    rwlNwaiters s.rwl = (Finset.univ.filter fun t ↦ (s.threads t).call ≠ .out).card := by
  have hs := exact_of_reachable h
  rw [rwlNwaiters, hs.waitingReaders, hs.waitingWriters, ← Finset.sum_add_distrib,
    Finset.card_filter]
  push_cast
  refine Finset.sum_congr rfl fun t _ ↦ ?_
  simp only [Thread.tally]
  cases (s.threads t).call <;> rfl

theorem nested_read_counts_twice :
    ¬ ∀ s : Lock (Fin 1), ReachableLock s →
      s.rwl.nReaders = (Finset.univ.filter fun t ↦ 0 < (s.threads t).reads).card := by
  intro h
  let s₁ : Lock (Fin 1) := Lock.set initial 0 (rwlRlock false rwlInit ⟨.out, 0, 0⟩)
  let s₂ : Lock (Fin 1) := s₁.set 0 (rwlRlock true s₁.rwl (s₁.threads 0))
  have r₁ : ReachableLock s₁ := .next (.start rfl) ⟨0, _, .rlock (e := false) rfl⟩
  have r₂ : ReachableLock s₂ := .next r₁ ⟨0, _, .rlock (e := true) rfl⟩
  have h₂ := h s₂ r₂
  exact absurd h₂ (by decide)

end Counters

end CsoLabs.Rwlock
