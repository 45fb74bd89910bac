import CsoLabs.Rwlock.Exclusion

namespace CsoLabs.Rwlock

open Foundation
open scoped BigOperators

variable {T : Type*}

def ReaderAsleep (s : Lock T) (t : T) : Prop := ∃ e, (s.threads t).call = .rlock e .asleep

def WriterAsleep (s : Lock T) (t : T) : Prop := ∃ e, (s.threads t).call = .wlock e .asleep

def WriterWoken (s : Lock T) (t : T) : Prop := ∃ e, (s.threads t).call = .wlock e .woken

def Held (s : Lock T) : Prop := ∃ t, 0 < (s.threads t).reads ∨ 0 < (s.threads t).writes

/-- Nobody sleeps on a lock that it could take while no one is left to wake it. -/
structure NotStranded (s : Lock T) : Prop where
  reader : ∀ t, ReaderAsleep s t → 0 < s.rwl.nWriters ∨ 0 < s.rwl.nWaitingWriters
  writer : ∀ t, WriterAsleep s t → Held s ∨ ∃ u, WriterWoken s u

/-- The `ETIMEDOUT` exit of `rwl_wlock` passes no wake-up on. It does no harm unless it is
taken by the last waiting writer while readers sleep behind it and no writer holds the
lock, or by a writer that has consumed the only signal for the writers still asleep. -/
def Careful (s : Lock T) (t : T) (a : Action) : Prop :=
  a = .wlockTimeout →
    ¬ (s.rwl.nWriters = 0 ∧ s.rwl.nWaitingWriters = 1 ∧ ∃ u, ReaderAsleep s u) ∧
    ¬ (WriterWoken s t ∧ ¬ Held s ∧ (∃ u, WriterAsleep s u) ∧ ∀ u, WriterWoken s u → u = t)

theorem ReaderAsleep.isRlock {s : Lock T} {t : T} (h : ReaderAsleep s t) :
    (s.threads t).call.isRlock := by
  obtain ⟨e, he⟩ := h; rw [he]; rfl

theorem WriterAsleep.isWlock {s : Lock T} {t : T} (h : WriterAsleep s t) :
    (s.threads t).call.isWlock := by
  obtain ⟨e, he⟩ := h; rw [he]; rfl

theorem WriterWoken.isWlock {s : Lock T} {t : T} (h : WriterWoken s t) :
    (s.threads t).call.isWlock := by
  obtain ⟨e, he⟩ := h; rw [he]; rfl

theorem Call.isAsleep_wake (c : Call) : c.wake.isAsleep = false := by
  rcases c with _ | ⟨e, _ | _⟩ | ⟨e, _ | _⟩ <;> rfl

theorem Woken.asleep_eq {s s' : Lock T} (h : Woken s s') {t : T}
    (ht : (s'.threads t).call.isAsleep) : s'.threads t = s.threads t := by
  rcases h.threads t with hu | hu
  · exact hu
  · rw [hu, Thread.wake, Call.isAsleep_wake] at ht
    cases ht

theorem Woken.readerAsleep {s s' : Lock T} (h : Woken s s') {t : T} (ht : ReaderAsleep s' t) :
    ReaderAsleep s t := by
  obtain ⟨e, he⟩ := ht
  exact ⟨e, by rw [← h.asleep_eq (by rw [he]; rfl), he]⟩

theorem Woken.writerAsleep {s s' : Lock T} (h : Woken s s') {t : T} (ht : WriterAsleep s' t) :
    WriterAsleep s t := by
  obtain ⟨e, he⟩ := ht
  exact ⟨e, by rw [← h.asleep_eq (by rw [he]; rfl), he]⟩

theorem Woken.writerWoken {s s' : Lock T} (h : Woken s s') {t : T} (ht : WriterWoken s t) :
    WriterWoken s' t := by
  obtain ⟨e, he⟩ := ht
  rcases h.threads t with hu | hu
  · exact ⟨e, hu ▸ he⟩
  · exact ⟨e, by simp [hu, Thread.wake, he, Call.wake]⟩

theorem broadcast_readerAwake (s : Lock T) (t : T) : ¬ ReaderAsleep (broadcastReaders s) t := by
  intro ht
  have hr := ((Woken.broadcast s).readerAsleep ht).isRlock
  obtain ⟨e, he⟩ := ht
  have hw := Call.isAsleep_wake (s.threads t).call
  simp only [broadcastReaders, hr, if_true, Thread.wake] at he
  rw [he] at hw
  cases hw

/-- `NotStranded` in terms of the counters, as the step lemmas keep it. -/
structure Served (s : Lock T) : Prop where
  reader : ∀ t, ReaderAsleep s t → 0 < s.rwl.nWriters ∨ 0 < s.rwl.nWaitingWriters
  writer : ∀ t, WriterAsleep s t →
    0 < s.rwl.nWriters ∨ 0 < s.rwl.nReaders ∨ ∃ u, WriterWoken s u

theorem Served.initial : Served (initial : Lock T) where
  reader t ht := by obtain ⟨e, he⟩ := ht; cases he
  writer t ht := by obtain ⟨e, he⟩ := ht; cases he

theorem SignalWriter.writerWoken [DecidableEq T] {s s' : Lock T} (h : SignalWriter s s') {t : T}
    (ht : WriterAsleep s' t) : ∃ u, WriterWoken s' u := by
  cases h with
  | @wake u e hu => exact ⟨u, e, by simp [Lock.wake, Thread.wake, hu, Call.wake]⟩
  | none h =>
    obtain ⟨e, he⟩ := ht
    exact absurd he (h t e)

theorem timeout_asleep [DecidableEq T] {s : Lock T} {t u : T} {p : Rwl × Thread}
    (hp : p.2.call = .out) :
    (ReaderAsleep (s.set t p) u → u ≠ t ∧ ReaderAsleep s u) ∧
      (WriterAsleep (s.set t p) u → u ≠ t ∧ WriterAsleep s u) := by
  constructor <;>
  · rintro ⟨e, he⟩
    by_cases hut : u = t
    · subst hut
      simp [hp] at he
    · exact ⟨hut, e, by rw [← set_threads_of_ne s p hut, he]⟩

theorem WriterWoken.set [DecidableEq T] {s : Lock T} {t u : T} (h : WriterWoken s u) (hne : u ≠ t)
    (p : Rwl × Thread) : WriterWoken (s.set t p) u := by
  obtain ⟨e, he⟩ := h
  exact ⟨e, by rw [set_threads_of_ne _ _ hne, he]⟩

theorem Served.rlockTimeout [DecidableEq T] {s : Lock T} (hs : Served s) {t : T}
    (ht : (s.threads t).call.isRlock) :
    Served (s.set t (rlockTimeout s.rwl (s.threads t))) := by
  constructor
  · intro u hu
    exact hs.reader u ((timeout_asleep rfl).1 hu).2
  · intro u hu
    rcases hs.writer u ((timeout_asleep rfl).2 hu).2 with h | h | ⟨v, hv⟩
    · exact Or.inl h
    · exact Or.inr (Or.inl h)
    · refine Or.inr (Or.inr ⟨v, hv.set ?_ _⟩)
      rintro rfl
      obtain ⟨e, he⟩ := hv
      rw [he] at ht
      cases ht

section Fintype

variable [Fintype T]

theorem Exact.waitsRead_pos {s : Lock T} (hs : Exact s) {t : T}
    (ht : (s.threads t).call.isRlock) : 0 < s.rwl.nWaitingReaders := by
  have h := Finset.single_le_sum (f := fun u ↦ (s.threads u).tally.waitsRead)
    (fun u _ ↦ by simp only [Thread.tally]; split_ifs <;> decide) (Finset.mem_univ t)
  rw [← hs.waitingReaders] at h
  simp only [Thread.tally, ht, if_true] at h
  omega

theorem Exact.waitsWrite_pos {s : Lock T} (hs : Exact s) {t : T}
    (ht : (s.threads t).call.isWlock) : 0 < s.rwl.nWaitingWriters := by
  have h := Finset.single_le_sum (f := fun u ↦ (s.threads u).tally.waitsWrite)
    (fun u _ ↦ by simp only [Thread.tally]; split_ifs <;> decide) (Finset.mem_univ t)
  rw [← hs.waitingWriters] at h
  simp only [Thread.tally, ht, if_true] at h
  omega

theorem Exact.held_iff {s : Lock T} (hs : Exact s) :
    Held s ↔ 0 < s.rwl.nWriters ∨ 0 < s.rwl.nReaders := by
  constructor
  · rintro ⟨t, ht | ht⟩
    · exact Or.inr (by have := hs.reads_le t; omega)
    · exact Or.inl (by have := hs.writes_le t; omega)
  · intro h
    by_contra hno
    have hz : ∀ t, (s.threads t).reads = 0 ∧ (s.threads t).writes = 0 := fun t ↦ by
      by_contra hne
      exact hno ⟨t, by omega⟩
    rw [hs.writers, hs.readers] at h
    simp [Thread.tally, hz] at h

theorem Served.notStranded {s : Lock T} (hs : Exact s) (h : Served s) : NotStranded s where
  reader := h.reader
  writer t ht := by
    rw [hs.held_iff, or_assoc]
    exact h.writer t ht

variable [DecidableEq T]

theorem Served.rlockLoop {s : Lock T} (hs : Served s) (hx : Exact s) {t : T} {e : Bool} {l : Rwl}
    (hw : l.nWriters = s.rwl.nWriters) (hr : l.nReaders = s.rwl.nReaders)
    (hww : l.nWaitingWriters = s.rwl.nWaitingWriters)
    (hc : (s.threads t).call.isWlock = false) : Served (s.set t (rlockLoop e l (s.threads t))) := by
  have hn := hx.nonneg
  have hne : ∀ u, WriterWoken s u → u ≠ t := by
    rintro u hu rfl
    rw [hu.isWlock] at hc
    cases hc
  unfold Rwlock.rlockLoop
  split_ifs with hb
  · constructor
    · intro u _
      simp only [set_rwl]
      omega
    · rintro u ⟨e', hu⟩
      by_cases hut : u = t
      · subst hut
        simp at hu
      · rw [set_threads_of_ne _ _ hut] at hu
        rcases hs.writer u ⟨e', hu⟩ with h | h | ⟨v, ev, hv⟩
        · exact Or.inl (hw ▸ h)
        · exact Or.inr (Or.inl (hr ▸ h))
        · exact Or.inr (Or.inr ⟨v, ev, by rw [set_threads_of_ne _ _ (hne v ⟨ev, hv⟩), hv]⟩)
  · constructor
    · rintro u ⟨e', hu⟩
      by_cases hut : u = t
      · subst hut
        simp at hu
      · rw [set_threads_of_ne _ _ hut] at hu
        have := hs.reader u ⟨e', hu⟩
        omega
    · intro u _
      simp only [set_rwl]
      omega

theorem Served.wlockLoop {s : Lock T} (hx : Exact s) {t : T} {e : Bool} {l : Rwl}
    (hw : l.nWriters = s.rwl.nWriters) (hr : l.nReaders = s.rwl.nReaders)
    (hww : 0 < l.nWaitingWriters) : Served (s.set t (wlockLoop e l (s.threads t))) := by
  have hn := hx.nonneg
  unfold Rwlock.wlockLoop
  split_ifs with hb
  · exact ⟨fun u _ ↦ Or.inr hww, fun u _ ↦ by simp only [set_rwl]; omega⟩
  · exact ⟨fun u _ ↦ by simp only [set_rwl]; omega, fun u _ ↦ by simp only [set_rwl]; omega⟩

theorem Served.runlock {s s' : Lock T} (hx : Exact s') (h : RunlockSignal s s')
    (hr : ∀ t, ReaderAsleep s t → 0 < s.rwl.nWriters ∨ 0 < s.rwl.nWaitingWriters) : Served s' := by
  have hw := h.woken
  constructor
  · intro t ht
    rw [hw.rwl]
    exact hr t (hw.readerAsleep ht)
  · intro t ht
    have hpos := hx.waitsWrite_pos ht.isWlock
    rw [hw.rwl] at hpos
    rw [RunlockSignal, if_pos (by omega)] at h
    exact Or.inr (Or.inr (h.writerWoken ht))

theorem Served.wunlock {s s' : Lock T} (hx : Exact s') (h : WunlockSignal s s') : Served s' := by
  have hw := h.woken
  constructor
  · intro t ht
    have hpos := hx.waitsRead_pos ht.isRlock
    have hn := hx.nonneg
    rw [hw.rwl] at hpos hn ⊢
    by_cases hz : s.rwl.nWaitingWriters = 0
    · rw [WunlockSignal, if_neg (by omega), if_pos (by omega)] at h
      subst h
      exact absurd ht (broadcast_readerAwake s t)
    · omega
  · intro t ht
    have hpos := hx.waitsWrite_pos ht.isWlock
    rw [hw.rwl] at hpos
    rw [WunlockSignal, if_pos (by omega)] at h
    exact Or.inr (Or.inr (h.writerWoken ht))

theorem Served.wlockTimeout {s : Lock T} (hs : Served s) (hx : Exact s) {t : T}
    (ht : (s.threads t).call.isWlock) (hcare : Careful s t .wlockTimeout) :
    Served (s.set t (wlockTimeout s.rwl (s.threads t))) := by
  obtain ⟨hc, hc'⟩ := hcare rfl
  have hn := hx.nonneg
  have hpos := hx.waitsWrite_pos ht
  constructor
  · intro u hu
    have hno : ¬ (s.rwl.nWriters = 0 ∧ s.rwl.nWaitingWriters = 1) := fun h ↦
      hc ⟨h.1, h.2, u, ((timeout_asleep rfl).1 hu).2⟩
    simp only [set_rwl, Rwlock.wlockTimeout]
    omega
  · intro u hu
    have hu' := ((timeout_asleep rfl).2 hu).2
    by_cases hh : Held s
    · rcases hx.held_iff.mp hh with h | h
      · exact Or.inl h
      · exact Or.inr (Or.inl h)
    · -- nobody holds the lock, so a woken writer exists; the condition gives one besides `t`
      have hnh := mt hx.held_iff.mpr hh
      obtain ⟨v, hv⟩ : ∃ v, WriterWoken s v := by
        rcases hs.writer u hu' with h | h | h
        · exact absurd (Or.inl h) hnh
        · exact absurd (Or.inr h) hnh
        · exact h
      by_cases hvt : v = t
      · subst hvt
        have hex : ∃ w, WriterWoken s w ∧ w ≠ v := by
          by_contra hall
          refine hc' ⟨hv, hh, ⟨u, hu'⟩, fun w hw ↦ ?_⟩
          by_contra hwv
          exact hall ⟨w, hw, hwv⟩
        obtain ⟨w, hw, hwv⟩ := hex
        exact Or.inr (Or.inr ⟨w, hw.set hwv _⟩)
      · exact Or.inr (Or.inr ⟨v, hv.set hvt _⟩)

theorem Served.step {s s' : Lock T} {t : T} {a : Action} (hs : Served s) (hx : Exact s)
    (h : Step t a s s') (hcare : Careful s t a) : Served s' := by
  have hx' := hx.step h
  cases h with
  | rlock h | rlockWake h => exact hs.rlockLoop hx rfl rfl rfl (by rw [h]; rfl)
  | rlockTimeout h => exact hs.rlockTimeout (by rw [h]; rfl)
  | runlock h hold hw => exact Served.runlock hx' hw (fun u hu ↦ by
      by_cases hut : u = t
      · subst hut
        obtain ⟨e, he⟩ := hu
        simp [runlockCount, h] at he
      · obtain ⟨e, he⟩ := hu
        rw [set_threads_of_ne _ _ hut] at he
        exact hs.reader u ⟨e, he⟩)
  | wlock h =>
    have := hx.nonneg
    exact Served.wlockLoop hx rfl rfl (by dsimp only; omega)
  | wlockWake h => exact Served.wlockLoop hx rfl rfl (hx.waitsWrite_pos (by rw [h]; rfl))
  | wlockTimeout h => exact hs.wlockTimeout hx (by rw [h]; rfl) hcare
  | wunlock h hold hw => exact Served.wunlock hx' hw
  | spurious h =>
    have hw := Woken.wake s t
    refine ⟨fun u hu ↦ hs.reader u (hw.readerAsleep hu), fun u hu ↦ ?_⟩
    rcases hs.writer u (hw.writerAsleep hu) with h | h | ⟨v, hv⟩
    · exact Or.inl h
    · exact Or.inr (Or.inl h)
    · exact Or.inr (Or.inr ⟨v, hw.writerWoken hv⟩)

abbrev CarefulLock (s : Lock T) : Prop :=
  Reachable (· = initial) (fun s s' ↦ ∃ t a, Step t a s s' ∧ Careful s t a) s

/-- A time-out that is not careful leaves somebody stranded at once. -/
theorem not_careful_strands {s s' : Lock T} {t : T} {a : Action} (h : Step t a s s')
    (hcare : ¬ Careful s t a) : ¬ NotStranded s' := by
  rw [Careful, Classical.not_imp] at hcare
  obtain ⟨rfl, hcare⟩ := hcare
  cases h with
  | wlockTimeout h =>
    intro hns
    by_cases hA : s.rwl.nWriters = 0 ∧ s.rwl.nWaitingWriters = 1 ∧ ∃ u, ReaderAsleep s u
    · obtain ⟨hw, hww, u, e, hu⟩ := hA
      have hut : u ≠ t := by
        rintro rfl
        rw [h] at hu
        cases hu
      have := hns.reader u ⟨e, by rw [set_threads_of_ne _ _ hut, hu]⟩
      simp [Rwlock.wlockTimeout, hw, hww] at this
    · have hB := not_and_not_right.mp hcare hA
      obtain ⟨⟨et, ht⟩, hh, ⟨u, e, hu⟩, hall⟩ := hB
      have hut : u ≠ t := by
        rintro rfl
        rw [ht] at hu
        cases hu
      rcases hns.writer u ⟨e, by rw [set_threads_of_ne _ _ hut, hu]⟩ with ⟨v, hv⟩ | ⟨v, ev, hv⟩
      · refine hh ⟨v, ?_⟩
        by_cases hvt : v = t
        · subst hvt
          simpa [Rwlock.wlockTimeout] using hv
        · rwa [set_threads_of_ne _ _ hvt] at hv
      · by_cases hvt : v = t
        · subst hvt
          simp [Rwlock.wlockTimeout] at hv
        · rw [set_threads_of_ne _ _ hvt] at hv
          exact hvt (hall v ⟨ev, hv⟩)

/-- No waiter is stranded in a run whose writers' time-outs are careful, and the first
time-out that is not careful strands one. -/
theorem no_stranded_waiter :
    (∀ s : Lock T, CarefulLock s → NotStranded s) ∧
      ∀ (s s' : Lock T) (t : T) (a : Action), Step t a s s' → ¬ Careful s t a →
        ¬ NotStranded s' := by
  refine ⟨fun s hs ↦ ?_, fun s s' t a h hcare ↦ not_careful_strands h hcare⟩
  have hreach : ∀ s : Lock T, CarefulLock s → Exact s := by
    intro s hs
    have hr : ReachableLock s := hs.mono (fun _ _ ⟨t, a, h, _⟩ ↦ ⟨t, a, h⟩)
    exact exact_of_reachable hr
  have hserved : Served s := hs.invariant_of hreach (fun _ h ↦ h ▸ Served.initial)
    (fun _ _ hx hs ⟨_, _, h, hcare⟩ ↦ hs.step hx h hcare)
  exact hserved.notStranded (hreach s hs)

end Fintype

/-- Behind reader 0 the writers 1 and 2 wait, and writer 1 times out. -/
theorem no_stranded_waiter_two_writers : ∃ s s' : Lock (Fin 3), CarefulLock s ∧
    Step 1 .wlockTimeout s s' ∧ Careful s 1 .wlockTimeout ∧ WriterAsleep s' 2 ∧
    NotStranded s' := by
  let s₁ : Lock (Fin 3) := Lock.set initial 0 (rwlRlock false rwlInit ⟨.out, 0, 0⟩)
  let s₂ : Lock (Fin 3) := s₁.set 1 (rwlWlock true s₁.rwl (s₁.threads 1))
  let s₃ : Lock (Fin 3) := s₂.set 2 (rwlWlock false s₂.rwl (s₂.threads 2))
  let s₄ : Lock (Fin 3) := s₃.set 1 (wlockTimeout s₃.rwl (s₃.threads 1))
  have hcalm : ∀ {s : Lock (Fin 3)} {t : Fin 3} {a : Action}, a ≠ .wlockTimeout → Careful s t a :=
    fun hne ha ↦ absurd ha hne
  have r₁ : CarefulLock s₁ := .next (.start rfl) ⟨0, _, .rlock (e := false) rfl, hcalm (by decide)⟩
  have r₂ : CarefulLock s₂ := .next r₁ ⟨1, _, .wlock (e := true) rfl, hcalm (by decide)⟩
  have r₃ : CarefulLock s₃ := .next r₂ ⟨2, _, .wlock (e := false) rfl, hcalm (by decide)⟩
  have hstep : Step 1 .wlockTimeout s₃ s₄ := .wlockTimeout (w := .asleep) rfl
  have hcare : Careful s₃ 1 .wlockTimeout := by
    refine fun _ ↦ ⟨fun h ↦ absurd h.2.1 (by decide), fun h ↦ ?_⟩
    obtain ⟨e, he⟩ := h.1
    cases he
  exact ⟨s₃, s₄, r₃, hstep, hcare, ⟨false, rfl⟩,
    no_stranded_waiter.1 s₄ (.next r₃ ⟨1, _, hstep, hcare⟩)⟩

/-- Reader 0 holds the lock, writer 1 waits with an expiry time, reader 2 queues behind the
writer, and the writer times out: reader 2 sleeps with no writer left. -/
theorem timeout_strands_reader :
    ¬ ∀ s : Lock (Fin 3), ReachableLock s → NotStranded s := by
  intro h
  let s₁ : Lock (Fin 3) := Lock.set initial 0 (rwlRlock false rwlInit ⟨.out, 0, 0⟩)
  let s₂ : Lock (Fin 3) := s₁.set 1 (rwlWlock true s₁.rwl (s₁.threads 1))
  let s₃ : Lock (Fin 3) := s₂.set 2 (rwlRlock false s₂.rwl (s₂.threads 2))
  let s₄ : Lock (Fin 3) := s₃.set 1 (wlockTimeout s₃.rwl (s₃.threads 1))
  have r₁ : ReachableLock s₁ := .next (.start rfl) ⟨0, _, .rlock (e := false) rfl⟩
  have r₂ : ReachableLock s₂ := .next r₁ ⟨1, _, .wlock (e := true) rfl⟩
  have r₃ : ReachableLock s₃ := .next r₂ ⟨2, _, .rlock (e := false) rfl⟩
  have r₄ : ReachableLock s₄ := .next r₃ ⟨1, _, .wlockTimeout (w := .asleep) rfl⟩
  have hs := (h s₄ r₄).reader 2 ⟨false, rfl⟩
  exact absurd hs (by decide)

end CsoLabs.Rwlock
