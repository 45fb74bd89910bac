import CsoLabs.Rwlock.WakeUps

namespace CsoLabs.Rwlock

open Foundation

variable {T : Type*} {s s' s₁ : Lock T} {t u w : T} {a : Action}

def AcquiresRead (t : T) (s s' : Lock T) : Prop := (s.threads t).reads < (s'.threads t).reads

def LeavesWlock (w : T) (a : Action) (s s' : Lock T) : Prop :=
  (s'.threads w).call = .out ∧
    ((s'.threads w).writes = (s.threads w).writes + 1 ∨ a = .wlockTimeout)

theorem Woken.reads_eq (h : Woken s s') (u : T) : (s'.threads u).reads = (s.threads u).reads := by
  rcases h.threads u with hu | hu <;> rw [hu]
  rfl

theorem Woken.isWlock (h : Woken s s') (hw : (s.threads w).call.isWlock) :
    (s'.threads w).call.isWlock := by
  rcases h.threads w with hu | hu <;> rw [hu]
  · exact hw
  · cases hc : (s.threads w).call with
    | out => simp [hc, Call.isWlock] at hw
    | rlock e k => simp [hc, Call.isWlock] at hw
    | wlock e k => cases k <;> simp [Thread.wake, Call.wake, hc, Call.isWlock]

variable [DecidableEq T]

/-- The steps of a run during which `w` stays blocked inside one call of `rwl_wlock`. -/
inductive Blocked (w : T) : Lock T → Lock T → Prop
  | here {s : Lock T} (h : (s.threads w).call.isWlock) : Blocked w s s
  | next {s s₁ s' : Lock T} {t : T} {a : Action} (h : Blocked w s s₁) (hs : Step t a s₁ s')
      (hw : (s'.threads w).call.isWlock) : Blocked w s s'

theorem Blocked.isWlock (h : Blocked w s s') : (s'.threads w).call.isWlock := by
  cases h with
  | here h => exact h
  | next _ _ hw => exact hw

theorem Blocked.reachable (h : Blocked w s s') (hs : ReachableLock s) : ReachableLock s' := by
  induction h with
  | here => exact hs
  | next _ hstep _ ih => exact .next ih ⟨_, _, hstep⟩

theorem set_reads_le {p : Rwl × Thread} (h : p.2.reads ≤ (s.threads t).reads) (u : T) :
    ((s.set t p).threads u).reads ≤ (s.threads u).reads := by
  by_cases hu : u = t
  · subst hu
    rwa [set_threads_self]
  · rw [set_threads_of_ne s p hu]

theorem rlockLoop_reads {e : Bool} {l : Rwl} {me : Thread} (h : 0 < l.nWaitingWriters) :
    (rlockLoop e l me).2.reads = me.reads := by
  rw [rlockLoop, if_pos (.inr h.ne')]

theorem wlockLoop_reads {e : Bool} {l : Rwl} {me : Thread} :
    (wlockLoop e l me).2.reads = me.reads := by
  unfold wlockLoop
  split_ifs <;> rfl

theorem wlockLoop_leaves {e : Bool} {l : Rwl} {me : Thread} :
    (wlockLoop e l me).2.call.isWlock ∨
      (wlockLoop e l me).2.call = .out ∧ (wlockLoop e l me).2.writes = me.writes + 1 := by
  unfold wlockLoop
  split_ifs
  · exact .inl rfl
  · exact .inr ⟨rfl, rfl⟩

/-- No step takes the read mode while a writer waits. -/
theorem Step.reads_le (h : Step t a s s') (hw : 0 < s.rwl.nWaitingWriters) (u : T) :
    (s'.threads u).reads ≤ (s.threads u).reads := by
  cases h with
  | rlock _ | rlockWake _ => exact set_reads_le (rlockLoop_reads (by exact hw)).le u
  | rlockTimeout _ | wlockTimeout _ => exact set_reads_le le_rfl u
  | runlock _ _ hs =>
    rw [hs.woken.reads_eq]
    exact set_reads_le (Nat.sub_le _ _) u
  | wlock _ | wlockWake _ => exact set_reads_le wlockLoop_reads.le u
  | wunlock _ _ hs =>
    rw [hs.woken.reads_eq]
    exact set_reads_le le_rfl u
  | spurious _ => rw [(Woken.wake s t).reads_eq]

theorem Step.isWlock_or_leaves (h : Step t a s s') (hw : (s.threads w).call.isWlock) :
    (s'.threads w).call.isWlock ∨ LeavesWlock w a s s' := by
  by_cases hwt : w = t
  · subst hwt
    cases h with
    | rlock h | wlock h | runlock h | wunlock h => simp [h, Call.isWlock] at hw
    | rlockWake h | rlockTimeout h => simp [h, Call.isWlock] at hw
    | wlockWake h =>
      rcases wlockLoop_leaves with hl | ⟨hout, hwrites⟩
      · exact .inl (by rw [set_threads_self]; exact hl)
      · exact .inr ⟨by rw [set_threads_self]; exact hout,
          .inl (by rw [set_threads_self]; exact hwrites)⟩
    | wlockTimeout h => exact .inr ⟨by rw [set_threads_self]; rfl, .inr rfl⟩
    | spurious h => exact .inl ((Woken.wake s w).isWlock hw)
  · have hset : ∀ p : Rwl × Thread, ((s.set t p).threads w).call.isWlock := fun p ↦ by
      rwa [set_threads_of_ne s p hwt]
    cases h with
    | runlock _ _ hs => exact .inl (hs.woken.isWlock (hset _))
    | wunlock _ _ hs => exact .inl (hs.woken.isWlock (hset _))
    | spurious _ => exact .inl ((Woken.wake s t).isWlock hw)
    | rlock _ | rlockWake _ | rlockTimeout _ | wlock _ | wlockWake _ | wlockTimeout _ =>
      exact .inl (hset _)

/-- From the moment a thread has blocked inside `rwl_wlock` until it acquires the lock or its
call returns `ETIMEDOUT`, no call of `rwl_rlock` acquires the lock. -/
theorem writer_priority [Fintype T] (h : ReachableLock s) (hb : Blocked w s s₁)
    (hs : Step t a s₁ s') :
    (∀ u, ¬ AcquiresRead u s₁ s') ∧
      ((s'.threads w).call.isWlock ∨ LeavesWlock w a s₁ s') := by
  have hexact := exact_of_reachable (hb.reachable h)
  refine ⟨fun u ↦ ?_, hs.isWlock_or_leaves hb.isWlock⟩
  exact not_lt.mpr (hs.reads_le (hexact.waitsWrite_pos hb.isWlock) u)

/-- Thread 0 reads, thread 1 blocks in `rwl_wlock`, and then thread 2 calls `rwl_rlock`. -/
theorem writer_priority_three_threads : ∃ s₁ s₂ : Lock (Fin 3), ReachableLock s₁ ∧
    (s₁.threads 1).call.isWlock ∧ Step 2 (.rlock false) s₁ s₂ ∧ ∀ u, ¬ AcquiresRead u s₁ s₂ := by
  let s₀ : Lock (Fin 3) := Lock.set initial 0 (rwlRlock false rwlInit ⟨.out, 0, 0⟩)
  let s₁ : Lock (Fin 3) := s₀.set 1 (rwlWlock true s₀.rwl (s₀.threads 1))
  have r₀ : ReachableLock s₀ := .next (.start rfl) ⟨0, _, .rlock (e := false) rfl⟩
  have r₁ : ReachableLock s₁ := .next r₀ ⟨1, _, .wlock (e := true) rfl⟩
  have hstep := Step.rlock (t := 2) (s := s₁) (e := false) rfl
  exact ⟨s₁, _, r₁, rfl, hstep, (writer_priority r₁ (.here (w := 1) rfl) hstep).1⟩

end CsoLabs.Rwlock
