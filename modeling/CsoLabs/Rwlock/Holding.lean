import CsoLabs.Foundation.Holders
import CsoLabs.Rwlock.WakeUps

namespace CsoLabs.Rwlock

open Foundation
open scoped BigOperators

def waiting : Mode → Wake → Call
  | .read, w => .rlock false w
  | .write, w => .wlock false w

inductive Takes : Mode → Action → Prop
  | rlock : Takes .read (.rlock false)
  | rlockWake : Takes .read .rlockWake
  | wlock : Takes .write (.wlock false)
  | wlockWake : Takes .write .wlockWake

def release : Mode → Action
  | .read => .runlock
  | .write => .wunlock

/-- A thread that holds the lock in the mode `held` and waits for the mode `wanted`, if at all. -/
structure Standing (held wanted : Option Mode) (me : Thread) : Prop where
  reads : me.reads = if held = some .read then 1 else 0
  writes : me.writes = if held = some .write then 1 else 0
  waits : me.call = .out ∨ ∃ mode w, wanted = some mode ∧ me.call = waiting mode w

variable {T : Type*} {s s' : Lock T} {t u : T} {a : Action} {mode : Mode} {me : Thread}
  {held wanted : Option Mode}

theorem waiting_wake (mode : Mode) : (waiting mode .asleep).wake = waiting mode .woken := by
  cases mode <;> rfl

theorem waiting_woken (mode : Mode) : (waiting mode .woken).wake = waiting mode .woken := by
  cases mode <;> rfl

theorem isAsleep_waiting : (waiting mode .asleep).isAsleep := by
  cases mode <;> rfl

theorem standing_out : Standing none wanted ⟨.out, 0, 0⟩ := ⟨rfl, rfl, .inl rfl⟩

theorem Standing.wake (h : Standing held wanted me) : Standing held wanted me.wake := by
  refine ⟨h.reads, h.writes, ?_⟩
  rcases h.waits with hc | ⟨mode, w, hm, hc⟩
  · exact .inl (by simp [Thread.wake, hc, Call.wake])
  · refine .inr ⟨mode, .woken, hm, ?_⟩
    rw [Thread.wake, hc]
    cases w
    · exact waiting_wake mode
    · exact waiting_woken mode

theorem Standing.of_out (h : Standing held wanted me) (hc : me.call = .out)
    (wanted' : Option Mode) : Standing held wanted' me := ⟨h.reads, h.writes, .inl hc⟩

theorem Standing.out (h : Standing held none me) : me.call = .out := by
  rcases h.waits with hc | ⟨mode, w, hm, -⟩
  · exact hc
  · cases hm

theorem Standing.mode_eq (h : Standing held (some mode) me) :
    me.call = .out ∨ ∃ w, me.call = waiting mode w := by
  rcases h.waits with hc | ⟨mode', w, hm, hc⟩
  · exact .inl hc
  · rw [Option.some.inj hm]
    exact .inr ⟨w, hc⟩

theorem Standing.held_pos (h : Standing (some mode) wanted me) :
    mode = .read ∧ 0 < me.reads ∨ mode = .write ∧ 0 < me.writes := by
  cases mode
  · exact .inl ⟨rfl, by simp [h.reads]⟩
  · exact .inr ⟨rfl, by simp [h.writes]⟩

theorem Standing.held_of_pos (h : Standing held wanted me) (hpos : 0 < me.reads ∨ 0 < me.writes) :
    ∃ mode, held = some mode := by
  rw [h.reads, h.writes] at hpos
  rcases held with _ | mode
  · simp at hpos
  · exact ⟨mode, rfl⟩

theorem Woken.standing (h : Woken s s') (hs : Standing held wanted (s.threads u)) :
    Standing held wanted (s'.threads u) := by
  rcases h.threads u with hu | hu
  · rwa [hu]
  · rw [hu]
    exact hs.wake

theorem takes_careful (h : Takes mode a) : Careful s t a := by
  rintro rfl
  cases h

theorem release_careful : Careful s t (release mode) := by
  intro h
  cases mode <;> cases h

theorem spurious_careful : Careful s t .spurious := nofun

section Steps

variable [DecidableEq T]

theorem Step.others (h : Step t a s s') (hu : u ≠ t) (hs : Standing held wanted (s.threads u)) :
    Standing held wanted (s'.threads u) := by
  have hset : ∀ p, Standing held wanted ((s.set t p).threads u) := fun p ↦ by
    rwa [set_threads_of_ne s p hu]
  cases h with
  | rlock | rlockWake | rlockTimeout | wlock | wlockWake | wlockTimeout => exact hset _
  | runlock _ _ hw => exact hw.woken.standing (hset _)
  | wunlock _ _ hw => exact hw.woken.standing (hset _)
  | spurious => exact (Woken.wake s t).standing hs

theorem rlockLoop_standing {l : Rwl} (h : Standing none (some .read) me) :
    ((rlockLoop false l me).2.call = .out ∧
      Standing (some .read) none (rlockLoop false l me).2) ∨
    ((rlockLoop false l me).2.call ≠ .out ∧
      Standing none (some .read) (rlockLoop false l me).2) := by
  have hr := h.reads
  have hw := h.writes
  unfold rlockLoop
  split_ifs
  · exact .inr ⟨by simp, hr, hw, .inr ⟨.read, .asleep, rfl, rfl⟩⟩
  · exact .inl ⟨rfl, by simp [hr], by simp [hw], .inl rfl⟩

theorem wlockLoop_standing {l : Rwl} (h : Standing none (some .write) me) :
    ((wlockLoop false l me).2.call = .out ∧
      Standing (some .write) none (wlockLoop false l me).2) ∨
    ((wlockLoop false l me).2.call ≠ .out ∧
      Standing none (some .write) (wlockLoop false l me).2) := by
  have hr := h.reads
  have hw := h.writes
  unfold wlockLoop
  split_ifs
  · exact .inr ⟨by simp, hr, hw, .inr ⟨.write, .asleep, rfl, rfl⟩⟩
  · exact .inl ⟨rfl, by simp [hr], by simp [hw], .inl rfl⟩

theorem Step.takes (h : Step t a s s') (ha : Takes mode a)
    (hs : Standing none (some mode) (s.threads t)) :
    ((s'.threads t).call = .out ∧ Standing (some mode) none (s'.threads t)) ∨
      ((s'.threads t).call ≠ .out ∧ Standing none (some mode) (s'.threads t)) := by
  have huntimed : ∀ w, (s.threads t).call ≠ .rlock true w ∧ (s.threads t).call ≠ .wlock true w := by
    intro w
    rcases hs.mode_eq with hc | ⟨w', hc⟩
    · simp [hc]
    · cases mode <;> simp [hc, waiting]
  cases h with
  | rlock h =>
    cases ha
    rw [set_threads_self]
    exact rlockLoop_standing hs
  | @rlockWake _ e h =>
    cases ha
    rw [set_threads_self]
    cases e
    · exact rlockLoop_standing hs
    · exact absurd h (huntimed .woken).1
  | wlock h =>
    cases ha
    rw [set_threads_self]
    exact wlockLoop_standing hs
  | @wlockWake _ e h =>
    cases ha
    rw [set_threads_self]
    cases e
    · exact wlockLoop_standing hs
    · exact absurd h (huntimed .woken).2
  | rlockTimeout => cases ha
  | runlock => cases ha
  | wlockTimeout => cases ha
  | wunlock => cases ha
  | spurious => cases ha

theorem Step.releases (h : Step t (release mode) s s')
    (hs : Standing (some mode) none (s.threads t)) : Standing none none (s'.threads t) := by
  have hr := hs.reads
  have hw := hs.writes
  generalize ha : release mode = a at h
  cases h with
  | runlock hc _ hsig =>
    cases mode
    · refine hsig.woken.standing ?_
      rw [set_threads_self]
      exact ⟨by simp [runlockCount, hr], by simp [runlockCount, hw], .inl hc⟩
    · cases ha
  | wunlock hc _ hsig =>
    cases mode
    · cases ha
    · refine hsig.woken.standing ?_
      rw [set_threads_self]
      exact ⟨by simp [wunlockCount, hr], by simp [wunlockCount, hw], .inl hc⟩
  | _ => cases mode <;> cases ha

theorem Standing.takes_exists (h : Standing none (some mode) (s.threads t))
    (ha : (s.threads t).call.isAsleep = false) : ∃ a s', Takes mode a ∧ Step t a s s' := by
  rcases h.mode_eq with hc | ⟨w, hc⟩
  · cases mode
    · exact ⟨_, _, .rlock, .rlock hc⟩
    · exact ⟨_, _, .wlock, .wlock hc⟩
  · cases w
    · rw [hc, isAsleep_waiting] at ha
      cases ha
    · cases mode
      · exact ⟨_, _, .rlockWake, .rlockWake hc⟩
      · exact ⟨_, _, .wlockWake, .wlockWake hc⟩

theorem signalWriter_exists (s : Lock T) : ∃ s', SignalWriter s s' := by
  by_cases h : ∃ u e, (s.threads u).call = .wlock e .asleep
  · obtain ⟨u, e, hu⟩ := h
    exact ⟨_, .wake hu⟩
  · exact ⟨s, .none fun u e hu ↦ h ⟨u, e, hu⟩⟩

theorem runlockSignal_exists (s : Lock T) : ∃ s', RunlockSignal s s' := by
  unfold RunlockSignal
  split_ifs
  · exact signalWriter_exists s
  · exact ⟨s, rfl⟩

theorem wunlockSignal_exists (s : Lock T) : ∃ s', WunlockSignal s s' := by
  unfold WunlockSignal
  split_ifs
  · exact signalWriter_exists s
  · exact ⟨_, rfl⟩
  · exact ⟨s, rfl⟩

theorem Standing.release_exists (h : Standing (some mode) none (s.threads t)) :
    ∃ s', Step t (release mode) s s' := by
  rcases h.held_pos with ⟨rfl, hpos⟩ | ⟨rfl, hpos⟩
  · obtain ⟨s', hs'⟩ := runlockSignal_exists (s.set t (runlockCount s.rwl (s.threads t)))
    exact ⟨s', .runlock h.out hpos hs'⟩
  · obtain ⟨s', hs'⟩ := wunlockSignal_exists (s.set t (wunlockCount s.rwl (s.threads t)))
    exact ⟨s', .wunlock h.out hpos hs'⟩

end Steps

section Fintype

variable [Fintype T]

theorem Exact.alone (hs : Exact s) (ht : 0 < (s.threads t).writes) (hu : u ≠ t) :
    (s.threads u).reads = 0 ∧ (s.threads u).writes = 0 := by
  classical
  have hle := hs.writers_le
  have h₁ := hs.writes_le t
  have h₂ := hs.reads_le u
  have h₃ := hs.exclusive (by omega)
  have hsum := Finset.sum_le_sum_of_subset_of_nonneg (f := fun v ↦ (s.threads v).tally.writes)
    (Finset.subset_univ {t, u}) fun v _ _ ↦ Int.natCast_nonneg _
  rw [← hs.writers, Finset.sum_pair hu.symm] at hsum
  simp only [Thread.tally] at hsum
  omega

theorem Served.writerWoken (hs : Served s) (hx : Exact s) (hfree : ¬ Held s)
    (ht : (s.threads t).call.isAsleep) : ∃ u, WriterWoken s u := by
  rw [hx.held_iff] at hfree
  have hwriter : ∀ u, WriterAsleep s u → ∃ u, WriterWoken s u := fun u hu ↦ by
    rcases hs.writer u hu with h | h | h
    · exact absurd (.inl h) hfree
    · exact absurd (.inr h) hfree
    · exact h
  cases hc : (s.threads t).call with
  | out =>
    rw [hc] at ht
    cases ht
  | wlock e w =>
    cases w with
    | asleep => exact hwriter t ⟨e, hc⟩
    | woken =>
      rw [hc] at ht
      cases ht
  | rlock e w =>
    cases w with
    | woken =>
      rw [hc] at ht
      cases ht
    | asleep =>
      -- a reader sleeps behind a writer, and that writer is waiting too
      have hpos : 0 < s.rwl.nWaitingWriters := (hs.reader t ⟨e, hc⟩).resolve_left
        fun h ↦ hfree (.inl h)
      obtain ⟨u, hu⟩ : ∃ u, (s.threads u).call.isWlock := by
        by_contra hno
        rw [hx.waitingWriters, Finset.sum_eq_zero fun u _ ↦ ?_] at hpos
        · exact lt_irrefl _ hpos
        · simp only [Thread.tally, if_neg fun h ↦ hno ⟨u, h⟩]
      cases hcu : (s.threads u).call with
      | out =>
        rw [hcu] at hu
        cases hu
      | rlock =>
        rw [hcu] at hu
        cases hu
      | wlock e w =>
        cases w with
        | asleep => exact hwriter u ⟨e, hcu⟩
        | woken => exact ⟨u, e, hcu⟩

end Fintype
end CsoLabs.Rwlock
