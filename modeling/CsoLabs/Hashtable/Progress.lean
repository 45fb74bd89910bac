import CsoLabs.Hashtable.Interleaving

namespace CsoLabs.Hashtable.Threads

open Foundation CInt

variable {T : Type}

/-- The next operation of thread `t` overflows an `int`: the counter of `hashcode`, the counter
of the collisions or the size of the new table. -/
def Overflows (s : System T) (t : T) : Prop :=
  (s.calls t = none ∧ ∃ r rs, s.todo t = r :: rs ∧ 2 ^ 31 ≤ r.key.chars.length) ∨
    ∃ c, s.calls t = some c ∧ match c.pc with
      | .insertWalk _ _ _ collision => 2 ^ 31 ≤ collision + 1
      | .newSize => 2 ^ 31 ≤ 2 * s.table.size
      | _ => False

def WaitsForMu (s : System T) (c : Call) : Prop :=
  (c.pc = .lockMu ∨ c.pc = .resizeMu) ∧ s.mu ≠ none

def SleepsAt (s : System T) (t : T) (c : Call) (i : ℕ) : Prop :=
  (∃ mode, c.wants = some (i, mode)) ∧ ((s.rwlSlot i).threads t).call.isAsleep

variable [DecidableEq T]

/-- Thread `t` does not wait: it takes a step, with an undefined outcome if an `int` overflows. -/
def Runs (s : System T) (t : T) : Prop := (∃ s', Step t .run s s') ∨ Overflows s t

variable [Fintype T] {s : System T} {t u : T} {c d : Call} {chain : ℕ → List ℕ} {i : ℕ}
  {mode : Mode}

theorem node_of_chain {nodes : ℕ → Option Node} {curr : ℕ} {rest : List ℕ}
    (h : Chain (nextOf nodes) NULL curr rest) (h0 : curr ≠ NULL) : ∃ n, nodes curr = some n := by
  cases rest with
  | nil => exact absurd h h0
  | cons x rest =>
    obtain rfl : curr = x := h.1
    obtain ⟨n, hn, -⟩ := Chain.node h
    exact ⟨n, hn⟩

theorem Inv.advances_or_waits (I : Inv s chain) (hc : s.calls t = some c) (hw : c.wants = none)
    (hl : c.leaves = none) : (s.advance t c).isSome ∨ Overflows s t ∨ WaitsForMu s c := by
  have hok := I.calls t c hc
  have hwalk := hok.walk
  have hslot := hok.slot
  have hres := hok.result
  cases hpc : c.pc with
  | readFlag | unlockMu | checkResize | setFlag | clearFlag =>
    exact .inl (by simp [System.advance, hpc])
  | lockMu | resizeMu =>
    by_cases hmu : s.mu = none
    · exact .inl (by simp [System.advance, hpc, hmu])
    · exact .inr (.inr ⟨by simp [hpc], hmu⟩)
  | readSize globalLock => exact .inl (by simp [System.advance, hpc, I.table.slotOf])
  | readHead slot =>
    obtain ⟨h₀, hlt⟩ := hslot slot (by rw [hpc]; rfl)
    obtain ⟨p, hp, -⟩ := I.table.readStore h₀ hlt
    cases hr : c.request with
    | insert key val | lookup key => exact .inl (by simp [System.advance, hpc, hp, hr])
  | insertWalk slot curr prev collision =>
    simp only [Call.Walk, hpc] at hwalk
    obtain ⟨-, seen, rest, -, hrest, -, -, hcol⟩ := hwalk
    by_cases h0 : curr = NULL
    · exact .inl (by simp [System.advance, hpc, h0])
    · obtain ⟨n, hn⟩ := node_of_chain hrest h0
      by_cases hlt : collision + 1 < 2 ^ 31
      · have hint : int (collision + 1) = some (collision + 1) :=
          int_of_bounds (by omega) (by omega)
        refine .inl ?_
        simp only [System.advance, hpc, if_neg h0, hn, hint, Option.bind_eq_bind, Option.bind_some]
        split_ifs <;> rfl
      · exact .inr (.inl (.inr ⟨c, hc, by simpa [hpc] using hlt⟩))
  | lookupWalk slot curr =>
    simp only [Call.Walk, hpc] at hwalk
    obtain ⟨-, seen, rest, -, hrest, -⟩ := hwalk
    by_cases h0 : curr = NULL
    · exact .inl (by simp [System.advance, hpc, h0])
    · obtain ⟨n, hn⟩ := node_of_chain hrest h0
      refine .inl ?_
      simp only [System.advance, hpc, if_neg h0, hn, Option.bind_eq_bind, Option.bind_some]
      split_ifs <;> rfl
  | append slot prev collision =>
    simp only [Call.Walk, hpc] at hwalk
    obtain ⟨⟨key, val, hr⟩, -, rfl, -⟩ := hwalk
    obtain ⟨h₀, hlt⟩ := hslot slot (by rw [hpc]; rfl)
    obtain ⟨table, htable, -⟩ := I.table.appendNode c.hcode key val h₀ hlt
    refine .inl ?_
    simp only [System.advance, hpc, hr, htable, Option.bind_eq_bind, Option.bind_some]
    rfl
  | newSize =>
    by_cases hlt : 2 * s.table.size < 2 ^ 31
    · obtain ⟨size, hsize⟩ := I.table.newSize_isSome hlt
      exact .inl (by simp [System.advance, hpc, hsize])
    · exact .inr (.inl (.inr ⟨c, hc, by simpa [hpc] using hlt⟩))
  | lockAll size n =>
    by_cases hn : n < NUM_LOCKS
    · simp [Call.wants, hpc, hn] at hw
    · exact .inl (by simp [System.advance, hpc, hn])
  | rehash size =>
    have hsize := hok.resize
    simp only [Pc.SizeOk, hpc] at hsize
    have hpos := I.table.size_pos
    obtain ⟨table, chain', htable, -⟩ := I.table.rehash (by omega) hsize.2
    exact .inl (by simp [System.advance, hpc, htable])
  | unlockAll n =>
    by_cases hn : n < NUM_LOCKS
    · simp [Call.leaves, hpc, hn] at hl
    · exact .inl (by simp [System.advance, hpc, hn])
  | ret =>
    rw [hpc] at hres
    obtain ⟨r, hr⟩ := Option.isSome_iff_exists.mp hres
    exact .inl (by simp [System.advance, hpc, hr])
  | lockSlot slot globalLock => simp [Call.wants, hpc] at hw
  | unlockSlot slot collision => simp [Call.leaves, hpc] at hl

theorem Inv.runs_or_waits (I : Inv s chain) (hc : s.calls t = some c) :
    Runs s t ∨ WaitsForMu s c ∨ ∃ i, SleepsAt s t c i := by
  cases hw : c.wants with
  | some w =>
    obtain ⟨i, mode⟩ := w
    have hst := I.standing_of hc i
    rw [Call.holds_wanted hw, Call.wantsAt_eq hw, if_pos rfl] at hst
    cases ha : ((s.rwlSlot i).threads t).call.isAsleep with
    | true => exact .inr (.inr ⟨i, ⟨mode, hw⟩, ha⟩)
    | false =>
      obtain ⟨a, l, ha, hl⟩ := hst.takes_exists ha
      exact .inl (.inl ⟨_, .acquire hc hw ha hl⟩)
  | none =>
    cases hl : c.leaves with
    | some w =>
      obtain ⟨i, mode⟩ := w
      have hst := I.standing_of hc i
      rw [Call.holds_left hl, Call.wantsAt_none hw] at hst
      obtain ⟨l, hlock⟩ := hst.release_exists
      exact .inl (.inl ⟨_, .release hc hl hlock⟩)
    | none =>
      rcases I.advances_or_waits hc hw hl with h | h | h
      · obtain ⟨s', hs'⟩ := Option.isSome_iff_exists.mp h
        exact .inl (.inl ⟨s', .advance hc hs'⟩)
      · exact .inl (.inr h)
      · exact .inr (.inl h)

def Collects (c : Call) (n : ℕ) : Prop := ∃ size, c.pc = .lockAll size n

theorem Collects.holdsMu {n : ℕ} (h : Collects c n) : c.pc.holdsMu = true := by
  obtain ⟨size, h⟩ := h
  rw [h]
  rfl

/-- Whoever holds a slot lock and waits for another one is a resize. -/
theorem collects_of_holds (h : c.holds i = some mode) {n : ℕ}
    (hw : ∃ mode, c.wants = some (n, mode)) :
    Collects c n ∧ i < n := by
  obtain ⟨mode', hw⟩ := hw
  unfold Call.wants at hw
  unfold Call.holds at h
  split at hw
  next slot globalLock hpc => simp [hpc] at h
  next size k hpc =>
    split_ifs at hw
    obtain ⟨rfl, -⟩ := Prod.mk.inj (Option.some.inj hw)
    simp only [hpc] at h
    split_ifs at h with hik
    exact ⟨⟨size, hpc⟩, hik⟩
  next => cases hw

/-- While nobody runs, a lock that somebody sleeps at is held by a resize, which sleeps at a
later one. -/
theorem Inv.sleeps_behind (I : Inv s chain) (hno : ∀ t, ¬ Runs s t) (hs : SleepsAt s t c i) :
    ∃ u d n, s.calls u = some d ∧ Collects d n ∧ i < n ∧ SleepsAt s u d n := by
  have hheld : Rwlock.Held (s.rwlSlot i) := by
    by_contra hfree
    obtain ⟨u, e, hu⟩ := (I.served i).writerWoken (I.exact i) hfree hs.2
    have hst := I.standing u i
    rcases hst.waits with hout | ⟨mode, w, hwant, hcall⟩
    · rw [hu] at hout
      cases hout
    · obtain ⟨d, hd, hwant⟩ := Option.bind_eq_some_iff.mp hwant
      obtain ⟨⟨j, mode'⟩, hw, hj⟩ := Option.bind_eq_some_iff.mp hwant
      split_ifs at hj with hij
      obtain rfl : i = j := hij
      rcases I.runs_or_waits hd with h | h | ⟨k, ⟨_, hk⟩, hasleep⟩
      · exact hno u h
      · rcases h.1 with hpc | hpc <;> simp [Call.wants, hpc] at hw
      · rw [hw] at hk
        obtain ⟨rfl, -⟩ := Prod.mk.inj (Option.some.inj hk)
        rw [hu] at hasleep
        cases hasleep
  obtain ⟨u, hu⟩ := hheld
  obtain ⟨mode, hheld⟩ := (I.standing u i).held_of_pos hu
  obtain ⟨d, hd, hholds⟩ := Option.bind_eq_some_iff.mp hheld
  rcases I.runs_or_waits hd with h | h | ⟨n, hn⟩
  · exact absurd h (hno u)
  · rcases h.1 with hpc | hpc <;> simp [Call.holds, hpc] at hholds
  · obtain ⟨hcol, hin⟩ := collects_of_holds hholds hn.1
    exact ⟨u, d, n, hd, hcol, hin, hn⟩

theorem Inv.nobody_sleeps (I : Inv s chain) (hno : ∀ t, ¬ Runs s t) : ¬ SleepsAt s t c i := by
  intro hs
  obtain ⟨u, d, n, hd, hcol, -, hs'⟩ := I.sleeps_behind hno hs
  obtain ⟨u', d', n', hd', hcol', hlt, -⟩ := I.sleeps_behind hno hs'
  -- both resizes hold the global lock, so they are one and the same
  obtain rfl := I.mu_unique hd hcol.holdsMu hd' hcol'.holdsMu
  obtain rfl : d = d' := Option.some.inj (hd.symm.trans hd')
  obtain ⟨size, hpc⟩ := hcol
  obtain ⟨size', hpc'⟩ := hcol'
  rw [hpc, Pc.lockAll.injEq] at hpc'
  omega

theorem Inv.no_calls (I : Inv s chain) (hno : ∀ t, ¬ Runs s t) (t : T) : s.calls t = none := by
  have hwait : ∀ t c, s.calls t = some c → WaitsForMu s c := fun t c hc ↦ by
    rcases I.runs_or_waits hc with h | h | ⟨i, h⟩
    · exact absurd h (hno t)
    · exact h
    · exact absurd h (I.nobody_sleeps hno)
  cases hc : s.calls t with
  | none => rfl
  | some c =>
    obtain ⟨u, hu⟩ := Option.ne_none_iff_exists'.mp (hwait t c hc).2
    have hmu := (I.mu u).mp hu
    cases hd : s.calls u with
    | none =>
      rw [hd] at hmu
      cases hmu
    | some d =>
      rw [hd, Option.any_some] at hmu
      rcases (hwait u d hd).1 with hpc | hpc <;> rw [hpc] at hmu <;> cases hmu

/-- In every reachable state in which some thread has not finished, some thread does not wait. -/
theorem no_deadlock (h : ReachableThreads s) (hu : ∃ t, ¬ Finished s t) : ∃ t, Runs s t := by
  obtain ⟨chain, I⟩ := h.inv
  by_contra hno
  have hno : ∀ t, ¬ Runs s t := fun t ht ↦ hno ⟨t, ht⟩
  obtain ⟨t, ht⟩ := hu
  have hc := I.no_calls hno t
  cases hr : s.todo t with
  | nil => exact ht ⟨hc, hr⟩
  | cons r rs =>
    refine hno t ?_
    by_cases hlen : r.key.chars.length < 2 ^ 31
    · obtain ⟨hcode, hh, -⟩ := hashcode_eq (I.todo t r (by simp [hr])) hlen
      exact .inl ⟨_, .start hc hr hh⟩
    · exact .inr (.inl ⟨hc, r, rs, hr, not_lt.mp hlen⟩)

def twoInserts : System (Fin 2) :=
  ⟨emptyTable 1, false, none, fun _ ↦ Rwlock.initial, fun _ ↦ none,
    fun t ↦ [.insert (keyA 1) (t + 1)], []⟩

theorem twoInserts_initial : Initial twoInserts :=
  ⟨⟨1, 1, by decide, htableInit_one⟩, rfl, rfl, fun _ ↦ rfl, fun _ ↦ rfl,
    fun t r hr ↦ by rw [List.mem_singleton.mp hr]; exact keyA_ascii 1, rfl⟩

/-- The second thread comes to the slot lock while the first one holds it. -/
theorem twoInserts_run : ∃ s c, ReachableThreads s ∧ s.calls (1 : Fin 2) = some c ∧
    SleepsAt s 1 c 1 := by
  have h : ReachableThreads twoInserts := .start twoInserts_initial
  have h := h.next ⟨0, .run, .start rfl rfl rfl⟩
  have h := h.next ⟨1, .run, .start rfl rfl rfl⟩
  have h := h.next ⟨0, .run, .advance rfl rfl⟩
  have h := h.next ⟨0, .run, .advance rfl rfl⟩
  have h := h.next ⟨1, .run, .advance rfl rfl⟩
  have h := h.next ⟨1, .run, .advance rfl rfl⟩
  have h := h.next ⟨0, .run, .acquire rfl rfl .wlock (.wlock rfl)⟩
  have h := h.next ⟨1, .run, .acquire rfl rfl .wlock (.wlock rfl)⟩
  exact ⟨_, _, h, rfl, ⟨.write, rfl⟩, by decide⟩

theorem no_deadlock_twoInserts : ∃ s c, ReachableThreads s ∧ s.calls (1 : Fin 2) = some c ∧
    SleepsAt s 1 c 1 ∧ ∃ t, Runs s t := by
  obtain ⟨s, c, h, hc, hsleeps⟩ := twoInserts_run
  refine ⟨s, c, h, hc, hsleeps, no_deadlock h ⟨1, fun hfin ↦ ?_⟩⟩
  rw [hfin.1] at hc
  cases hc

end CsoLabs.Hashtable.Threads
