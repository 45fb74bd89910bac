import CsoLabs.Hashtable.Linearization

namespace CsoLabs.Hashtable

open Foundation CInt

variable {T : Type} [DecidableEq T]

def System.lockedAll (s : System T) (t : T) (c : Call) (size : ℤ) : System T :=
  { s with
    rwlSlot := fun i ↦ if i < NUM_LOCKS then .writer t else s.rwlSlot i
    calls := Function.update s.calls t (some { c with pc := .rehash size }) }

def System.unlockedAll (s : System T) (t : T) (c : Call) : System T :=
  { s with
    rwlSlot := fun i ↦ if i < NUM_LOCKS then .free else s.rwlSlot i
    calls := Function.update s.calls t (some { c with pc := .unlockAll NUM_LOCKS }) }

variable {s s' : System T} {t : T} {c : Call} {size : ℤ}

theorem ReachableSystem.advance (h : ReachableSystem s) (hc : s.calls t = some c)
    (hs : s.advance t c = some s') : ReachableSystem s' :=
  h.next ⟨t, none, by rw [System.act, hc, Option.bind_some, hs]⟩

def System.slotsUpTo (s : System T) (t : T) (c : Call) (pc : ℕ → Pc) (l : Holders T) (n : ℕ) :
    System T :=
  { s with
    rwlSlot := fun i ↦ if i < n then l else s.rwlSlot i
    calls := Function.update s.calls t (some { c with pc := pc n }) }

theorem update_upTo {α : Type*} (f : ℕ → α) (x : α) (n : ℕ) :
    Function.update (fun i ↦ if i < n then x else f i) n x =
      fun i ↦ if i < n + 1 then x else f i := by
  funext i
  rcases lt_trichotomy i n with hi | rfl | hi
  · rw [Function.update_of_ne hi.ne, if_pos hi, if_pos (by omega)]
  · rw [Function.update_self, if_pos (by omega)]
  · rw [Function.update_of_ne hi.ne', if_neg (by omega), if_neg (by omega)]

theorem slotsUpTo_reachable (pc : ℕ → Pc) (l : Holders T) (h : ReachableSystem s)
    (hc : s.calls t = some c) (hpc : c.pc = pc 0)
    (hstep : ∀ n < NUM_LOCKS, (s.slotsUpTo t c pc l n).advance t { c with pc := pc n } =
      some (s.slotsUpTo t c pc l (n + 1))) :
    ∀ n ≤ NUM_LOCKS, ReachableSystem (s.slotsUpTo t c pc l n) := by
  intro n
  induction n with
  | zero =>
    intro _
    have hcalls : Function.update s.calls t (some { c with pc := pc 0 }) = s.calls := by
      rw [← hpc, ← hc]
      exact Function.update_eq_self ..
    simpa only [System.slotsUpTo, Nat.not_lt_zero, if_false, hcalls] using h
  | succ n ih =>
    intro hn
    exact ReachableSystem.advance (ih (by omega)) (Function.update_self ..) (hstep n (by omega))

theorem lockAll_reachable (h : ReachableSystem s) (hc : s.calls t = some c)
    (hpc : c.pc = .lockAll size 0) (hfree : ∀ i, s.rwlSlot i = .free) :
    ReachableSystem (s.lockedAll t c size) := by
  have hrun := slotsUpTo_reachable (fun n ↦ .lockAll size n) (.writer t) h hc hpc
    fun n hn ↦ by
      have hacq : (s.rwlSlot n).acquire t .write = some (.writer t) := by
        rw [hfree n]
        rfl
      simp only [System.slotsUpTo, System.advance, if_pos hn, System.lockSlot, lt_irrefl, if_false,
        hacq, Option.bind_eq_bind, Option.bind_some, Option.pure_def, update_upTo, System.goto,
        Function.update_idem]
  refine ReachableSystem.advance (hrun NUM_LOCKS le_rfl) (Function.update_self ..) ?_
  simp only [System.slotsUpTo, System.advance, lt_irrefl, if_false, System.goto,
    Function.update_idem]
  rfl

theorem unlockAll_reachable (h : ReachableSystem s) (hc : s.calls t = some c)
    (hpc : c.pc = .unlockAll 0) (hheld : ∀ i < NUM_LOCKS, s.rwlSlot i = .writer t) :
    ReachableSystem (s.unlockedAll t c) := by
  refine slotsUpTo_reachable .unlockAll .free h hc hpc (fun n hn ↦ ?_) NUM_LOCKS le_rfl
  have hrel : (s.rwlSlot n).release t = .free := by
    rw [hheld n hn]
    rfl
  simp only [System.slotsUpTo, System.advance, if_pos hn, System.unlockSlot, lt_irrefl, if_false,
    hrel, update_upTo, System.goto, Function.update_idem]

/-- Thread 1 computes the slot of its key; then thread 0 fills the other chain until its last
insert resizes the table. -/
def beforeResize : List (Fin 2 × Option Request) :=
  run 1 (.insert (keyOf [3]) 7) 2 ++
    ([2, 4, 6, 8, 10, 12, 14, 16, 18, 20].flatMap fun c ↦ run 0 (.insert (keyOf [c]) 1) 7) ++
    run 0 (.insert (keyOf [22]) 1) 9

/-- Thread 1 goes on with its slot of the old table; then thread 0 looks its key up. -/
def afterResize : List (Fin 2 × Option Request) :=
  List.replicate 3 (0, none) ++ List.replicate 5 (1, none) ++ run 0 (.lookup (keyOf [3])) 6

def rehashed : Option (System (Fin 2)) := do
  let s ← exec (fun _ _ ↦ True) twoThreads beforeResize
  let c ← s.calls 0
  (s.lockedAll 0 c 5).act 0 none

def staleRun : Option (System (Fin 2)) := do
  let s ← rehashed
  let c ← s.calls 0
  exec (fun _ _ ↦ True) (s.unlockedAll 0 c) afterResize

theorem act_rehash (hc : s.calls t = some c) (hpc : c.pc = .rehash size)
    (h : s.act t none = some s') :
    s'.rwlSlot = s.rwlSlot ∧ s'.calls t = some { c with pc := .unlockAll 0 } := by
  rw [System.act, hc, Option.bind_some, System.advance, hpc] at h
  obtain ⟨table, -, h⟩ := Option.bind_eq_some_iff.mp h
  obtain rfl := Option.some.inj h
  exact ⟨rfl, Function.update_self ..⟩

theorem rehashed_reachable {s : System (Fin 2)} (h : rehashed = some s) :
    ReachableSystem s ∧ (∀ i < NUM_LOCKS, s.rwlSlot i = .writer 0) ∧
      ∃ c, s.calls 0 = some c ∧ c.pc = .unlockAll 0 := by
  rw [rehashed] at h
  obtain ⟨s₁, hs₁, h⟩ := Option.bind_eq_some_iff.mp h
  obtain ⟨c₁, hc₁, h⟩ := Option.bind_eq_some_iff.mp h
  have hpc : ((exec (fun _ _ ↦ True) twoThreads beforeResize).bind fun s ↦
      (s.calls 0).map Call.pc) = some (.lockAll 5 0) := by decide +kernel
  have hfree : ∀ i, ((exec (fun _ _ ↦ True) twoThreads beforeResize).map fun s ↦ s.rwlSlot i) =
      some .free := by
    intro i
    cases i <;> rfl
  simp only [hs₁, hc₁, Option.bind_some, Option.map_some, Option.some_inj] at hpc hfree
  have h₁ := reachableSystem_of_exec (.start twoThreads_initial) hs₁
  have h₂ := lockAll_reachable h₁ hc₁ hpc hfree
  obtain ⟨hslots, hc⟩ := act_rehash (c := { c₁ with pc := .rehash 5 })
    (by simp [System.lockedAll]) rfl h
  refine ⟨h₂.next ⟨0, none, h⟩, fun i hi ↦ ?_, _, hc, rfl⟩
  rw [hslots]
  exact if_pos hi

/-- A thread that has computed its slot before a resize and takes the slot lock after it
inserts into the wrong chain, where the next lookup does not find its key. -/
theorem stale_slot_loses_key : ¬ ∀ s : System (Fin 2), ReachableSystem s → Consistent s := by
  intro hall
  have hlost : (staleRun.any fun s ↦ s.done.any fun d ↦
      d.event = .lookup (keyOf [3]) NULL ∧ .insert (keyOf [3]) 7 0 ∈ d.before) = true := by
    decide +kernel
  obtain ⟨s, hs, hd⟩ := (Option.any_eq_true _ _).mp hlost
  obtain ⟨d, hd, hev⟩ := List.any_eq_true.mp hd
  obtain ⟨hlookup, hbefore⟩ := of_decide_eq_true hev
  rw [staleRun] at hs
  obtain ⟨s₂, hs₂, hs⟩ := Option.bind_eq_some_iff.mp hs
  obtain ⟨c₂, hc₂, hs⟩ := Option.bind_eq_some_iff.mp hs
  obtain ⟨h₂, hheld, c, hc, hpc⟩ := rehashed_reachable hs₂
  obtain rfl : c = c₂ := Option.some.inj (hc.symm.trans hc₂)
  have h := reachableSystem_of_exec (unlockAll_reachable h₂ hc hpc hheld) hs
  exact absurd ((hall s h).lookups d hd _ _ _ hlookup hbefore) (by decide)

end CsoLabs.Hashtable
