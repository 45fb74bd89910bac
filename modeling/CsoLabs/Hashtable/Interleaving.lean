import CsoLabs.Hashtable.Discipline

namespace CsoLabs.Hashtable.Threads

open Foundation CInt

variable {T : Type} [Fintype T] {s s' : System T} {t u : T} {c d : Call}
  {chain chain' : ℕ → List ℕ} {i : ℕ} {mode : Mode} {table table' : Htable} {pc : Pc}

/-- The locks, the calls and the chains fit together: a call holds the locks that its place in
the code says, and whoever changes a chain is alone with it. -/
structure Inv (s : System T) (chain : ℕ → List ℕ) : Prop where
  table : Sound s.table chain
  calls : ∀ t c, s.calls t = some c → CallOk s.table chain c
  standing : ∀ t i, Rwlock.Standing ((s.calls t).bind (·.holds i)) ((s.calls t).bind (·.wantsAt i))
    ((s.rwlSlot i).threads t)
  exact : ∀ i, Rwlock.Exact (s.rwlSlot i)
  served : ∀ i, Rwlock.Served (s.rwlSlot i)
  mu : ∀ t, s.mu = some t ↔ (s.calls t).any (·.pc.holdsMu) = true
  todo : ∀ t, ∀ r ∈ s.todo t, r.key.Ascii

theorem Inv.standing_of (I : Inv s chain) (hc : s.calls t = some c) (i : ℕ) :
    Rwlock.Standing (c.holds i) (c.wantsAt i) ((s.rwlSlot i).threads t) := by
  have := I.standing t i
  rwa [hc] at this

theorem Inv.alone (I : Inv s chain) (hc : s.calls t = some c) (hh : c.holds i = some .write)
    (hu : u ≠ t) (hd : s.calls u = some d) : d.holds i = none := by
  have ht := I.standing_of hc i
  rw [hh] at ht
  have hpos : 0 < ((s.rwlSlot i).threads t).writes := by simp [ht.writes]
  obtain ⟨hr, hw⟩ := (I.exact i).alone hpos hu
  cases hm : d.holds i with
  | none => rfl
  | some mode =>
    have hs := I.standing_of hd i
    rw [hm] at hs
    rcases hs.held_pos with ⟨-, h⟩ | ⟨-, h⟩ <;> omega

theorem Inv.mu_unique (I : Inv s chain) (hc : s.calls t = some c) (hm : c.pc.holdsMu = true)
    (hd : s.calls u = some d) (hm' : d.pc.holdsMu = true) : u = t := by
  have ht := (I.mu t).mpr (by rw [hc]; exact hm)
  have hu := (I.mu u).mpr (by rw [hd]; exact hm')
  exact Option.some.inj (hu.symm.trans ht)

theorem CallOk.frame (h : CallOk table chain d) (hsize : table.size ≤ table'.size)
    (hwalk : d.Walk table'.nodes chain') (hresize : d.pc.SizeOk table'.size) :
    CallOk table' chain' d :=
  ⟨h.ascii, h.hash, fun slot hs ↦ ⟨(h.slot slot hs).1, (h.slot slot hs).2.trans_le hsize⟩, hwalk,
    hresize, h.result⟩

theorem Pc.sizeOk_of_not_mu (h : pc.holdsMu = false) (size : ℤ) : pc.SizeOk size := by
  cases pc with
  | lockAll | rehash => cases h
  | _ => trivial

theorem Initial.inv (h : Initial s) : Inv s fun _ ↦ [] := by
  obtain ⟨sz, a, hsz, hinit⟩ := h.table
  refine ⟨(htableInit_spec hsz hinit).1.sound, by simp [h.calls], fun t i ↦ ?_, fun i ↦ ?_,
    fun i ↦ ?_, by simp [h.mu, h.calls], h.todo⟩
  · rw [h.calls, h.rwlSlot]
    exact Rwlock.standing_out
  · rw [h.rwlSlot]
    exact Rwlock.Exact.initial
  · rw [h.rwlSlot]
    exact Rwlock.Served.initial

/-- A new node does not disturb the other calls: none of them is at its chain. -/
theorem Inv.append (I : Inv s chain) (hc : s.calls t = some c) {slot : ℤ} {prev : ℕ}
    {collision : ℤ} {key : CString} {val : ℕ} (hpc : c.pc = .append slot prev collision)
    (hr : c.request = .insert key val)
    (h : s.table.appendNode slot c.hcode key val prev = some table') :
    Appended s.table table' chain slot.toNat ⟨c.hcode, key, val, NULL⟩ ∧
      Sound table' (Function.update chain slot.toNat (chain slot.toNat ++ [s.table.fresh])) ∧
      ∀ u d, u ≠ t → s.calls u = some d → CallOk table'
        (Function.update chain slot.toNat (chain slot.toNat ++ [s.table.fresh])) d := by
  have hok := I.calls t c hc
  obtain ⟨h₀, hlt⟩ := hok.slot slot (by rw [hpc]; rfl)
  have hwalk := hok.walk
  simp only [Call.Walk, hpc] at hwalk
  obtain ⟨-, -, rfl, -⟩ := hwalk
  obtain ⟨t₁, ht₁, A⟩ := I.table.appendNode c.hcode key val h₀ hlt
  obtain rfl : table' = t₁ := Option.some.inj (h.symm.trans ht₁)
  refine ⟨A, I.table.appended A (hashcode_nonneg hok.ascii hok.hash), fun u d hu hd ↦ ?_⟩
  have hd' := I.calls u d hd
  refine hd'.frame A.size.ge (hd'.walk.congr fun slot' mode hs hh ↦ ?_)
    (by rw [A.size]; exact hd'.resize)
  have hne : slot' ≠ slot := by
    rintro rfl
    have := I.alone hc (i := lockIndex slot') (by simp [Call.holds, hpc, hr, Request.mode]) hu hd
    rw [hh] at this
    cases this
  have hne' : slot'.toNat ≠ slot.toNat := by
    have := (hd'.slot slot' hs).1
    omega
  exact ⟨Function.update_of_ne hne' _ _, A.others _ hne'⟩

/-- A rehash works alone: nobody else holds a slot lock or is about to resize. -/
theorem Inv.rehash (I : Inv s chain) (hc : s.calls t = some c) {size : ℤ} (hpc : c.pc = .rehash size)
    (h : Hashtable.rehash s.table size = some table') :
    ∃ chain', Sound table' chain' ∧ s.table.size ≤ table'.size ∧
      ∀ u d, u ≠ t → s.calls u = some d → CallOk table' chain' d := by
  have hsize := (I.calls t c hc).resize
  simp only [Pc.SizeOk, hpc] at hsize
  have hpos := I.table.size_pos
  obtain ⟨t₁, chain₁, ht₁, S₁, hsz, -⟩ := I.table.rehash (by omega) hsize.2
  obtain rfl : table' = t₁ := Option.some.inj (h.symm.trans ht₁)
  refine ⟨chain₁, S₁, by omega, fun u d hu hd ↦ ?_⟩
  have hd' := I.calls u d hd
  refine hd'.frame (by omega) (hd'.walk.congr fun slot mode hs hh ↦ ?_) ?_
  · have hlt := lockIndex_lt (hd'.slot slot hs).1
    have := I.alone hc (i := lockIndex slot) (by simp [Call.holds, hpc, hlt]) hu hd
    rw [hh] at this
    cases this
  · refine Pc.sizeOk_of_not_mu ?_ _
    cases hm : d.pc.holdsMu with
    | false => rfl
    | true => exact absurd (I.mu_unique hc (by rw [hpc]; rfl) hd hm) hu

theorem Inv.changes (I : Inv s chain) (hc : s.calls t = some c) {c' : Option Call}
    (h : Changes s s' chain c c') : ∃ chain', Sound s'.table chain' ∧
      (∀ d ∈ c', CallOk s'.table chain' d) ∧
      ∀ u d, u ≠ t → s.calls u = some d → CallOk s'.table chain' d := by
  have hok := I.calls t c hc
  cases h with
  | none h hc' =>
    rw [h]
    exact ⟨chain, I.table, hc', fun u d _ hd ↦ I.calls u d hd⟩
  | append hpc hr h hc' =>
    obtain ⟨A, S, hothers⟩ := I.append hc hpc hr h
    refine ⟨_, S, fun d hd ↦ ?_, hothers⟩
    rw [hc'] at hd
    rw [← Option.some.inj hd]
    exact (hok.decide (by rw [hpc]; rfl) 0 _).frame A.size.ge trivial trivial
  | rehash hpc h hc' =>
    obtain ⟨chain', S, hsize, hothers⟩ := I.rehash hc hpc h
    refine ⟨chain', S, fun d hd ↦ ?_, hothers⟩
    rw [hc'] at hd
    rw [← Option.some.inj hd]
    have hgo : CallOk s.table chain { c with pc := .unlockAll 0 } :=
      hok.goto (by simp [Pc.slot]) trivial trivial (by rw [hpc]; rfl)
    exact hgo.frame hsize trivial trivial

variable [DecidableEq T]

theorem Inv.advance (I : Inv s chain) (hc : s.calls t = some c) (h : s.advance t c = some s') :
    ∃ chain', Inv s' chain' := by
  obtain ⟨c', A, C⟩ := (I.calls t c hc).advance I.table h
  obtain ⟨chain', S, hself, hothers⟩ := I.changes hc C
  have hself' : s'.calls t = c' := by rw [A.calls, Function.update_self]
  have hne : ∀ u ≠ t, s'.calls u = s.calls u := fun u hu ↦ by
    rw [A.calls, Function.update_of_ne hu]
  refine ⟨chain', S, fun u d hd ↦ ?_, fun u i ↦ ?_, fun i ↦ A.rwlSlot ▸ I.exact i,
    fun i ↦ A.rwlSlot ▸ I.served i, fun u ↦ ?_, A.todo ▸ I.todo⟩
  · by_cases hu : u = t
    · subst hu
      exact hself d (hself'.symm.trans hd)
    · exact hothers u d hu (by rwa [← hne u hu])
  · rw [A.rwlSlot]
    by_cases hu : u = t
    · subst hu
      have hst := I.standing_of hc i
      rw [Call.wantsAt_none A.wants] at hst
      rw [hself', A.holds]
      exact hst.of_out hst.out _
    · rw [hne u hu]
      exact I.standing u i
  · have hct := I.mu t
    rw [hc, Option.any_some] at hct
    by_cases hu : u = t
    · subst hu
      rw [hself']
      rcases A.mu with ⟨hmu, hany⟩ | ⟨-, hmu, hany⟩ | ⟨hmu, -, hany⟩
      · rw [hmu, hany, hct]
      · simp [hmu, hany]
      · simp [hmu, hany]
    · rw [hne u hu, ← I.mu u]
      rcases A.mu with ⟨hmu, -⟩ | ⟨hnone, hmu, -⟩ | ⟨hmu, hheld, -⟩
      · rw [hmu]
      · simp [hmu, hnone, Ne.symm hu]
      · simp [hmu, hct.mpr hheld, Ne.symm hu]

theorem Inv.lockStep (I : Inv s chain) (hc : s.calls t = some c) {a : Rwlock.Action}
    {l : Rwlock.Lock T} (h : Rwlock.Step t a (s.rwlSlot i) l)
    (hcare : Rwlock.Careful (s.rwlSlot i) t a) (hcall : CallOk s.table chain { c with pc := pc })
    (hmu : pc.holdsMu = c.pc.holdsMu)
    (hself : Rwlock.Standing (Call.holds { c with pc := pc } i) (Call.wantsAt { c with pc := pc } i)
      (l.threads t))
    (hother : ∀ j ≠ i, Call.holds { c with pc := pc } j = c.holds j ∧ c.wantsAt j = none) :
    Inv ((s.setLock i l).goto t c pc) chain := by
  have hne : ∀ u ≠ t, ((s.setLock i l).goto t c pc).calls u = s.calls u := fun u hu ↦
    Function.update_of_ne hu _ _
  have heq : ((s.setLock i l).goto t c pc).calls t = some { c with pc := pc } :=
    Function.update_self ..
  have hlock : ((s.setLock i l).goto t c pc).rwlSlot i = l := Function.update_self ..
  have hlock' : ∀ j ≠ i, ((s.setLock i l).goto t c pc).rwlSlot j = s.rwlSlot j := fun j hj ↦
    Function.update_of_ne hj _ _
  refine ⟨I.table, fun u d hd ↦ ?_, fun u j ↦ ?_, fun j ↦ ?_, fun j ↦ ?_, fun u ↦ ?_, I.todo⟩
  · by_cases hu : u = t
    · subst hu
      rw [heq] at hd
      rw [← Option.some.inj hd]
      exact hcall
    · exact I.calls u d (by rwa [← hne u hu])
  · by_cases hu : u = t
    · subst hu
      rw [heq]
      by_cases hj : j = i
      · subst hj
        rw [hlock]
        exact hself
      · have hst := I.standing_of hc j
        rw [(hother j hj).2] at hst
        rw [hlock' j hj, Option.bind_some, (hother j hj).1]
        exact hst.of_out hst.out _
    · rw [hne u hu]
      by_cases hj : j = i
      · subst hj
        rw [hlock]
        exact h.others hu (I.standing u j)
      · rw [hlock' j hj]
        exact I.standing u j
  · by_cases hj : j = i
    · subst hj
      rw [hlock]
      exact (I.exact j).step h
    · rw [hlock' j hj]
      exact I.exact j
  · by_cases hj : j = i
    · subst hj
      rw [hlock]
      exact (I.served j).step (I.exact j) h hcare
    · rw [hlock' j hj]
      exact I.served j
  · by_cases hu : u = t
    · subst hu
      have := I.mu u
      rw [hc, Option.any_some] at this
      rw [heq, Option.any_some, hmu]
      exact this
    · rw [hne u hu]
      exact I.mu u

theorem Inv.acquire (I : Inv s chain) (hc : s.calls t = some c) (hw : c.wants = some (i, mode))
    {a : Rwlock.Action} {l : Rwlock.Lock T} (ha : Rwlock.Takes mode a)
    (h : Rwlock.Step t a (s.rwlSlot i) l) :
    Inv ((s.setLock i l).goto t c (if (l.threads t).call = .out then c.pc.acquired else c.pc))
      chain := by
  have hok := I.calls t c hc
  have hst := I.standing_of hc i
  rw [Call.holds_wanted hw, Call.wantsAt_eq hw, if_pos rfl] at hst
  have hwants : ∀ j ≠ i, c.wantsAt j = none := fun j hj ↦ by rw [Call.wantsAt_eq hw, if_neg hj]
  rcases h.takes ha hst with ⟨hout, hst'⟩ | ⟨hwait, hst'⟩
  · rw [if_pos hout]
    refine I.lockStep hc h (Rwlock.takes_careful ha) (hok.acquired hw) (Pc.acquired_holdsMu hw) ?_
      fun j hj ↦ ⟨?_, hwants j hj⟩
    · rw [Call.holds_acquired hw, if_pos rfl]
      exact hst'.of_out hout _
    · rw [Call.holds_acquired hw, if_neg hj]
  · rw [if_neg hwait]
    refine I.lockStep hc h (Rwlock.takes_careful ha) hok rfl ?_ fun j hj ↦ ⟨rfl, hwants j hj⟩
    rw [show Call.holds { c with pc := c.pc } i = none from Call.holds_wanted hw,
      show Call.wantsAt { c with pc := c.pc } i = some mode by rw [Call.wantsAt_eq hw, if_pos rfl]]
    exact hst'

theorem Inv.release (I : Inv s chain) (hc : s.calls t = some c) (hl : c.leaves = some (i, mode))
    {l : Rwlock.Lock T} (h : Rwlock.Step t (Rwlock.release mode) (s.rwlSlot i) l) :
    Inv ((s.setLock i l).goto t c c.pc.released) chain := by
  have hwants : ∀ j, c.wantsAt j = none := Call.wantsAt_none (Call.wants_of_leaves hl)
  have hst := I.standing_of hc i
  rw [Call.holds_left hl, hwants] at hst
  refine I.lockStep hc h Rwlock.release_careful ((I.calls t c hc).released hl)
    (Pc.released_holdsMu hl) ?_ fun j hj ↦ ⟨?_, hwants j⟩
  · rw [Call.holds_released hl, if_pos rfl, Call.wantsAt_none (Call.wants_released hl)]
    exact h.releases hst
  · rw [Call.holds_released hl, if_neg hj]

theorem Inv.spurious (I : Inv s chain) {l : Rwlock.Lock T}
    (h : Rwlock.Step t .spurious (s.rwlSlot i) l) : Inv (s.setLock i l) chain := by
  have hl : Rwlock.Woken (s.rwlSlot i) l := by
    cases h with
    | spurious => exact Rwlock.Woken.wake _ t
  have hlock : (s.setLock i l).rwlSlot i = l := Function.update_self ..
  have hlock' : ∀ j ≠ i, (s.setLock i l).rwlSlot j = s.rwlSlot j := fun j hj ↦
    Function.update_of_ne hj _ _
  refine ⟨I.table, I.calls, fun u j ↦ ?_, fun j ↦ ?_, fun j ↦ ?_, I.mu, I.todo⟩ <;>
    by_cases hj : j = i
  · subst hj
    rw [hlock]
    exact hl.standing (I.standing u j)
  · rw [hlock' j hj]
    exact I.standing u j
  · subst hj
    rw [hlock]
    exact (I.exact j).step h
  · rw [hlock' j hj]
    exact I.exact j
  · subst hj
    rw [hlock]
    exact (I.served j).step (I.exact j) h Rwlock.spurious_careful
  · rw [hlock' j hj]
    exact I.served j

theorem Inv.start (I : Inv s chain) (hc : s.calls t = none) {r : Request} {rs : List Request}
    {hcode : ℤ} (hr : s.todo t = r :: rs) (hh : hashcode r.key = some hcode) :
    Inv { s with
      calls := Function.update s.calls t (some ⟨r, hcode, s.done.length, none, .readFlag⟩)
      todo := Function.update s.todo t rs } chain := by
  have hrs : ∀ r' ∈ r :: rs, r'.key.Ascii := hr ▸ I.todo t
  refine ⟨I.table, fun u d hd ↦ ?_, fun u i ↦ ?_, I.exact, I.served, fun u ↦ ?_, fun u r' hr' ↦ ?_⟩ <;>
    by_cases hu : u = t
  · subst hu
    simp only [Function.update_self, Option.some_inj] at hd
    subst hd
    exact ⟨hrs r (by simp), hh, by simp [Pc.slot], trivial, trivial, rfl⟩
  · simp only [Function.update_of_ne hu] at hd
    exact I.calls u d hd
  · subst hu
    have hst := I.standing u i
    rw [hc] at hst
    simp only [Function.update_self]
    exact hst
  · simp only [Function.update_of_ne hu]
    exact I.standing u i
  · subst hu
    have := I.mu u
    rw [hc] at this
    simp only [Function.update_self]
    exact this
  · simp only [Function.update_of_ne hu]
    exact I.mu u
  · subst hu
    simp only [Function.update_self] at hr'
    exact hrs r' (by simp [hr'])
  · simp only [Function.update_of_ne hu] at hr'
    exact I.todo u r' hr'

theorem Inv.step (I : Inv s chain) {a : Action} (h : Step t a s s') : ∃ chain', Inv s' chain' := by
  cases h with
  | start hc hr hh => exact ⟨chain, I.start hc hr hh⟩
  | advance hc h => exact I.advance hc h
  | acquire hc hw ha h => exact ⟨chain, I.acquire hc hw ha h⟩
  | release hc hl h => exact ⟨chain, I.release hc hl h⟩
  | spurious h => exact ⟨chain, I.spurious h⟩

theorem ReachableThreads.inv (h : ReachableThreads s) : ∃ chain, Inv s chain :=
  h.invariant (I := fun s ↦ ∃ chain, Inv s chain) (fun _ h ↦ ⟨_, h.inv⟩)
    fun _ _ ⟨_, I⟩ ⟨_, _, h⟩ ↦ I.step h

end CsoLabs.Hashtable.Threads
