import CsoLabs.Hashtable.Threads

namespace CsoLabs.Hashtable.Threads

open Foundation CInt

def Pc.slot : Pc → Option ℤ
  | .lockSlot slot _ | .unlockMu slot | .readHead slot | .insertWalk slot _ _ _
  | .lookupWalk slot _ | .append slot _ _ | .unlockSlot slot _ => some slot
  | _ => none

def Pc.holdsMu : Pc → Bool
  | .readSize globalLock | .lockSlot _ globalLock => globalLock
  | .unlockMu _ | .newSize | .lockAll _ _ | .rehash _ | .unlockAll _ => true
  | _ => false

def Pc.decided : Pc → Bool
  | .unlockSlot _ _ | .checkResize _ | .setFlag | .resizeMu | .newSize | .lockAll _ _
  | .rehash _ | .unlockAll _ | .clearFlag | .ret => true
  | _ => false

def Call.holds (c : Call) (i : ℕ) : Option Mode :=
  match c.pc with
  | .unlockMu slot | .readHead slot | .insertWalk slot _ _ _ | .lookupWalk slot _
  | .append slot _ _ | .unlockSlot slot _ => if i = lockIndex slot then some c.request.mode else none
  | .lockAll _ n => if i < n then some .write else none
  | .rehash _ => if i < NUM_LOCKS then some .write else none
  | .unlockAll n => if n ≤ i ∧ i < NUM_LOCKS then some .write else none
  | _ => none

def Call.wantsAt (c : Call) (i : ℕ) : Option Mode :=
  c.wants.bind fun w ↦ if i = w.1 then some w.2 else none

def Call.Walk (c : Call) (nodes : ℕ → Option Node) (chain : ℕ → List ℕ) : Prop :=
  match c.pc with
  | .insertWalk slot curr prev collision => (∃ key val, c.request = .insert key val) ∧
      ∃ seen rest, chain slot.toNat = seen ++ rest ∧ Chain (nextOf nodes) NULL curr rest ∧
        (∀ x ∈ seen, ¬ Matches nodes c.hcode c.request.key x) ∧ prev = seen.getLastD NULL ∧
        collision = seen.length
  | .lookupWalk slot curr => (∃ key, c.request = .lookup key) ∧
      ∃ seen rest, chain slot.toNat = seen ++ rest ∧ Chain (nextOf nodes) NULL curr rest ∧
        ∀ x ∈ seen, ¬ Matches nodes c.hcode c.request.key x
  | .append slot prev collision => (∃ key val, c.request = .insert key val) ∧
      (∀ x ∈ chain slot.toNat, ¬ Matches nodes c.hcode c.request.key x) ∧
      prev = (chain slot.toNat).getLastD NULL ∧ collision = (chain slot.toNat).length
  | _ => True

def Pc.SizeOk (pc : Pc) (size : ℤ) : Prop :=
  match pc with
  | .lockAll target i => size ≤ target ∧ target < 2 ^ 31 ∧ i ≤ NUM_LOCKS
  | .rehash target => size ≤ target ∧ target < 2 ^ 31
  | _ => True

structure CallOk (table : Htable) (chain : ℕ → List ℕ) (c : Call) : Prop where
  ascii : c.request.key.Ascii
  hash : hashcode c.request.key = some c.hcode
  slot : ∀ slot ∈ c.pc.slot, 0 ≤ slot ∧ slot < table.size
  walk : c.Walk table.nodes chain
  resize : c.pc.SizeOk table.size
  result : c.result.isSome = c.pc.decided

variable {T : Type} {s s' : System T} {t : T} {c d : Call} {chain chain' : ℕ → List ℕ}
  {i : ℕ} {mode : Mode} {table table' : Htable} {pc : Pc}

theorem Call.wantsAt_eq (h : c.wants = some (i, mode)) (j : ℕ) :
    c.wantsAt j = if j = i then some mode else none := by
  rw [wantsAt, h]
  rfl

theorem Call.wantsAt_none (h : c.wants = none) (j : ℕ) : c.wantsAt j = none := by
  rw [wantsAt, h]
  rfl

theorem Call.holds_wanted (h : c.wants = some (i, mode)) : c.holds i = none := by
  unfold wants at h
  unfold holds
  split at h <;> simp_all

theorem Call.Walk.congr {nodes nodes' : ℕ → Option Node} (h : c.Walk nodes chain)
    (hc : ∀ slot mode, c.pc.slot = some slot → c.holds (lockIndex slot) = some mode →
      chain' slot.toNat = chain slot.toNat ∧ ∀ x ∈ chain slot.toNat, nodes' x = nodes x) :
    c.Walk nodes' chain' := by
  have hmatch : ∀ x, nodes' x = nodes x → (Matches nodes' c.hcode c.request.key x ↔
      Matches nodes c.hcode c.request.key x) := fun x hx ↦ by simp only [Matches, hx]
  unfold Walk at h ⊢
  cases hpc : c.pc with
  | insertWalk slot curr prev collision =>
    obtain ⟨hch, hn⟩ := hc slot c.request.mode (by simp [hpc, Pc.slot]) (by simp [holds, hpc])
    simp only [hpc] at h ⊢
    obtain ⟨hr, seen, rest, hsr, hrest, hseen, hprev, hcol⟩ := h
    refine ⟨hr, seen, rest, hch.trans hsr, hrest.congr fun x hx ↦ ?_, fun x hx ↦ ?_, hprev, hcol⟩
    · simp only [nextOf, hn x (by simp [hsr, hx])]
    · rw [hmatch x (hn x (by simp [hsr, hx]))]
      exact hseen x hx
  | lookupWalk slot curr =>
    obtain ⟨hch, hn⟩ := hc slot c.request.mode (by simp [hpc, Pc.slot]) (by simp [holds, hpc])
    simp only [hpc] at h ⊢
    obtain ⟨hr, seen, rest, hsr, hrest, hseen⟩ := h
    refine ⟨hr, seen, rest, hch.trans hsr, hrest.congr fun x hx ↦ ?_, fun x hx ↦ ?_⟩
    · simp only [nextOf, hn x (by simp [hsr, hx])]
    · rw [hmatch x (hn x (by simp [hsr, hx]))]
      exact hseen x hx
  | append slot prev collision =>
    obtain ⟨hch, hn⟩ := hc slot c.request.mode (by simp [hpc, Pc.slot]) (by simp [holds, hpc])
    simp only [hpc] at h ⊢
    obtain ⟨hr, hno, hprev, hcol⟩ := h
    rw [hch]
    refine ⟨hr, fun x hx ↦ ?_, hprev, hcol⟩
    rw [hmatch x (hn x hx)]
    exact hno x hx
  | _ => trivial

theorem CallOk.goto (h : CallOk table chain c)
    (hslot : ∀ slot ∈ pc.slot, 0 ≤ slot ∧ slot < table.size)
    (hwalk : Call.Walk { c with pc := pc } table.nodes chain) (hsize : pc.SizeOk table.size)
    (hdec : pc.decided = c.pc.decided) : CallOk table chain { c with pc := pc } :=
  ⟨h.ascii, h.hash, hslot, hwalk, hsize, by rw [hdec]; exact h.result⟩

theorem CallOk.decide (h : CallOk table chain c) {slot : ℤ} (hslot : c.pc.slot = some slot)
    (r : ℕ) (collision : Option ℤ) :
    CallOk table chain { c with result := some r, pc := .unlockSlot slot collision } :=
  ⟨h.ascii, h.hash, fun slot' hs ↦ h.slot slot' (hslot.trans hs), trivial, trivial, rfl⟩

theorem Pc.acquired_holdsMu {w : ℕ × Mode} (h : c.wants = some w) :
    c.pc.acquired.holdsMu = c.pc.holdsMu := by
  unfold Call.wants at h
  split at h
  next slot globalLock hpc =>
    rw [hpc]
    cases globalLock <;> rfl
  next size i hpc => rw [hpc]; rfl
  next => cases h

theorem Call.holds_acquired (h : c.wants = some (i, mode)) (j : ℕ) :
    Call.holds { c with pc := c.pc.acquired } j = if j = i then some mode else c.holds j := by
  unfold wants at h
  split at h
  next slot globalLock hpc =>
    obtain ⟨rfl, rfl⟩ := Prod.mk.inj (Option.some.inj h)
    cases globalLock <;> simp [holds, hpc, Pc.acquired]
  next size n hpc =>
    split_ifs at h with hn
    obtain ⟨rfl, rfl⟩ := Prod.mk.inj (Option.some.inj h)
    simp only [holds, hpc, Pc.acquired]
    split_ifs <;> first | rfl | omega
  next => cases h

theorem CallOk.acquired (h : CallOk table chain c) {w : ℕ × Mode} (hw : c.wants = some w) :
    CallOk table chain { c with pc := c.pc.acquired } := by
  have hslot := h.slot
  have hsize := h.resize
  unfold Call.wants at hw
  split at hw
  next slot globalLock hpc =>
    refine h.goto (fun slot' hs ↦ hslot slot' ?_) ?_ ?_ ?_ <;> cases globalLock <;>
      simp_all [Pc.acquired, Pc.slot, Call.Walk, Pc.SizeOk, Pc.decided]
  next size n hpc =>
    split_ifs at hw with hn
    simp only [Pc.SizeOk, hpc] at hsize
    rw [hpc]
    exact h.goto (by simp [Pc.slot, Pc.acquired]) trivial ⟨hsize.1, hsize.2.1, hn⟩ (by rw [hpc]; rfl)
  next => cases hw

theorem Call.wants_of_leaves {w : ℕ × Mode} (h : c.leaves = some w) : c.wants = none := by
  unfold leaves at h
  unfold wants
  split at h <;> simp_all

theorem Call.holds_left (h : c.leaves = some (i, mode)) : c.holds i = some mode := by
  unfold leaves at h
  split at h
  next slot collision hpc =>
    obtain ⟨rfl, rfl⟩ := Prod.mk.inj (Option.some.inj h)
    simp [holds, hpc]
  next n hpc =>
    split_ifs at h with hn
    obtain ⟨rfl, rfl⟩ := Prod.mk.inj (Option.some.inj h)
    simp [holds, hpc, hn]
  next => cases h

theorem Pc.released_holdsMu {w : ℕ × Mode} (h : c.leaves = some w) :
    c.pc.released.holdsMu = c.pc.holdsMu := by
  unfold Call.leaves at h
  split at h
  next slot collision hpc =>
    rw [hpc]
    cases collision <;> rfl
  next i hpc => rw [hpc]; rfl
  next => cases h

theorem Call.holds_released (h : c.leaves = some (i, mode)) (j : ℕ) :
    Call.holds { c with pc := c.pc.released } j = if j = i then none else c.holds j := by
  unfold leaves at h
  split at h
  next slot collision hpc =>
    obtain ⟨rfl, rfl⟩ := Prod.mk.inj (Option.some.inj h)
    cases collision <;> simp [holds, hpc, Pc.released]
  next n hpc =>
    split_ifs at h with hn
    obtain ⟨rfl, rfl⟩ := Prod.mk.inj (Option.some.inj h)
    simp only [holds, hpc, Pc.released]
    split_ifs <;> first | rfl | omega
  next => cases h

theorem Call.wants_released {w : ℕ × Mode} (h : c.leaves = some w) :
    Call.wants { c with pc := c.pc.released } = none := by
  unfold leaves at h
  split at h
  next slot collision hpc => cases collision <;> simp [wants, hpc, Pc.released]
  next n hpc => simp [wants, hpc, Pc.released]
  next => cases h

theorem CallOk.released (h : CallOk table chain c) {w : ℕ × Mode} (hl : c.leaves = some w) :
    CallOk table chain { c with pc := c.pc.released } := by
  unfold Call.leaves at hl
  split at hl
  next slot collision hpc =>
    refine h.goto ?_ ?_ ?_ ?_ <;> cases collision <;>
      simp [hpc, Pc.released, Pc.slot, Call.Walk, Pc.SizeOk, Pc.decided]
  next n hpc =>
    rw [hpc]
    exact h.goto (by simp [Pc.slot, Pc.released]) trivial trivial (by rw [hpc]; rfl)
  next => cases hl

variable [DecidableEq T]

structure Advances (s s' : System T) (t : T) (c : Call) (c' : Option Call) : Prop where
  calls : s'.calls = Function.update s.calls t c'
  rwlSlot : s'.rwlSlot = s.rwlSlot
  todo : s'.todo = s.todo
  wants : c.wants = none
  holds : ∀ i, c'.bind (·.holds i) = c.holds i
  mu : (s'.mu = s.mu ∧ c'.any (·.pc.holdsMu) = c.pc.holdsMu) ∨
    (s.mu = none ∧ s'.mu = some t ∧ c'.any (·.pc.holdsMu) = true) ∨
    (s'.mu = none ∧ c.pc.holdsMu = true ∧ c'.any (·.pc.holdsMu) = false)

inductive Changes (s s' : System T) (chain : ℕ → List ℕ) (c : Call) (c' : Option Call) : Prop
  | none (h : s'.table = s.table) (hc : ∀ d ∈ c', CallOk s.table chain d)
  | append {slot : ℤ} {prev : ℕ} {collision : ℤ} {key : CString} {val : ℕ}
      (hpc : c.pc = .append slot prev collision) (hr : c.request = .insert key val)
      (h : s.table.appendNode slot c.hcode key val prev = some s'.table)
      (hc : c' = some { c with result := some 0, pc := .unlockSlot slot (some collision) })
  | rehash {size : ℤ} (hpc : c.pc = .rehash size) (h : Hashtable.rehash s.table size = some s'.table)
      (hc : c' = some { c with pc := .unlockAll 0 })

theorem CallOk.advances (h : CallOk s.table chain c) {s₁ : System T} (htable : s₁.table = s.table)
    (hcalls : s₁.calls = s.calls) (hlocks : s₁.rwlSlot = s.rwlSlot) (htodo : s₁.todo = s.todo)
    (hmu : s₁.mu = s.mu) (hwants : c.wants = none)
    (hholds : ∀ i, Call.holds { c with pc := pc } i = c.holds i)
    (hpcmu : pc.holdsMu = c.pc.holdsMu)
    (hslot : ∀ slot ∈ pc.slot, 0 ≤ slot ∧ slot < s.table.size)
    (hwalk : Call.Walk { c with pc := pc } s.table.nodes chain) (hsize : pc.SizeOk s.table.size)
    (hdec : pc.decided = c.pc.decided) :
    ∃ c', Advances s (s₁.goto t c pc) t c c' ∧ Changes s (s₁.goto t c pc) chain c c' := by
  refine ⟨some { c with pc := pc }, ⟨by rw [← hcalls]; rfl, hlocks, htodo, hwants, hholds,
    .inl ⟨hmu, hpcmu⟩⟩, .none htable fun d hd ↦ ?_⟩
  rw [← Option.some.inj hd]
  exact h.goto hslot hwalk hsize hdec

/-- The points between the taking of the slot lock and the end of the walk. -/
def Pc.InSection (slot : ℤ) : Pc → Prop
  | .readHead s | .insertWalk s _ _ _ | .lookupWalk s _ | .append s _ _ => s = slot
  | _ => False

theorem Call.inSection_spec {slot : ℤ} (h : c.pc.InSection slot) : c.wants = none ∧
    (∀ i, c.holds i = if i = lockIndex slot then some c.request.mode else none) ∧
    c.pc.holdsMu = false ∧ c.pc.slot = some slot ∧ (∀ size, c.pc.SizeOk size) ∧
    c.pc.decided = false := by
  cases hpc : c.pc with
  | readHead s | insertWalk s _ _ _ | lookupWalk s _ | append s _ _ =>
    rw [hpc] at h
    obtain rfl : s = slot := h
    exact ⟨by simp [wants, hpc], by simp [holds, hpc], rfl, rfl, fun _ ↦ trivial, rfl⟩
  | _ =>
    rw [hpc] at h
    exact absurd h id

theorem CallOk.advances_inSection (h : CallOk s.table chain c) {slot : ℤ}
    (hc : c.pc.InSection slot) (hpc : pc.InSection slot)
    (hwalk : Call.Walk { c with pc := pc } s.table.nodes chain) :
    ∃ c', Advances s (s.goto t c pc) t c c' ∧ Changes s (s.goto t c pc) chain c c' := by
  obtain ⟨hwants, hholds, hmu, hslot, -, hdec⟩ := Call.inSection_spec hc
  obtain ⟨-, hholds', hmu', hslot', hsize', hdec'⟩ :=
    Call.inSection_spec (c := { c with pc := pc }) hpc
  exact h.advances rfl rfl rfl rfl rfl hwants (fun i ↦ (hholds' i).trans (hholds i).symm)
    (hmu'.trans hmu.symm) (fun slot' hs ↦ h.slot slot' (hslot.trans (hslot'.symm.trans hs)))
    hwalk (hsize' _) (hdec'.trans hdec.symm)

theorem CallOk.advances_decide (h : CallOk s.table chain c) {slot : ℤ}
    (hc : c.pc.InSection slot) (r : ℕ) :
    ∃ c', Advances s (s.goto t { c with result := some r } (.unlockSlot slot none)) t c c' ∧
      Changes s (s.goto t { c with result := some r } (.unlockSlot slot none)) chain c c' := by
  obtain ⟨hwants, hholds, hmu, hslot, -⟩ := Call.inSection_spec hc
  refine ⟨some { c with result := some r, pc := .unlockSlot slot none }, ⟨rfl, rfl, rfl, hwants,
    fun i ↦ (hholds i).symm, .inl ⟨rfl, by rw [hmu]; rfl⟩⟩, .none rfl fun d hd ↦ ?_⟩
  rw [← Option.some.inj hd]
  exact h.decide hslot r none

theorem Chain.pass {nodes : ℕ → Option Node} {curr : ℕ} {rest : List ℕ} {n : Node}
    (h : Chain (nextOf nodes) NULL curr rest) (h0 : curr ≠ NULL) (hn : nodes curr = some n) :
    ∃ rest', rest = curr :: rest' ∧ Chain (nextOf nodes) NULL n.next rest' ∧
      ∀ seen, seen ++ rest = (seen ++ [curr]) ++ rest' := by
  cases rest with
  | nil => exact absurd h h0
  | cons x rest =>
    obtain rfl : curr = x := h.1
    obtain ⟨n', hn', hrest⟩ := Chain.node h
    obtain rfl : n = n' := Option.some.inj (hn.symm.trans hn')
    exact ⟨rest, rfl, hrest, by simp⟩

theorem Chain.rest_eq_nil {next : ℕ → Option ℕ} {curr : ℕ} {rest : List ℕ}
    (h : Chain next NULL curr rest) (h0 : curr = NULL) : rest = [] := by
  cases rest with
  | nil => rfl
  | cons x rest => exact absurd (h.1.symm.trans h0) h.2.1

theorem CallOk.advance_readHead (h : CallOk s.table chain c) (S : Sound s.table chain) {slot : ℤ}
    (hpc : c.pc = .readHead slot) (hs : s.advance t c = some s') :
    ∃ c', Advances s s' t c c' ∧ Changes s s' chain c c' := by
  obtain ⟨h₀, hlt⟩ := h.slot slot (by rw [hpc]; rfl)
  obtain ⟨p, hp, -, hchain⟩ := S.readStore h₀ hlt
  have hsec : c.pc.InSection slot := by
    rw [hpc]
    rfl
  simp only [System.advance, hpc] at hs
  rw [hp, Option.bind_eq_bind, Option.bind_some] at hs
  cases hr : c.request with
  | insert key val =>
    simp only [hr] at hs
    obtain rfl := Option.some.inj hs
    exact h.advances_inSection hsec rfl
      ⟨⟨key, val, hr⟩, [], chain slot.toNat, rfl, hchain, by simp, rfl, rfl⟩
  | lookup key =>
    simp only [hr] at hs
    obtain rfl := Option.some.inj hs
    exact h.advances_inSection hsec rfl
      ⟨⟨key, hr⟩, [], chain slot.toNat, rfl, hchain, by simp⟩

theorem not_matches_concat {nodes : ℕ → Option Node} {key : CString} {hcode : ℤ} {curr : ℕ}
    {n : Node} {seen : List ℕ} (hseen : ∀ x ∈ seen, ¬ Matches nodes hcode key x)
    (hn : nodes curr = some n) (hmatch : ¬ (n.hashcode = hcode ∧ n.key.strcmp key = 0)) :
    ∀ x ∈ seen ++ [curr], ¬ Matches nodes hcode key x := by
  intro x hx
  rcases List.mem_append.mp hx with hx | hx
  · exact hseen x hx
  · rw [List.mem_singleton.mp hx]
    exact fun hm ↦ hmatch ((matches_iff hn).mp hm)

theorem CallOk.advance_insertWalk (h : CallOk s.table chain c) {slot collision : ℤ}
    {curr prev : ℕ} (hpc : c.pc = .insertWalk slot curr prev collision)
    (hs : s.advance t c = some s') : ∃ c', Advances s s' t c c' ∧ Changes s s' chain c c' := by
  have hsec : c.pc.InSection slot := by
    rw [hpc]
    rfl
  have hwalk := h.walk
  simp only [Call.Walk, hpc] at hwalk
  obtain ⟨hr, seen, rest, hsr, hrest, hseen, hprev, hcol⟩ := hwalk
  simp only [System.advance, hpc] at hs
  split_ifs at hs with h0
  · obtain rfl := Option.some.inj hs
    obtain rfl := Chain.rest_eq_nil hrest h0
    rw [List.append_nil] at hsr
    exact h.advances_inSection hsec rfl ⟨hr, by rwa [hsr], by rwa [hsr], by rwa [hsr]⟩
  · obtain ⟨n, hn, hs⟩ := Option.bind_eq_some_iff.mp hs
    split_ifs at hs with hmatch
    · obtain rfl := Option.some.inj hs
      exact h.advances_decide hsec 1
    · obtain ⟨collision', hc', hs⟩ := Option.bind_eq_some_iff.mp hs
      obtain ⟨-, rfl⟩ := checked_eq_some.mp hc'
      obtain rfl := Option.some.inj hs
      obtain ⟨rest', rfl, hrest', happ⟩ := Chain.pass hrest h0 hn
      exact h.advances_inSection hsec rfl ⟨hr, seen ++ [curr], rest', hsr.trans (happ seen), hrest',
        not_matches_concat hseen hn hmatch, by simp, by simp [hcol]⟩

theorem CallOk.advance_lookupWalk (h : CallOk s.table chain c) {slot : ℤ} {curr : ℕ}
    (hpc : c.pc = .lookupWalk slot curr) (hs : s.advance t c = some s') :
    ∃ c', Advances s s' t c c' ∧ Changes s s' chain c c' := by
  have hsec : c.pc.InSection slot := by
    rw [hpc]
    rfl
  have hwalk := h.walk
  simp only [Call.Walk, hpc] at hwalk
  obtain ⟨hr, seen, rest, hsr, hrest, hseen⟩ := hwalk
  simp only [System.advance, hpc] at hs
  split_ifs at hs with h0
  · obtain rfl := Option.some.inj hs
    exact h.advances_decide hsec NULL
  · obtain ⟨n, hn, hs⟩ := Option.bind_eq_some_iff.mp hs
    split_ifs at hs with hmatch
    · obtain rfl := Option.some.inj hs
      exact h.advances_decide hsec n.val
    · obtain rfl := Option.some.inj hs
      obtain ⟨rest', rfl, hrest', happ⟩ := Chain.pass hrest h0 hn
      exact h.advances_inSection hsec rfl ⟨hr, seen ++ [curr], rest', hsr.trans (happ seen), hrest',
        not_matches_concat hseen hn hmatch⟩

theorem CallOk.advance (h : CallOk s.table chain c) (S : Sound s.table chain)
    (hs : s.advance t c = some s') : ∃ c', Advances s s' t c c' ∧ Changes s s' chain c c' := by
  have hwalk := h.walk
  have hslot := h.slot
  have hsize := h.resize
  cases hpc : c.pc with
  | readFlag =>
    simp only [System.advance, hpc, Option.some_inj] at hs
    obtain rfl := hs
    refine h.advances rfl rfl rfl rfl rfl (by simp [Call.wants, hpc]) (fun i ↦ ?_) ?_ ?_ ?_ ?_ ?_ <;>
      split_ifs <;> simp [Call.holds, hpc, Pc.holdsMu, Pc.slot, Call.Walk, Pc.SizeOk, Pc.decided]
  | lockMu | resizeMu =>
    simp only [System.advance, hpc] at hs
    split_ifs at hs with hmu
    obtain rfl := Option.some.inj hs
    refine ⟨_, ⟨rfl, rfl, rfl, by simp [Call.wants, hpc], by simp [Call.holds, hpc],
      .inr (.inl ⟨hmu, rfl, rfl⟩)⟩, .none rfl fun d hd ↦ ?_⟩
    rw [← Option.some.inj hd]
    exact h.goto (by simp [Pc.slot]) trivial trivial (by rw [hpc]; rfl)
  | readSize globalLock =>
    simp only [System.advance, hpc] at hs
    rw [S.slotOf, Option.bind_eq_bind, Option.bind_some] at hs
    obtain rfl := Option.some.inj hs
    refine h.advances rfl rfl rfl rfl rfl (by simp [Call.wants, hpc]) (by simp [Call.holds, hpc])
      (by simp [Pc.holdsMu, hpc]) ?_ trivial trivial (by simp [Pc.decided, hpc])
    intro slot hs
    rw [← Option.some.inj hs]
    exact S.tmod_lt (hashcode_nonneg h.ascii h.hash)
  | unlockMu slot =>
    simp only [System.advance, hpc, Option.some_inj] at hs
    obtain rfl := hs
    refine ⟨_, ⟨rfl, rfl, rfl, by simp [Call.wants, hpc], by simp [Call.holds, hpc],
      .inr (.inr ⟨rfl, by rw [hpc]; rfl, rfl⟩)⟩, .none rfl fun d hd ↦ ?_⟩
    rw [← Option.some.inj hd]
    exact h.goto (fun slot' hs ↦ hslot slot' (by rw [hpc]; exact hs)) trivial trivial
      (by rw [hpc]; rfl)
  | readHead slot => exact h.advance_readHead S hpc hs
  | insertWalk slot curr prev collision => exact h.advance_insertWalk hpc hs
  | lookupWalk slot curr => exact h.advance_lookupWalk hpc hs
  | append slot prev collision =>
    simp only [Call.Walk, hpc] at hwalk
    obtain ⟨⟨key, val, hr⟩, -⟩ := hwalk
    simp only [System.advance, hpc, hr] at hs
    obtain ⟨table, htable, hs⟩ := Option.bind_eq_some_iff.mp hs
    obtain rfl := Option.some.inj hs
    exact ⟨_, ⟨rfl, rfl, rfl, by simp [Call.wants, hpc], by simp [Call.holds, hpc, hr],
      .inl ⟨rfl, by rw [hpc]; rfl⟩⟩, .append hpc hr htable (by rw [hr])⟩
  | checkResize collision =>
    simp only [System.advance, hpc, Option.some_inj] at hs
    obtain rfl := hs
    refine h.advances rfl rfl rfl rfl rfl (by simp [Call.wants, hpc]) (fun i ↦ ?_) ?_ ?_ ?_ ?_ ?_ <;>
      split_ifs <;> simp [Call.holds, hpc, Pc.holdsMu, Pc.slot, Call.Walk, Pc.SizeOk, Pc.decided]
  | setFlag | clearFlag =>
    simp only [System.advance, hpc, Option.some_inj] at hs
    obtain rfl := hs
    exact h.advances rfl rfl rfl rfl rfl (by simp [Call.wants, hpc]) (by simp [Call.holds, hpc])
      (by simp [Pc.holdsMu, hpc]) (by simp [Pc.slot]) trivial trivial (by simp [Pc.decided, hpc])
  | newSize =>
    simp only [System.advance, hpc] at hs
    obtain ⟨size, hsz, hs⟩ := Option.bind_eq_some_iff.mp hs
    obtain rfl := Option.some.inj hs
    exact h.advances rfl rfl rfl rfl rfl (by simp [Call.wants, hpc]) (by simp [Call.holds, hpc])
      (by simp [Pc.holdsMu, hpc]) (by simp [Pc.slot]) trivial
      ⟨(S.newSize_bounds hsz).1, (S.newSize_bounds hsz).2, Nat.zero_le _⟩ (by simp [Pc.decided, hpc])
  | lockAll size i =>
    simp only [Pc.SizeOk, hpc] at hsize
    simp only [System.advance, hpc] at hs
    split_ifs at hs with hi
    obtain rfl := Option.some.inj hs
    have hin : i = NUM_LOCKS := le_antisymm hsize.2.2 (not_lt.mp hi)
    exact h.advances rfl rfl rfl rfl rfl (by simp [Call.wants, hpc, hi])
      (fun j ↦ by simp [Call.holds, hpc, hin]) (by simp [Pc.holdsMu, hpc]) (by simp [Pc.slot])
      trivial ⟨hsize.1, hsize.2.1⟩ (by simp [Pc.decided, hpc])
  | rehash size =>
    simp only [System.advance, hpc] at hs
    obtain ⟨table, htable, hs⟩ := Option.bind_eq_some_iff.mp hs
    obtain rfl := Option.some.inj hs
    exact ⟨_, ⟨rfl, rfl, rfl, by simp [Call.wants, hpc], by simp [Call.holds, hpc],
      .inl ⟨rfl, by rw [hpc]; rfl⟩⟩, .rehash hpc htable rfl⟩
  | unlockAll i =>
    simp only [System.advance, hpc] at hs
    split_ifs at hs with hi
    obtain rfl := Option.some.inj hs
    refine ⟨_, ⟨rfl, rfl, rfl, by simp [Call.wants, hpc], fun j ↦ ?_,
      .inr (.inr ⟨rfl, by rw [hpc]; rfl, rfl⟩)⟩, .none rfl fun d hd ↦ ?_⟩
    · have : ¬ (i ≤ j ∧ j < NUM_LOCKS) := by omega
      simp [Call.holds, hpc, this]
    · rw [← Option.some.inj hd]
      exact h.goto (by simp [Pc.slot]) trivial trivial (by rw [hpc]; rfl)
  | ret =>
    simp only [System.advance, hpc] at hs
    obtain ⟨r, hr, hs⟩ := Option.bind_eq_some_iff.mp hs
    obtain rfl := Option.some.inj hs
    exact ⟨none, ⟨rfl, rfl, rfl, by simp [Call.wants, hpc], by simp [Call.holds, hpc],
      .inl ⟨rfl, by rw [hpc]; rfl⟩⟩, .none rfl (by simp)⟩
  | lockSlot slot globalLock | unlockSlot slot collision =>
    simp only [System.advance, hpc, reduceCtorEq] at hs

end CsoLabs.Hashtable.Threads
