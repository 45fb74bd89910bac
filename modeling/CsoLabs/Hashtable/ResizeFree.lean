import CsoLabs.Hashtable.Interleaving

namespace CsoLabs.Hashtable.Threads

open Foundation CInt

def mapResult (m : CString → Option ℕ) : Request → ℕ
  | .insert key _ => if m key = none then 0 else 1
  | .lookup key => (m key).getD NULL

def mapNext (m : CString → Option ℕ) : Request → CString → Option ℕ
  | .insert key val => if m key = none then Function.update m key (some val) else m
  | .lookup _ => m

def mapObject : SeqObject (CString → Option ℕ) Request ℕ := ⟨mapResult, mapNext⟩

def insertsKey (key : CString) : Request → Bool
  | .insert k _ => k = key
  | .lookup _ => false

def Call.toProgress (c : Call) : InProgress Request ℕ := ⟨c.request, c.started, c.result⟩

def Pc.resizeFree : Pc → Bool
  | .readFlag | .readSize false | .lockSlot _ false | .readHead _ | .insertWalk _ _ _ _
  | .lookupWalk _ _ | .append _ _ _ | .unlockSlot _ _ | .checkResize _ | .ret => true
  | _ => false

structure Call.AtSlot (size : ℤ) (c : Call) : Prop where
  pc : c.pc.resizeFree = true
  slot : ∀ slot ∈ c.pc.slot, slot = c.hcode.tmod size

variable {T : Type}

def System.pending (s : System T) : T → Option (InProgress Request ℕ) :=
  Option.map Call.toProgress ∘ s.calls

/-- The table holds the map that the calls have led to, each at its effect. -/
structure ResizeFree (s : System T) (chain : ℕ → List ℕ) (m : CString → Option ℕ)
    (order : List (ℕ ⊕ T)) : Prop where
  table : TableOk s.table chain m
  allowResize : s.table.allowResize = 0
  undergoingResize : s.undergoingResize = false
  calls : ∀ t c, s.calls t = some c → c.AtSlot s.table.size
  effects : Effects mapObject (fun _ ↦ none) s.done s.pending m order

section Map

variable {m : CString → Option ℕ} {key k : CString} {val : ℕ} {cs : List (Request × ℕ)}

@[simp]
theorem insertsKey_insert : insertsKey key (.insert k val) = decide (k = key) := rfl

@[simp]
theorem insertsKey_lookup : insertsKey key (.lookup k) = false := rfl

theorem mapNext_of_ne (hk : k ≠ key) : mapNext m (.insert k val) key = m key := by
  simp only [mapNext]
  split_ifs
  · exact Function.update_of_ne hk.symm _ _
  · rfl

theorem mapNext_self : mapNext m (.insert key val) key ≠ none := by
  simp only [mapNext]
  split_ifs with hm
  · simp
  · exact hm

theorem countP_inserts_of_mem (h : mapObject.Legal m cs) (hm : m key ≠ none) :
    cs.countP (fun c ↦ insertsKey key c.1 && c.2 == 0) = 0 := by
  induction cs generalizing m with
  | nil => rfl
  | cons c cs ih =>
    obtain ⟨op, r⟩ := c
    obtain ⟨rfl, hcs⟩ := h
    rw [List.countP_cons]
    cases op with
    | lookup k => simp [ih hcs hm]
    | insert k val =>
      by_cases hk : k = key
      · subst hk
        simp [ih hcs mapNext_self, mapObject, mapResult, hm]
      · rw [ih hcs ((mapNext_of_ne hk).trans_ne hm)]
        simp [hk]

/-- Of the inserts of a key that is not there the first one returns 0, and no other. -/
theorem countP_inserts (h : mapObject.Legal m cs) (hm : m key = none)
    (hcs : cs.any fun c ↦ insertsKey key c.1) :
    cs.countP (fun c ↦ insertsKey key c.1 && c.2 == 0) = 1 := by
  induction cs generalizing m with
  | nil => cases hcs
  | cons c cs ih =>
    obtain ⟨op, r⟩ := c
    obtain ⟨rfl, h⟩ := h
    rw [List.countP_cons]
    cases op with
    | lookup k =>
      rw [ih h hm (by simpa using hcs)]
      simp
    | insert k val =>
      by_cases hk : k = key
      · subst hk
        rw [countP_inserts_of_mem h mapNext_self]
        simp [mapObject, mapResult, hm]
      · rw [ih h ((mapNext_of_ne hk).trans hm) (by simpa [hk] using hcs)]
        simp [hk]

end Map

variable {s s' : System T} {t : T} {c : Call} {chain : ℕ → List ℕ}
  {m : CString → Option ℕ} {order : List (ℕ ⊕ T)} {pc : Pc} {table' : Htable} {i : ℕ} {mode : Mode}

theorem ResizeFree.setLock (R : ResizeFree s chain m order) (i : ℕ) (l : Rwlock.Lock T) :
    ResizeFree (s.setLock i l) chain m order :=
  ⟨R.table, R.allowResize, R.undergoingResize, R.calls, R.effects⟩

theorem ResizeFree.entry (R : ResizeFree s chain m order) {key : CString} {hcode : ℤ} {i curr : ℕ}
    {seen rest : List ℕ} {n : Node} (hsr : chain i = seen ++ rest)
    (hrest : Chain (nextOf s.table.nodes) NULL curr rest) (h0 : curr ≠ NULL)
    (hn : s.table.nodes curr = some n) (hmatch : n.hashcode = hcode ∧ n.key.strcmp key = 0) :
    m key = some n.val := by
  obtain ⟨rest', rfl, -⟩ := Chain.pass hrest h0 hn
  exact R.table.entry_of_matches (i := i) (by simp [hsr]) hn ((matches_iff hn).mpr hmatch)

theorem Initial.resizeFree (h : Initial s) (ha : s.table.allowResize = 0) :
    ResizeFree s (fun _ ↦ []) (fun _ ↦ none) [] := by
  obtain ⟨sz, a, hsz, hinit⟩ := h.table
  refine ⟨(htableInit_spec hsz hinit).1, ha, h.undergoingResize, by simp [h.calls], ?_⟩
  have hpending : s.pending = fun _ ↦ none := by
    funext t
    simp [System.pending, h.calls]
  rw [h.done, hpending]
  exact .initial _ _

variable [DecidableEq T]

theorem pending_update (f : T → Option Call) (t : T) (c : Option Call) :
    Option.map Call.toProgress ∘ Function.update f t c =
      Function.update (Option.map Call.toProgress ∘ f) t (c.map Call.toProgress) :=
  Function.comp_update ..

namespace ResizeFree

theorem goto (R : ResizeFree s chain m order) (hc : s.calls t = some c)
    (hpc : pc.resizeFree = true) (hslot : ∀ slot ∈ pc.slot, slot = c.hcode.tmod s.table.size) :
    ResizeFree (s.goto t c pc) chain m order := by
  refine ⟨R.table, R.allowResize, R.undergoingResize, fun u d hd ↦ ?_, ?_⟩
  · by_cases hu : u = t
    · subst hu
      simp only [System.goto, Function.update_self, Option.some_inj] at hd
      subst hd
      exact ⟨hpc, hslot⟩
    · simp only [System.goto, Function.update_of_ne hu] at hd
      exact R.calls u d hd
  · have hsame : (s.goto t c pc).pending = s.pending := by
      simp only [System.pending, System.goto, pending_update]
      exact Function.update_eq_self_iff.mpr (by simp [hc, Call.toProgress])
    rw [hsame]
    exact R.effects

theorem decide (R : ResizeFree s chain m order) (hc : s.calls t = some c) (hr : c.result = none)
    {slot : ℤ} (hslot : c.pc.slot = some slot) (collision : Option ℤ) {chain' : ℕ → List ℕ}
    (T' : TableOk table' chain' (mapNext m c.request)) (hsize : table'.size = s.table.size)
    (hallow : table'.allowResize = s.table.allowResize) :
    ResizeFree ({ s with table := table' }.goto t
        { c with result := some (mapResult m c.request) } (.unlockSlot slot collision)) chain'
      (mapNext m c.request) (order ++ [.inr t]) := by
  refine ⟨T', hallow.trans R.allowResize, R.undergoingResize, fun u d hd ↦ ?_, ?_⟩
  · rw [show (System.goto { s with table := table' } t _ _).table.size = s.table.size from hsize]
    by_cases hu : u = t
    · subst hu
      simp only [System.goto, Function.update_self, Option.some_inj] at hd
      subst hd
      refine ⟨rfl, fun slot' hs ↦ (R.calls u c hc).slot slot' (hslot.trans hs)⟩
    · simp only [System.goto, Function.update_of_ne hu] at hd
      exact R.calls u d hd
  · have hpending : s.pending t = some ⟨c.request, c.started, none⟩ := by
      simp [System.pending, hc, Call.toProgress, hr]
    have E := R.effects.takeEffect (r := mapResult m c.request) hpending rfl
    simp only [System.pending, System.goto, pending_update]
    exact E

theorem start (R : ResizeFree s chain m order) (hc : s.calls t = none) (r : Request) (hcode : ℤ)
    (rs : List Request) :
    ResizeFree { s with
      calls := Function.update s.calls t (some ⟨r, hcode, s.done.length, none, .readFlag⟩)
      todo := Function.update s.todo t rs } chain m order := by
  refine ⟨R.table, R.allowResize, R.undergoingResize, fun u d hd ↦ ?_, ?_⟩
  · by_cases hu : u = t
    · subst hu
      simp only [Function.update_self, Option.some_inj] at hd
      subst hd
      exact ⟨rfl, by simp [Pc.slot]⟩
    · simp only [Function.update_of_ne hu] at hd
      exact R.calls u d hd
  · have E := R.effects.invoke r (show s.pending t = none by simp [System.pending, hc])
    simp only [System.pending, pending_update]
    exact E

theorem ret (R : ResizeFree s chain m order) (hc : s.calls t = some c) {r : ℕ}
    (hr : c.result = some r) :
    ResizeFree { s with
      calls := Function.update s.calls t none
      done := s.done ++ [⟨c.request, r, c.started, s.done.length⟩] } chain m
      (order.map (settle t s.done.length)) := by
  refine ⟨R.table, R.allowResize, R.undergoingResize, fun u d hd ↦ ?_, ?_⟩
  · by_cases hu : u = t
    · subst hu
      simp at hd
    · simp only [Function.update_of_ne hu] at hd
      exact R.calls u d hd
  · have E := R.effects.ret (show s.pending t = some ⟨c.request, c.started, some r⟩ by
      simp [System.pending, hc, Call.toProgress, hr])
    simp only [System.pending, pending_update]
    exact E

theorem acquire (R : ResizeFree s chain m order) (hc : s.calls t = some c) {w : ℕ × Mode}
    (hw : c.wants = some w) : ResizeFree (s.goto t c c.pc.acquired) chain m order := by
  obtain ⟨hpc, hslot⟩ := R.calls t c hc
  unfold Call.wants at hw
  split at hw
  next slot globalLock h =>
    rw [h] at hpc hslot ⊢
    cases globalLock with
    | true => cases hpc
    | false => exact R.goto hc rfl hslot
  next size n h =>
    rw [h] at hpc
    cases hpc
  next => cases hw

theorem release (R : ResizeFree s chain m order) (hc : s.calls t = some c) {w : ℕ × Mode}
    (hl : c.leaves = some w) : ResizeFree (s.goto t c c.pc.released) chain m order := by
  obtain ⟨hpc, -⟩ := R.calls t c hc
  unfold Call.leaves at hl
  split at hl
  next slot collision h =>
    rw [h]
    cases collision with
    | none => exact R.goto hc rfl (by simp [Pc.slot, Pc.released])
    | some collision => exact R.goto hc rfl (by simp [Pc.slot, Pc.released])
  next n h =>
    rw [h] at hpc
    cases hpc
  next => cases hl

theorem insertFound (R : ResizeFree s chain m order) (hc : s.calls t = some c)
    (hr : c.result = none) {key : CString} {val : ℕ} (hreq : c.request = .insert key val)
    (hm : m key ≠ none) {slot : ℤ} (hslot : c.pc.slot = some slot) :
    ResizeFree (s.goto t { c with result := some 1 } (.unlockSlot slot none)) chain m
      (order ++ [.inr t]) := by
  have hnext : mapNext m c.request = m := by simp [hreq, mapNext, hm]
  have hresult : mapResult m c.request = 1 := by simp [hreq, mapResult, hm]
  have D := R.decide hc hr hslot none (hnext.symm ▸ R.table) rfl rfl
  rwa [hnext, hresult] at D

theorem lookupDone (R : ResizeFree s chain m order) (hc : s.calls t = some c)
    (hr : c.result = none) {key : CString} (hreq : c.request = .lookup key) {r : ℕ}
    (hm : (m key).getD NULL = r) {slot : ℤ} (hslot : c.pc.slot = some slot) :
    ResizeFree (s.goto t { c with result := some r } (.unlockSlot slot none)) chain m
      (order ++ [.inr t]) := by
  have hnext : mapNext m c.request = m := by rw [hreq, mapNext]
  have hresult : mapResult m c.request = r := by rw [hreq, mapResult, hm]
  have D := R.decide hc hr hslot none (hnext.symm ▸ R.table) rfl rfl
  rwa [hnext, hresult] at D

theorem append (R : ResizeFree s chain m order) (hok : CallOk s.table chain c)
    (hc : s.calls t = some c) (hr : c.result = none) {key : CString} {val prev : ℕ}
    (hreq : c.request = .insert key val) {slot collision : ℤ}
    (hpc : c.pc = .append slot prev collision)
    (h : s.table.appendNode slot c.hcode key val prev = some table') :
    ∃ chain', ResizeFree ({ s with table := table' }.goto t { c with result := some 0 }
      (.unlockSlot slot (some collision))) chain' (mapNext m c.request) (order ++ [.inr t]) := by
  have hwalk := hok.walk
  have hh := hok.hash
  have hpos := hashcode_nonneg hok.ascii hok.hash
  have hslot := (R.calls t c hc).slot slot (by rw [hpc]; rfl)
  simp only [Call.Walk, hpc] at hwalk
  obtain ⟨-, hno, rfl, -⟩ := hwalk
  rw [hslot] at hno h
  rw [hreq] at hno hh
  have hm : m key = none := R.table.eq_none_of_no_match hh hno
  obtain ⟨h₀, hlt⟩ := R.table.sound.tmod_lt hpos
  obtain ⟨t₁, ht₁, A⟩ := R.table.sound.appendNode c.hcode key val h₀ hlt
  obtain rfl : table' = t₁ := Option.some.inj (h.symm.trans ht₁)
  have T' := R.table.appended hh hpos hm A
  have hnext : mapNext m c.request = Function.update m key (some val) := by
    simp [hreq, mapNext, hm]
  have hresult : mapResult m c.request = 0 := by simp [hreq, mapResult, hm]
  have D := R.decide hc hr (by rw [hpc]; rfl) (some collision) (hnext.symm ▸ T') A.size A.allowResize
  rw [hresult] at D
  exact ⟨_, D⟩

variable [Fintype T]

theorem advance (R : ResizeFree s chain m order) (I : Inv s chain) (hc : s.calls t = some c)
    (h : s.advance t c = some s') : ∃ chain' m' order', ResizeFree s' chain' m' order' := by
  have hok := I.calls t c hc
  have hwalk := hok.walk
  have hres := hok.result
  obtain ⟨hfree, hslot⟩ := R.calls t c hc
  cases hpc : c.pc with
  | readFlag =>
    simp only [System.advance, hpc, R.undergoingResize, Option.some_inj] at h
    obtain rfl := h
    exact ⟨_, _, _, R.goto hc rfl (by simp [Pc.slot])⟩
  | readSize globalLock =>
    rw [hpc] at hfree
    cases globalLock with
    | true => cases hfree
    | false =>
      simp only [System.advance, hpc] at h
      rw [R.table.slotOf, Option.bind_eq_bind, Option.bind_some] at h
      obtain rfl := Option.some.inj h
      refine ⟨_, _, _, R.goto hc rfl fun slot hs ↦ (Option.some.inj hs).symm⟩
  | readHead slot =>
    simp only [System.advance, hpc] at h
    obtain ⟨curr, -, h⟩ := Option.bind_eq_some_iff.mp h
    have hslot' : ∀ slot' ∈ some slot, slot' = c.hcode.tmod s.table.size := fun slot' hs ↦
      hslot slot' (by rw [hpc]; exact hs)
    cases hr : c.request with
    | insert key val | lookup key =>
      simp only [hr] at h
      obtain rfl := Option.some.inj h
      exact ⟨_, _, _, R.goto hc rfl hslot'⟩
  | insertWalk slot curr prev collision =>
    simp only [Call.Walk, hpc] at hwalk
    obtain ⟨⟨key, val, hreq⟩, seen, rest, hsr, hrest, -⟩ := hwalk
    have hslot' : ∀ slot' ∈ some slot, slot' = c.hcode.tmod s.table.size := fun slot' hs ↦
      hslot slot' (by rw [hpc]; exact hs)
    have hnone : c.result = none := by simpa [hpc, Pc.decided] using hres
    simp only [System.advance, hpc] at h
    split_ifs at h with h0
    · obtain rfl := Option.some.inj h
      exact ⟨_, _, _, R.goto hc rfl hslot'⟩
    · obtain ⟨n, hn, h⟩ := Option.bind_eq_some_iff.mp h
      split_ifs at h with hmatch
      · have hm := R.entry hsr hrest h0 hn hmatch
        rw [hreq] at hm
        obtain rfl := Option.some.inj h
        exact ⟨_, _, _, R.insertFound hc hnone hreq (by simp [show m key = _ from hm])
          (by rw [hpc]; rfl)⟩
      · obtain ⟨collision', -, h⟩ := Option.bind_eq_some_iff.mp h
        obtain rfl := Option.some.inj h
        exact ⟨_, _, _, R.goto hc rfl hslot'⟩
  | lookupWalk slot curr =>
    simp only [Call.Walk, hpc] at hwalk
    obtain ⟨⟨key, hreq⟩, seen, rest, hsr, hrest, hseen⟩ := hwalk
    have hslot' : ∀ slot' ∈ some slot, slot' = c.hcode.tmod s.table.size := fun slot' hs ↦
      hslot slot' (by rw [hpc]; exact hs)
    have hnone : c.result = none := by simpa [hpc, Pc.decided] using hres
    simp only [System.advance, hpc] at h
    split_ifs at h with h0
    · have hend := Chain.rest_eq_nil hrest h0
      rw [hend, List.append_nil, hslot' slot rfl] at hsr
      have hm := R.table.eq_none_of_no_match hok.hash (by rw [hsr]; exact hseen)
      rw [hreq] at hm
      obtain rfl := Option.some.inj h
      exact ⟨_, _, _, R.lookupDone hc hnone hreq (by rw [show m key = _ from hm]; rfl)
        (by rw [hpc]; rfl)⟩
    · obtain ⟨n, hn, h⟩ := Option.bind_eq_some_iff.mp h
      split_ifs at h with hmatch
      · have hm := R.entry hsr hrest h0 hn hmatch
        rw [hreq] at hm
        obtain rfl := Option.some.inj h
        exact ⟨_, _, _, R.lookupDone hc hnone hreq (by rw [show m key = _ from hm]; rfl)
          (by rw [hpc]; rfl)⟩
      · obtain rfl := Option.some.inj h
        exact ⟨_, _, _, R.goto hc rfl hslot'⟩
  | append slot prev collision =>
    simp only [Call.Walk, hpc] at hwalk
    obtain ⟨⟨key, val, hreq⟩, -⟩ := hwalk
    simp only [System.advance, hpc, hreq] at h
    obtain ⟨table, htable, h⟩ := Option.bind_eq_some_iff.mp h
    obtain rfl := Option.some.inj h
    have hnone : c.result = none := by simpa [hpc, Pc.decided] using hres
    obtain ⟨chain', R'⟩ := R.append hok hc hnone hreq hpc htable
    exact ⟨chain', _, _, by rw [hreq] at R'; exact R'⟩
  | checkResize collision =>
    simp only [System.advance, hpc, R.allowResize, Option.some_inj] at h
    obtain rfl := h
    exact ⟨_, _, _, R.goto hc rfl (by simp [Pc.slot])⟩
  | ret =>
    simp only [System.advance, hpc] at h
    obtain ⟨r, hr, h⟩ := Option.bind_eq_some_iff.mp h
    obtain rfl := Option.some.inj h
    exact ⟨_, _, _, R.ret hc hr⟩
  | lockSlot slot globalLock | unlockSlot slot collision => simp [System.advance, hpc] at h
  | _ => simp [hpc, Pc.resizeFree] at hfree

theorem step (R : ResizeFree s chain m order) (I : Inv s chain) {a : Action} (h : Step t a s s') :
    ∃ chain' m' order', ResizeFree s' chain' m' order' := by
  cases h with
  | start hc hr hh => exact ⟨_, _, _, R.start hc _ _ _⟩
  | advance hc h => exact R.advance I hc h
  | @acquire _ c i mode a l hc hw ha h =>
    have R' := R.setLock i l
    split_ifs
    · exact ⟨_, _, _, R'.acquire hc hw⟩
    · exact ⟨_, _, _, R'.goto hc (R.calls t c hc).pc (R.calls t c hc).slot⟩
  | @release _ c i mode l hc hl h => exact ⟨_, _, _, (R.setLock i l).release hc hl⟩
  | @spurious _ i l h => exact ⟨_, _, _, R.setLock i l⟩

end ResizeFree

abbrev ReachableResizeFree : System T → Prop :=
  Reachable (fun s ↦ Initial s ∧ s.table.allowResize = 0) fun s s' ↦ ∃ t a, Step t a s s'

variable [Fintype T]

theorem ReachableResizeFree.resizeFree (h : ReachableResizeFree s) :
    ∃ chain m order, ResizeFree s chain m order := by
  refine h.invariant_of (J := fun s ↦ ∃ chain, Inv s chain)
    (I := fun s ↦ ∃ chain m order, ResizeFree s chain m order) (fun s hs ↦ ?_) (fun s hs ↦ ?_)
    fun s s' hI hR hs ↦ ?_
  · exact ReachableThreads.inv (hs.of_init fun s h ↦ h.1)
  · exact ⟨_, _, _, hs.1.resizeFree hs.2⟩
  · obtain ⟨chain, I⟩ := hI
    obtain ⟨chain', m, order, R⟩ := hR
    obtain ⟨t, a, hs⟩ := hs
    obtain rfl := I.table.chains.unique R.table.chains
    exact R.step I hs

/-- Once all calls have returned, some order of them that keeps to the order in time explains
their results, and one insert of each inserted key has returned 0. -/
theorem resize_free_linearizable (h : ReachableResizeFree s) (hret : ∀ t, s.calls t = none) :
    Linearizable mapObject (fun _ ↦ none) s.done ∧
      ∀ key, (s.done.any fun c ↦ insertsKey key c.op) →
        s.done.countP (fun c ↦ insertsKey key c.op && c.result == 0) = 1 := by
  obtain ⟨chain, m, order, R⟩ := h.resizeFree
  have hlin := R.effects.linearizable fun t ↦ by simp [System.pending, hret]
  refine ⟨hlin, fun key hkey ↦ ?_⟩
  obtain ⟨order', hperm, hlegal, -⟩ := hlin
  rw [← hperm.countP_eq]
  have hmem : (order'.map fun c ↦ (c.op, c.result)).any fun c ↦ insertsKey key c.1 := by
    rw [List.any_map, hperm.any_eq]
    exact hkey
  have hcount := countP_inserts hlegal rfl hmem
  rwa [List.countP_map] at hcount

def sameKey : System (Fin 2) :=
  ⟨emptyTable 0, false, none, fun _ ↦ Rwlock.initial, fun _ ↦ none,
    fun t ↦ [.insert (keyA 1) (t + 1)], []⟩

theorem sameKey_initial : Initial sameKey ∧ sameKey.table.allowResize = 0 :=
  ⟨⟨⟨1, 0, by decide, htableInit_one⟩, rfl, rfl, fun _ ↦ rfl, fun _ ↦ rfl,
    fun t r hr ↦ by rw [List.mem_singleton.mp hr]; exact keyA_ascii 1, rfl⟩, rfl⟩

/-- The second thread finds the slot locked and sleeps until the first one has appended its node. -/
theorem sameKey_run : ∃ s : System (Fin 2), ReachableResizeFree s ∧ (∀ t, s.calls t = none) ∧
    s.done = [⟨.insert (keyA 1) 2, 1, 0, 0⟩, ⟨.insert (keyA 1) 1, 0, 0, 1⟩] := by
  have h : ReachableResizeFree sameKey := .start sameKey_initial
  have h := h.next ⟨0, .run, .start rfl rfl rfl⟩
  have h := h.next ⟨1, .run, .start rfl rfl rfl⟩
  have h := h.next ⟨0, .run, .advance rfl rfl⟩
  have h := h.next ⟨0, .run, .advance rfl rfl⟩
  have h := h.next ⟨1, .run, .advance rfl rfl⟩
  have h := h.next ⟨1, .run, .advance rfl rfl⟩
  have h := h.next ⟨0, .run, .acquire rfl rfl .wlock (.wlock rfl)⟩
  have h := h.next ⟨1, .run, .acquire rfl rfl .wlock (.wlock rfl)⟩
  have h := h.next ⟨0, .run, .advance rfl rfl⟩
  have h := h.next ⟨0, .run, .advance rfl rfl⟩
  have h := h.next ⟨0, .run, .advance rfl rfl⟩
  have h := h.next ⟨0, .run, .release rfl rfl (.wunlock rfl (by decide)
    (Rwlock.SignalWriter.wake (u := 1) rfl))⟩
  have h := h.next ⟨1, .run, .acquire rfl rfl .wlockWake (.wlockWake rfl)⟩
  have h := h.next ⟨1, .run, .advance rfl rfl⟩
  have h := h.next ⟨1, .run, .advance rfl rfl⟩
  have h := h.next ⟨1, .run, .release rfl rfl (.wunlock rfl (by decide) rfl)⟩
  have h := h.next ⟨1, .run, .advance rfl rfl⟩
  have h := h.next ⟨0, .run, .advance rfl rfl⟩
  have h := h.next ⟨0, .run, .advance rfl rfl⟩
  exact ⟨_, h, by decide, rfl⟩

theorem resize_free_linearizable_same_key : ∃ s : System (Fin 2), ReachableResizeFree s ∧
    s.done = [⟨.insert (keyA 1) 2, 1, 0, 0⟩, ⟨.insert (keyA 1) 1, 0, 0, 1⟩] ∧
    Linearizable mapObject (fun _ ↦ none) s.done := by
  obtain ⟨s, h, hret, hdone⟩ := sameKey_run
  exact ⟨s, h, hdone, (resize_free_linearizable h hret).1⟩

end CsoLabs.Hashtable.Threads
