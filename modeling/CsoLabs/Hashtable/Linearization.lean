import CsoLabs.Hashtable.Concurrent

namespace CsoLabs.Hashtable

open Foundation CInt

def Call.Holds (c : Call) (i : ℕ) (mode : Mode) : Prop :=
  match c.pc with
  | .unlockMu slot => i = lockIndex slot ∧ mode = c.request.mode
  | .body slot => i = lockIndex slot ∧ mode = c.request.mode
  | .unlockSlot slot _ => i = lockIndex slot ∧ mode = c.request.mode
  | .lockAll _ n => i < n ∧ mode = .write
  | .rehash _ => i < NUM_LOCKS ∧ mode = .write
  | .unlockAll n => n ≤ i ∧ i < NUM_LOCKS ∧ mode = .write
  | _ => False

def Call.PcOk (c : Call) (size : ℤ) : Prop :=
  match c.pc with
  | .unlockMu slot => slot = c.hcode.tmod size
  | .body slot => slot = c.hcode.tmod size
  | .lockAll newSize _ => 0 < newSize ∧ newSize < 2 ^ 31
  | .rehash newSize => 0 < newSize ∧ newSize < 2 ^ 31
  | _ => True

variable {T : Type} {s s' s₁ : System T} {t u : T} {c c' : Call} {chain chain' : ℕ → List ℕ}
  {m m' : CString → Option ℕ} {r : Request} {pc : Pc} {i : ℕ} {mode : Mode}

structure CallOk (s : System T) (c : Call) : Prop where
  ascii : c.request.key.Ascii
  hash : hashcode c.request.key = some c.hcode
  before : ∀ e ∈ c.before, e ∈ s.done.map Completed.event
  result : ∀ key r val, c.result = some (.lookup key r) → .insert key val 0 ∈ c.before → r = val
  pc : c.PcOk s.table.size

/-- An insert of `key` that has found it missing, among the calls that have returned and
those that are about to. -/
def Win (s : System T) (key : CString) (val : ℕ) : ℕ ⊕ T → Prop
  | .inl i => ∃ d, s.done[i]? = some d ∧ d.event = .insert key val 0
  | .inr t => ∃ c, s.calls t = some c ∧ c.result = some (.insert key val 0)

/-- The table holds the map `m`, to which every insert that wins contributes its own key. -/
structure Inv (s : System T) (chain : ℕ → List ℕ) (m : CString → Option ℕ) : Prop where
  table : TableOk s.table chain m
  calls : ∀ t c, s.calls t = some c → CallOk s c
  locks : ∀ t c i mode, s.calls t = some c → c.Holds i mode → (s.rwlSlot i).Held t mode
  wins : ∀ key val src, Win s key val src → m key = some val
  unique : ∀ key val val' src src', Win s key val src → Win s key val' src' → src = src'
  lookups : ∀ d ∈ s.done, ∀ key r val, d.event = .lookup key r →
    .insert key val 0 ∈ d.before → r = val

structure OnlyLocks (s s₁ : System T) (t : T) : Prop where
  table : s₁.table = s.table
  calls : s₁.calls = s.calls
  done : s₁.done = s.done
  frame : ∀ u ≠ t, ∀ i mode, (s.rwlSlot i).Held u mode → (s₁.rwlSlot i).Held u mode

theorem OnlyLocks.of_slots (htable : s₁.table = s.table) (hcalls : s₁.calls = s.calls)
    (hdone : s₁.done = s.done) (h : s₁.rwlSlot = s.rwlSlot) : OnlyLocks s s₁ t :=
  ⟨htable, hcalls, hdone, fun _ _ _ _ hu ↦ h ▸ hu⟩

theorem OnlyLocks.refl : OnlyLocks s s t := .of_slots rfl rfl rfl rfl

theorem OnlyLocks.lockMu (h : s.lockMu t = some s₁) : OnlyLocks s s₁ t := by
  rw [System.lockMu] at h
  split_ifs at h
  obtain rfl := Option.some.inj h
  exact .of_slots rfl rfl rfl rfl

theorem OnlyLocks.unlockMu : OnlyLocks s s.unlockMu t := .of_slots rfl rfl rfl rfl

theorem Initial.inv (h : Initial s) : Inv s (fun _ ↦ []) fun _ ↦ none := by
  obtain ⟨sz, a, hsz, -, hinit⟩ := h.table
  have hwin : ∀ key val src, ¬ Win s key val src := by
    rintro key val (i | u) ⟨_, hx, -⟩
    · simp [h.done] at hx
    · simp [h.calls] at hx
  exact ⟨(htableInit_spec (by omega) hinit).1, by simp [h.calls], by simp [h.calls],
    fun key val src hw ↦ absurd hw (hwin key val src),
    fun key val _ src _ hw ↦ absurd hw (hwin key val src), by simp [h.done]⟩

theorem Inv.consistent (I : Inv s chain m) : Consistent s where
  wellFormed := I.table.wellFormed
  lookups := I.lookups
  inserts i j d d' key val val' hd hd' he he' :=
    Sum.inl.inj (I.unique key val val' (.inl i) (.inl j) ⟨d, hd, he⟩ ⟨d', hd', he'⟩)

variable [DecidableEq T]

structure Moves (s s' : System T) (t : T) (c' : Call) : Prop where
  calls : s'.calls = Function.update s.calls t (some c')
  done : s'.done = s.done
  frame : ∀ u ≠ t, ∀ i mode, (s.rwlSlot i).Held u mode → (s'.rwlSlot i).Held u mode
  own : ∀ i mode, c'.Holds i mode → (s'.rwlSlot i).Held t mode

theorem Moves.calls_of_ne (h : Moves s s' t c') (hu : u ≠ t) : s'.calls u = s.calls u := by
  rw [h.calls, Function.update_of_ne hu]

theorem Moves.calls_self (h : Moves s s' t c') : s'.calls t = some c' := by
  rw [h.calls, Function.update_self]

theorem Inv.moves (I : Inv s chain m) (hc : s.calls t = some c) (c' : Call) (h : Moves s s' t c')
    (hT : TableOk s'.table chain' m') (hok : CallOk s' c')
    (hpc : ∀ u ≠ t, ∀ c, s.calls u = some c → c.PcOk s'.table.size)
    (hm : ∀ key val, m key = some val → m' key = some val)
    (hwin : ∀ key val, c'.result = some (.insert key val 0) →
      c.result = c'.result ∨ m key = none ∧ m' key = some val) : Inv s' chain' m' := by
  have hold : ∀ key val src, Win s' key val src → Win s key val src ∨
      src = .inr t ∧ m key = none ∧ m' key = some val := by
    rintro key val (i | u) hw
    · obtain ⟨d, hd, he⟩ := hw
      exact .inl ⟨d, by rwa [← h.done], he⟩
    · obtain ⟨c₁, hc₁, he⟩ := hw
      by_cases hu : u = t
      · subst hu
        obtain rfl : c' = c₁ := Option.some.inj (h.calls_self.symm.trans hc₁)
        rcases hwin key val he with hr | hnew
        · exact .inl ⟨c, hc, hr.trans he⟩
        · exact .inr ⟨rfl, hnew⟩
      · exact .inl ⟨c₁, by rwa [← h.calls_of_ne hu], he⟩
  refine ⟨hT, fun u c₁ hc₁ ↦ ?_, fun u c₁ i mode hc₁ hi ↦ ?_, fun key val src hw ↦ ?_,
    fun key val val' src src' hw hw' ↦ ?_, fun d hd ↦ I.lookups d (by rwa [← h.done])⟩
  · by_cases hu : u = t
    · subst hu
      obtain rfl : c' = c₁ := Option.some.inj (h.calls_self.symm.trans hc₁)
      exact hok
    · rw [h.calls_of_ne hu] at hc₁
      have hc₂ := I.calls u c₁ hc₁
      exact ⟨hc₂.ascii, hc₂.hash, by rw [h.done]; exact hc₂.before, hc₂.result, hpc u hu c₁ hc₁⟩
  · by_cases hu : u = t
    · subst hu
      obtain rfl : c' = c₁ := Option.some.inj (h.calls_self.symm.trans hc₁)
      exact h.own i mode hi
    · rw [h.calls_of_ne hu] at hc₁
      exact h.frame u hu i mode (I.locks u c₁ i mode hc₁ hi)
  · rcases hold key val src hw with hw | ⟨-, -, hv⟩
    · exact hm key val (I.wins key val src hw)
    · exact hv
  · rcases hold key val src hw with hw | ⟨rfl, hnone, -⟩ <;>
      rcases hold key val' src' hw' with hw' | ⟨rfl, hnone', -⟩
    · exact I.unique key val val' src src' hw hw'
    · cases hnone'.symm.trans (I.wins key val src hw)
    · cases hnone.symm.trans (I.wins key val' src' hw')
    · rfl

theorem Inv.goto (I : Inv s chain m) (hc : s.calls t = some c) (h : OnlyLocks s s₁ t)
    (hpc : Call.PcOk { c with pc := pc } s.table.size)
    (own : ∀ i mode, Call.Holds { c with pc := pc } i mode → (s₁.rwlSlot i).Held t mode) :
    Inv (s₁.goto t c pc) chain m := by
  have hcall := I.calls t c hc
  refine I.moves hc { c with pc := pc } ⟨?_, h.done, h.frame, own⟩ ?_ ⟨hcall.ascii,
    hcall.hash, ?_, hcall.result, ?_⟩ (fun u _ c₁ hc₁ ↦ ?_) (fun _ _ h ↦ h) fun _ _ _ ↦ .inl rfl
  · rw [System.goto, h.calls]
  · exact h.table ▸ I.table
  · exact h.done ▸ hcall.before
  · exact h.table ▸ hpc
  · exact h.table ▸ (I.calls u c₁ hc₁).pc

theorem OnlyLocks.lockSlot (h : s.lockSlot t i mode = some s₁) : OnlyLocks s s₁ t ∧
    (s₁.rwlSlot i).Held t mode ∧
      ∀ j mode, (s.rwlSlot j).Held t mode → (s₁.rwlSlot j).Held t mode := by
  obtain ⟨l, hl, h⟩ := Option.bind_eq_some_iff.mp h
  obtain rfl := Option.some.inj h
  have hframe : ∀ u j mode, (s.rwlSlot j).Held u mode →
      (Function.update s.rwlSlot i l j).Held u mode := fun u j mode hu ↦ by
    by_cases hj : j = i
    · subst hj
      rw [Function.update_self]
      exact Holders.acquire_frame hl hu
    · rwa [Function.update_of_ne hj]
  refine ⟨⟨rfl, rfl, rfl, fun u _ ↦ hframe u⟩, ?_, hframe t⟩
  simp only [Function.update_self]
  exact Holders.acquire_held hl

theorem OnlyLocks.unlockSlot (h : (s.rwlSlot i).Held t mode) :
    OnlyLocks s (s.unlockSlot t i) t := by
  refine ⟨rfl, rfl, rfl, fun u hu j mode' hj ↦ ?_⟩
  by_cases hji : j = i
  · subst hji
    simp only [System.unlockSlot, Function.update_self]
    exact Holders.release_frame h hu hj
  · simpa only [System.unlockSlot, Function.update_of_ne hji] using hj

theorem unlockSlot_of_ne {j : ℕ} (h : j ≠ i) : (s.unlockSlot t i).rwlSlot j = s.rwlSlot j :=
  Function.update_of_ne h _ _

/-- The critical section at the slot of the key is where a call takes effect. -/
theorem Inv.body (I : Inv s chain m) (hc : s.calls t = some c) {slot : ℤ} (hpc : c.pc = .body slot)
    (h : s.body t c slot = some s') : ∃ chain' m', Inv s' chain' m' := by
  have hcall := I.calls t c hc
  have hpos := hashcode_nonneg hcall.ascii hcall.hash
  have hslot : slot = c.hcode.tmod s.table.size := by simpa [Call.PcOk, hpc] using hcall.pc
  have hheld : (s.rwlSlot (lockIndex slot)).Held t c.request.mode :=
    I.locks t c _ _ hc (by simp [Call.Holds, hpc])
  have hown : ∀ e col i mode, Call.Holds { c with result := e, pc := .unlockSlot slot col } i mode →
      (s.rwlSlot i).Held t mode := by
    rintro e col i mode ⟨rfl, rfl⟩
    exact hheld
  have hpcs : ∀ u ≠ t, ∀ c, s.calls u = some c → c.PcOk s.table.size := fun u _ c hc ↦
    (I.calls u c hc).pc
  subst hslot
  rw [System.body] at h
  split at h
  next key val hr =>
    have hh : hashcode key = some c.hcode := by simpa only [hr, Request.key] using hcall.hash
    obtain ⟨⟨col, t₁⟩, ht₁, h⟩ := Option.bind_eq_some_iff.mp h
    obtain rfl := Option.some.inj h
    rcases I.table.insertAt hh hpos ht₁ with ⟨-, rfl, rfl⟩ | ⟨hm, rfl, chain₁, T₁, hsize, -⟩
    · refine ⟨chain, m, I.moves hc _ ⟨rfl, rfl, fun _ _ _ _ hu ↦ hu, hown _ _⟩ I.table
        ⟨hcall.ascii, hcall.hash, hcall.before, ?_, trivial⟩ hpcs (fun _ _ hk ↦ hk) ?_⟩
      · simp
      · simp
    · refine ⟨chain₁, _, I.moves hc _ ⟨rfl, rfl, fun _ _ _ _ hu ↦ hu, hown _ _⟩ T₁
        ⟨hcall.ascii, hcall.hash, hcall.before, ?_, trivial⟩
        (fun u hu c₁ hc₁ ↦ hsize ▸ hpcs u hu c₁ hc₁) (fun k v hk ↦ ?_) fun k v hk ↦ .inr ?_⟩
      · simp
      · rw [Function.update_of_ne, hk]
        rintro rfl
        cases hm.symm.trans hk
      · simp only [reduceCtorEq, if_false, Option.some_inj, Event.insert.injEq, and_true] at hk
        obtain ⟨rfl, rfl⟩ := hk
        exact ⟨hm, Function.update_self ..⟩
  next key hr =>
    have hh : hashcode key = some c.hcode := by simpa only [hr, Request.key] using hcall.hash
    obtain ⟨val, hval, h⟩ := Option.bind_eq_some_iff.mp h
    obtain rfl := Option.some.inj h
    rw [I.table.lookupAt hh hpos, Option.some_inj] at hval
    refine ⟨chain, m, I.moves hc _ ⟨rfl, rfl, fun _ _ _ _ hu ↦ hu, hown _ _⟩ I.table
      ⟨hcall.ascii, hcall.hash, hcall.before, ?_, trivial⟩ hpcs (fun _ _ hk ↦ hk) ?_⟩
    · intro k r v hk hv
      simp only [Option.some_inj, Event.lookup.injEq] at hk
      obtain ⟨rfl, rfl⟩ := hk
      obtain ⟨d, hd, hdv⟩ := List.mem_map.mp (hcall.before _ hv)
      obtain ⟨j, hj⟩ := List.getElem?_of_mem hd
      rw [← hval, I.wins key v (.inl j) ⟨d, hj, hdv⟩]
      rfl
    · simp

theorem Inv.rehash (I : Inv s chain m) (hc : s.calls t = some c) {size : ℤ}
    (hpc : c.pc = .rehash size) {table : Htable} (h : rehash s.table size = some table) :
    ∃ chain', Inv ({ s with table := table }.goto t c (.unlockAll 0)) chain' m := by
  have hcall := I.calls t c hc
  have hsize : 0 < size ∧ size < 2 ^ 31 := by simpa [Call.PcOk, hpc] using hcall.pc
  have hall : ∀ i < NUM_LOCKS, (s.rwlSlot i).Held t .write := fun i hi ↦
    I.locks t c i .write hc (by simp [Call.Holds, hpc, hi])
  have hout : ∀ u ≠ t, ∀ c₁, s.calls u = some c₁ → ∀ slot, slot = c₁.hcode.tmod s.table.size →
      ∀ mode, ¬ c₁.Holds (lockIndex slot) mode := by
    rintro u hu c₁ hc₁ slot rfl mode hmode
    have hok := I.calls u c₁ hc₁
    have hlt := lockIndex_lt (Int.tmod_nonneg s.table.size (hashcode_nonneg hok.ascii hok.hash))
    exact hu ((hall _ hlt).alone (I.locks u c₁ _ mode hc₁ hmode)).1
  obtain ⟨t₁, chain₁, ht₁, T₁, -⟩ := I.table.rehash hsize.1 hsize.2
  obtain rfl : table = t₁ := Option.some.inj (h.symm.trans ht₁)
  refine ⟨chain₁, I.moves hc { c with pc := .unlockAll 0 } ⟨rfl, rfl, fun _ _ _ _ hu ↦ hu, ?_⟩
    T₁ ⟨hcall.ascii, hcall.hash, hcall.before, hcall.result, trivial⟩ (fun u hu c₁ hc₁ ↦ ?_)
    (fun _ _ hk ↦ hk) fun _ _ _ ↦ .inl rfl⟩
  · rintro i mode ⟨-, hi, rfl⟩
    exact hall i hi
  · have hpc₁ := (I.calls u c₁ hc₁).pc
    cases hpcu : c₁.pc with
    | unlockMu slot | body slot =>
      simp only [Call.PcOk, hpcu] at hpc₁
      exact absurd (by simp [Call.Holds, hpcu]) (hout u hu c₁ hc₁ slot hpc₁ c₁.request.mode)
    | lockAll | rehash => simpa only [Call.PcOk, hpcu] using hpc₁
    | _ => simp [Call.PcOk, hpcu]

theorem Inv.ret (I : Inv s chain m) (hc : s.calls t = some c) {e : Event} (he : c.result = some e) :
    Inv { s with
      calls := Function.update s.calls t none
      done := s.done ++ [⟨e, c.before⟩] } chain m := by
  have hcalls : ∀ u c₁, Function.update s.calls t none u = some c₁ → u ≠ t ∧ s.calls u = some c₁ :=
    fun u c₁ hc₁ ↦ by
      by_cases hu : u = t
      · subst hu
        rw [Function.update_self] at hc₁
        cases hc₁
      · exact ⟨hu, by rwa [Function.update_of_ne hu] at hc₁⟩
  have hold : ∀ key val src, Win { s with
      calls := Function.update s.calls t none
      done := s.done ++ [⟨e, c.before⟩] } key val src →
      (src = .inl s.done.length ∧ Win s key val (.inr t)) ∨ (src ≠ .inr t ∧ Win s key val src) := by
    rintro key val (i | u) hw
    · obtain ⟨d, hd, hev⟩ := hw
      rcases Nat.lt_or_ge i s.done.length with hi | hi
      · exact .inr ⟨by simp, d, by rwa [List.getElem?_append_left hi] at hd, hev⟩
      · rw [List.getElem?_append_right hi, List.getElem?_singleton] at hd
        split_ifs at hd with hlast
        obtain rfl := Option.some.inj hd
        exact .inl ⟨by rw [show i = s.done.length by omega], c, hc, he.trans (congrArg some hev)⟩
    · obtain ⟨c₁, hc₁, hr⟩ := hw
      obtain ⟨hu, hc₁⟩ := hcalls u c₁ hc₁
      exact .inr ⟨by simpa using hu, c₁, hc₁, hr⟩
  refine ⟨I.table, fun u c₁ hc₁ ↦ ?_, fun u c₁ i mode hc₁ ↦ I.locks u c₁ i mode (hcalls u c₁ hc₁).2,
    fun key val src hw ↦ ?_, fun key val val' src src' hw hw' ↦ ?_, fun d hd key r val hev hv ↦ ?_⟩
  · obtain ⟨h₁, h₂, h₃, h₄, h₅⟩ := I.calls u c₁ (hcalls u c₁ hc₁).2
    exact ⟨h₁, h₂, fun e' he' ↦ by simpa using .inl (List.mem_map.mp (h₃ e' he')), h₄, h₅⟩
  · rcases hold key val src hw with ⟨-, hw⟩ | ⟨-, hw⟩ <;> exact I.wins key val _ hw
  · rcases hold key val src hw with ⟨rfl, hs⟩ | ⟨hne, hs⟩ <;>
      rcases hold key val' src' hw' with ⟨rfl, hs'⟩ | ⟨hne', hs'⟩
    · rfl
    · exact absurd (I.unique key val' val _ _ hs' hs) hne'
    · exact absurd (I.unique key val val' _ _ hs hs') hne
    · exact I.unique key val val' src src' hs hs'
  · rcases List.mem_append.mp hd with hd | hd
    · exact I.lookups d hd key r val hev hv
    · obtain rfl := List.mem_singleton.mp hd
      exact (I.calls t c hc).result key r val (he.trans (congrArg some hev)) hv

theorem Inv.invoke (I : Inv s chain m) (hk : r.key.Ascii) (h : s.invoke t r = some s') :
    Inv s' chain m := by
  rw [System.invoke] at h
  split_ifs at h with hnone
  obtain ⟨hcode, hh, h⟩ := Option.bind_eq_some_iff.mp h
  obtain rfl := Option.some.inj h
  set c : Call := ⟨r, hcode, s.done.map Completed.event, none, .readFlag⟩ with hcdef
  have hcalls : ∀ u c₁, Function.update s.calls t (some c) u = some c₁ →
      u = t ∧ c₁ = c ∨ s.calls u = some c₁ := fun u c₁ hc₁ ↦ by
    by_cases hu : u = t
    · subst hu
      rw [Function.update_self] at hc₁
      exact .inl ⟨rfl, (Option.some.inj hc₁).symm⟩
    · exact .inr (by rwa [Function.update_of_ne hu] at hc₁)
  have hold : ∀ key val src, Win { s with calls := Function.update s.calls t (some c) } key val src →
      Win s key val src := by
    rintro key val (i | u) hw
    · exact hw
    · obtain ⟨c₁, hc₁, hr⟩ := hw
      rcases hcalls u c₁ hc₁ with ⟨-, rfl⟩ | hc₁
      · cases hr
      · exact ⟨c₁, hc₁, hr⟩
  refine ⟨I.table, fun u c₁ hc₁ ↦ ?_, fun u c₁ i mode hc₁ hi ↦ ?_,
    fun key val src hw ↦ I.wins key val src (hold key val src hw),
    fun key val val' src src' hw hw' ↦
      I.unique key val val' src src' (hold key val src hw) (hold key val' src' hw'), I.lookups⟩
  · rcases hcalls u c₁ hc₁ with ⟨-, rfl⟩ | hc₁
    · exact ⟨hk, hh, fun _ he ↦ he, by simp [hcdef], trivial⟩
    · obtain ⟨h₁, h₂, h₃, h₄, h₅⟩ := I.calls u c₁ hc₁
      exact ⟨h₁, h₂, h₃, h₄, h₅⟩
  · rcases hcalls u c₁ hc₁ with ⟨-, rfl⟩ | hc₁
    · exact absurd hi (by simp [Call.Holds, hcdef])
    · exact I.locks u c₁ i mode hc₁ hi

theorem Inv.advance (I : Inv s chain m) (hc : s.calls t = some c) (hf : FreshSlot s t)
    (h : s.advance t c = some s') : ∃ chain' m', Inv s' chain' m' := by
  have hcall := I.calls t c hc
  cases hpc : c.pc with
  | readFlag =>
    simp only [System.advance, hpc, Option.some_inj] at h
    obtain rfl := h
    refine ⟨chain, m, I.goto hc .refl ?_ ?_⟩ <;> split_ifs <;> simp [Call.PcOk, Call.Holds]
  | lockMu =>
    simp only [System.advance, hpc] at h
    obtain ⟨s₁, hs₁, h⟩ := Option.bind_eq_some_iff.mp h
    obtain rfl := Option.some.inj h
    exact ⟨chain, m, I.goto hc (.lockMu hs₁) trivial (by simp [Call.Holds])⟩
  | readSize globalLock =>
    simp only [System.advance, hpc] at h
    obtain ⟨slot, -, h⟩ := Option.bind_eq_some_iff.mp h
    obtain rfl := Option.some.inj h
    exact ⟨chain, m, I.goto hc .refl trivial (by simp [Call.Holds])⟩
  | lockSlot slot globalLock =>
    simp only [System.advance, hpc] at h
    obtain ⟨s₁, hs₁, h⟩ := Option.bind_eq_some_iff.mp h
    obtain rfl := Option.some.inj h
    obtain ⟨hlocks, hheld, -⟩ := OnlyLocks.lockSlot hs₁
    have hslot : slot = c.hcode.tmod s.table.size := hf c hc slot (by simp [Pc.slotToLock, hpc])
    refine ⟨chain, m, I.goto hc hlocks ?_ ?_⟩
    · split_ifs <;> exact hslot
    · split_ifs <;> rintro i mode ⟨rfl, rfl⟩ <;> exact hheld
  | unlockMu slot =>
    simp only [System.advance, hpc, Option.some_inj] at h
    obtain rfl := h
    refine ⟨chain, m, I.goto hc .unlockMu ?_ fun i mode hi ↦ ?_⟩
    · simpa [Call.PcOk, hpc] using hcall.pc
    · exact I.locks t c i mode hc (by simpa [Call.Holds, hpc] using hi)
  | body slot =>
    simp only [System.advance, hpc] at h
    exact I.body hc hpc h
  | unlockSlot slot collision =>
    have hheld := I.locks t c (lockIndex slot) c.request.mode hc (by simp [Call.Holds, hpc])
    cases collision <;> simp only [System.advance, hpc, Option.some_inj] at h <;> obtain rfl := h <;>
      exact ⟨chain, m, I.goto hc (.unlockSlot hheld) trivial (by simp [Call.Holds])⟩
  | checkResize collision =>
    simp only [System.advance, hpc, Option.some_inj] at h
    obtain rfl := h
    refine ⟨chain, m, I.goto hc .refl ?_ ?_⟩ <;> split_ifs <;> simp [Call.PcOk, Call.Holds]
  | setFlag | clearFlag =>
    simp only [System.advance, hpc, Option.some_inj] at h
    obtain rfl := h
    exact ⟨chain, m, I.goto hc (.of_slots rfl rfl rfl rfl) trivial (by simp [Call.Holds])⟩
  | resizeMu =>
    simp only [System.advance, hpc] at h
    obtain ⟨s₁, hs₁, h⟩ := Option.bind_eq_some_iff.mp h
    obtain rfl := Option.some.inj h
    exact ⟨chain, m, I.goto hc (.lockMu hs₁) trivial (by simp [Call.Holds])⟩
  | newSize =>
    simp only [System.advance, hpc] at h
    obtain ⟨size, hsize, h⟩ := Option.bind_eq_some_iff.mp h
    obtain rfl := Option.some.inj h
    exact ⟨chain, m, I.goto hc .refl (I.table.newSize_bounds hsize) (by simp [Call.Holds])⟩
  | lockAll size n =>
    have hheld : ∀ i < n, (s.rwlSlot i).Held t .write := fun i hi ↦
      I.locks t c i .write hc (by simp [Call.Holds, hpc, hi])
    have hsize : 0 < size ∧ size < 2 ^ 31 := by simpa [Call.PcOk, hpc] using hcall.pc
    simp only [System.advance, hpc] at h
    split_ifs at h with hn
    · obtain ⟨s₁, hs₁, h⟩ := Option.bind_eq_some_iff.mp h
      obtain rfl := Option.some.inj h
      obtain ⟨hlocks, hnew, hkeep⟩ := OnlyLocks.lockSlot hs₁
      refine ⟨chain, m, I.goto hc hlocks hsize ?_⟩
      rintro i mode ⟨hi, rfl⟩
      rcases Nat.lt_succ_iff_lt_or_eq.mp hi with hi | rfl
      · exact hkeep i .write (hheld i hi)
      · exact hnew
    · obtain rfl := Option.some.inj h
      refine ⟨chain, m, I.goto hc .refl hsize ?_⟩
      rintro i mode ⟨hi, rfl⟩
      exact hheld i (by omega)
  | rehash size =>
    simp only [System.advance, hpc] at h
    obtain ⟨table, htable, h⟩ := Option.bind_eq_some_iff.mp h
    obtain rfl := Option.some.inj h
    obtain ⟨chain', I'⟩ := I.rehash hc hpc htable
    exact ⟨chain', m, I'⟩
  | unlockAll n =>
    have hheld : ∀ i, n ≤ i → i < NUM_LOCKS → (s.rwlSlot i).Held t .write := fun i hi hi' ↦
      I.locks t c i .write hc (by simp [Call.Holds, hpc, hi, hi'])
    simp only [System.advance, hpc] at h
    split_ifs at h with hn
    · obtain rfl := Option.some.inj h
      refine ⟨chain, m, I.goto hc (.unlockSlot (hheld n le_rfl hn)) trivial ?_⟩
      rintro i mode ⟨hi, hi', rfl⟩
      rw [unlockSlot_of_ne (by omega)]
      exact hheld i (by omega) hi'
    · obtain rfl := Option.some.inj h
      exact ⟨chain, m, I.goto hc .unlockMu trivial (by simp [Call.Holds])⟩
  | ret =>
    simp only [System.advance, hpc] at h
    obtain ⟨e, he, h⟩ := Option.bind_eq_some_iff.mp h
    obtain rfl := Option.some.inj h
    exact ⟨chain, m, I.ret hc he⟩

theorem Inv.act (I : Inv s chain m) {a : Option Request} (hf : FreshSlot s t)
    (h : s.act t a = some s') : ∃ chain' m', Inv s' chain' m' := by
  cases a with
  | some r =>
    rw [System.act] at h
    split_ifs at h with hk
    exact ⟨chain, m, I.invoke hk h⟩
  | none =>
    obtain ⟨c, hc, h⟩ := Option.bind_eq_some_iff.mp h
    exact I.advance hc hf h

/-- As long as no resize comes between the slot of a call and its slot lock, any number of
threads may insert, look up and resize: the chains stay well formed, a lookup finds what was
inserted before it started, and no key is inserted twice. -/
theorem consistent_of_fresh (h : ReachableFresh s) : Consistent s := by
  obtain ⟨chain, m, I⟩ := h.invariant (I := fun s ↦ ∃ chain m, Inv s chain m)
    (fun _ h ↦ ⟨_, _, h.inv⟩) fun _ _ ⟨_, _, I⟩ ⟨_, _, hf, hs⟩ ↦ I.act hf hs
  exact I.consistent

theorem consistent_of_fresh_two_calls :
    ∃ s : System (Fin 2), ReachableFresh s ∧ s.done.length = 2 ∧ Consistent s := by
  have hrun : ((exec FreshSlot twoThreads
      (run 0 (.insert (keyOf [3]) 7) 7 ++ run 1 (.lookup (keyOf [3])) 6)).map
      fun s ↦ s.done.length) = some 2 := by decide +kernel
  obtain ⟨s, hs, hlen⟩ := Option.map_eq_some_iff.mp hrun
  have h : ReachableFresh s := exec_reachable (.start twoThreads_initial) hs
  exact ⟨s, h, hlen, consistent_of_fresh h⟩

end CsoLabs.Hashtable
