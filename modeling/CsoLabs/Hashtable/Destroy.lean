import CsoLabs.Hashtable.ResizeFree

namespace CsoLabs.Hashtable

open Foundation CInt

variable {t t' : Htable} {chain : ℕ → List ℕ} {nodes : ℕ → Option Node} {p x fuel : ℕ}
  {xs ys : List ℕ}

/-- `free` takes only what `malloc` has returned and nobody has given back. -/
def freeNode (nodes : ℕ → Option Node) (p : ℕ) : Option (ℕ → Option Node) := do
  let _ ← nodes p
  return Function.update nodes p none

/-- The link is read before the node is given back, and followed first. -/
def freeLinkedList : ℕ → ℕ → (ℕ → Option Node) → Option (ℕ → Option Node)
  | 0, _, _ => none
  | fuel + 1, n, nodes =>
    if n ≠ NULL then do
      let node ← nodes n
      let nodes ← freeLinkedList fuel node.next nodes
      freeNode nodes n
    else some nodes

def destroyLoop (t : Htable) : ℕ → ℤ → (ℕ → Option Node) → Option (ℕ → Option Node)
  | 0, _, _ => none
  | fuel + 1, i, nodes =>
    if i < t.size then do
      let head ← readStore t.store i
      let nodes ← freeLinkedList (t.fresh + 1) head nodes
      let i ← int (i + 1)
      destroyLoop t fuel i nodes
    else some nodes

/-- The nodes that are still allocated after `htable_destroy`. -/
def htableDestroy (t : Htable) : Option (ℕ → Option Node) :=
  destroyLoop t (t.size.toNat + 1) 0 t.nodes

def cleared (nodes : ℕ → Option Node) (xs : List ℕ) (x : ℕ) : Option Node :=
  if x ∈ xs then none else nodes x

theorem cleared_nil : cleared nodes [] = nodes := by
  funext x
  exact if_neg List.not_mem_nil

theorem cleared_of_mem (hx : x ∈ xs) : cleared nodes xs x = none := if_pos hx

theorem cleared_of_notMem (hx : x ∉ xs) : cleared nodes xs x = nodes x := if_neg hx

theorem cleared_cleared : cleared (cleared nodes xs) ys = cleared nodes (xs ++ ys) := by
  funext x
  by_cases hx : x ∈ xs
  · rw [cleared_of_mem (List.mem_append_left ys hx)]
    by_cases hy : x ∈ ys
    · exact cleared_of_mem hy
    · rw [cleared_of_notMem hy]
      exact cleared_of_mem hx
  · by_cases hy : x ∈ ys
    · rw [cleared_of_mem hy, cleared_of_mem (List.mem_append_right xs hy)]
    · rw [cleared_of_notMem hy, cleared_of_notMem hx, cleared_of_notMem]
      simp [hx, hy]

theorem update_cleared : Function.update (cleared nodes xs) x none = cleared nodes (x :: xs) := by
  funext y
  by_cases hy : y = x
  · rw [hy, Function.update_self, cleared_of_mem List.mem_cons_self]
  · rw [Function.update_of_ne hy]
    simp [cleared, hy]

/-- The nodes behind the one at hand are other nodes, so it is still there when its turn comes. -/
theorem freeLinkedList_spec (h : Chain (nextOf nodes) NULL p xs) (hf : xs.length < fuel) :
    freeLinkedList fuel p nodes = some (cleared nodes xs) := by
  induction xs generalizing p fuel with
  | nil =>
    cases fuel with
    | zero => omega
    | succ fuel =>
      have hp : p = NULL := h
      rw [freeLinkedList, if_neg (not_not.mpr hp), cleared_nil]
  | cons x xs ih =>
    cases fuel with
    | zero => omega
    | succ fuel =>
      have hnodup := h.nodup
      have hx := h.ne_null List.mem_cons_self
      obtain ⟨n, hn, hxs⟩ := Chain.node h
      obtain ⟨rfl, -⟩ := h
      have hrest := ih hxs (by simpa using hf)
      have hkept : cleared nodes xs p = some n := by
        rw [cleared_of_notMem (List.nodup_cons.mp hnodup).1]
        exact hn
      rw [freeLinkedList, if_pos hx, hn, Option.bind_eq_bind, Option.bind_some, hrest,
        Option.bind_eq_bind, Option.bind_some, freeNode, hkept]
      exact congrArg some update_cleared

def slots (chain : ℕ → List ℕ) (i : ℕ) : List ℕ := (List.range i).flatMap chain

theorem slots_succ (i : ℕ) : slots chain (i + 1) = slots chain i ++ chain i := by
  rw [slots, List.range_succ, List.flatMap_append]
  simp [slots]

theorem mem_slots {i : ℕ} : x ∈ slots chain i ↔ ∃ j < i, x ∈ chain j := by
  simp [slots]

namespace Sound

theorem mem_slots (S : Sound t chain) : x ∈ slots chain t.size.toNat ↔ Stored chain x := by
  rw [Hashtable.mem_slots]
  constructor
  · intro h
    obtain ⟨j, -, hx⟩ := h
    exact ⟨j, hx⟩
  · intro h
    obtain ⟨j, hx⟩ := h
    have hlt := S.chains.lt hx
    have hlen := S.store_length
    exact ⟨j, by omega, hx⟩

theorem chain_cleared (S : Sound t chain) {i : ℕ} (hp : t.store[i]? = some p) :
    Chain (nextOf (cleared t.nodes (slots chain i))) NULL p (chain i) := by
  apply (S.chains.chains i p hp).congr
  intro x hx
  have hnot : x ∉ slots chain i := by
    intro hmem
    obtain ⟨j, hj, hxj⟩ := Hashtable.mem_slots.mp hmem
    have := S.disjoint j i x hxj hx
    omega
  simp only [nextOf, cleared_of_notMem hnot]

theorem destroyLoop_spec (S : Sound t chain) {i : ℕ} (hi : i ≤ t.size.toNat)
    (hf : t.size.toNat - i < fuel) :
    destroyLoop t fuel i (cleared t.nodes (slots chain i)) =
      some (cleared t.nodes (slots chain t.size.toNat)) := by
  have hpos := S.size_pos
  have hlt := S.size_lt
  induction fuel generalizing i with
  | zero => omega
  | succ fuel ih =>
    by_cases hend : (i : ℤ) < t.size
    · obtain ⟨p, hread, hp, -⟩ := S.readStore (by omega) hend
      rw [Int.toNat_natCast] at hp
      have hfree := freeLinkedList_spec (S.chain_cleared hp) (S.length_lt i)
      rw [cleared_cleared, ← slots_succ] at hfree
      have hint : int ((i : ℤ) + 1) = some ((i + 1 : ℕ) : ℤ) := by
        rw [Nat.cast_succ]
        exact int_of_bounds (by omega) (by omega)
      rw [destroyLoop, if_pos hend, hread, Option.bind_eq_bind, Option.bind_some, hfree,
        Option.bind_eq_bind, Option.bind_some, hint, Option.bind_eq_bind, Option.bind_some]
      exact ih (by omega) (by omega)
    · obtain rfl : i = t.size.toNat := by omega
      rw [destroyLoop, if_neg hend]

theorem htableDestroy (S : Sound t chain) :
    Hashtable.htableDestroy t = some (cleared t.nodes (slots chain t.size.toNat)) := by
  have h := S.destroyLoop_spec (i := 0) (Nat.zero_le _) (Nat.lt_succ_self _)
  have hnil : slots chain 0 = [] := rfl
  rwa [hnil, cleared_nil] at h

end Sound

/-- What `malloc` has returned for a node is in a chain, and nothing else is allocated. -/
structure Owned (t : Htable) (chain : ℕ → List ℕ) : Prop where
  stored : ∀ x, 0 < x → x < t.fresh → Stored chain x
  allocated : ∀ x, t.nodes x ≠ none → Stored chain x

theorem node_ne_none_iff : nodes x ≠ none ↔ dataOf nodes x ≠ none := by
  simp [dataOf]

theorem Owned.appended {i : ℕ} {n : Node} (O : Owned t chain) (h : Appended t t' chain i n) :
    Owned t' (Function.update chain i (chain i ++ [t.fresh])) := by
  constructor
  · intro x hpos hlt
    rw [h.fresh] at hlt
    rw [stored_appended]
    rcases Nat.lt_succ_iff_lt_or_eq.mp hlt with hlt | rfl
    · exact .inl (O.stored x hpos hlt)
    · exact .inr rfl
  · intro x hx
    rw [stored_appended]
    by_cases hxf : x = t.fresh
    · exact .inr hxf
    · rw [node_ne_none_iff, h.data x hxf, ← node_ne_none_iff] at hx
      exact .inl (O.allocated x hx)

theorem Owned.sameData {chain' : ℕ → List ℕ} (O : Owned t chain) (hfresh : t'.fresh = t.fresh)
    (hdata : SameData t.nodes t'.nodes) (hst : ∀ x, Stored chain' x ↔ Stored chain x) :
    Owned t' chain' := by
  constructor
  · intro x hpos hlt
    rw [hst]
    exact O.stored x hpos (hfresh ▸ hlt)
  · intro x hx
    rw [hst]
    rw [node_ne_none_iff, hdata x, ← node_ne_none_iff] at hx
    exact O.allocated x hx

theorem Owned.destroyed (O : Owned t chain) (S : Sound t chain) :
    Hashtable.htableDestroy t = some fun _ ↦ none := by
  rw [S.htableDestroy, Option.some_inj]
  funext x
  by_cases hx : t.nodes x = none
  · rw [cleared, hx]
    exact ite_self none
  · exact cleared_of_mem (S.mem_slots.mpr (O.allocated x hx))

namespace Threads

variable {T : Type} {s s' : System T} {t : T} {c : Call} {c' : Option Call}

def insertsNew : Request → Option ℕ → Bool
  | .insert _ _, r => r == some 0
  | .lookup _, _ => false

def pendingNode (c : Option Call) : ℕ :=
  if c.any fun c ↦ insertsNew c.request c.result then 1 else 0

def returnedNew (s : System T) : ℕ := s.done.countP fun r ↦ insertsNew r.op (some r.result)

theorem insertsNew_one (r : Request) : insertsNew r (some 1) = false := by
  cases r with
  | insert key val => rfl
  | lookup key => rfl

theorem pendingNode_none : pendingNode none = 0 := rfl

theorem pendingNode_some (c : Call) :
    pendingNode (some c) = if insertsNew c.request c.result then 1 else 0 := rfl

theorem pendingNode_goto {r : Option ℕ} {pc : Pc}
    (h : insertsNew c.request r = insertsNew c.request c.result) :
    pendingNode (some { c with result := r, pc := pc }) = pendingNode (some c) := by
  rw [pendingNode_some, pendingNode_some, h]

def Kept (t : Htable) : Prop := ∀ chain, Sound t chain → Owned t chain

theorem Initial.kept (h : Initial s) : Kept s.table := by
  intro chain S
  obtain ⟨sz, a, hsz, hinit⟩ := h.table
  obtain ⟨min, -, hinit⟩ := Option.bind_eq_some_iff.mp hinit
  obtain ⟨size, -, hinit⟩ := Option.bind_eq_some_iff.mp hinit
  have htable := Option.some.inj hinit
  constructor
  · intro x hpos hlt
    rw [← htable] at hlt
    exact absurd hlt (by simp only; omega)
  · intro x hx
    rw [← htable] at hx
    exact absurd rfl hx

inductive Touches (t t' : Htable) (chain : ℕ → List ℕ) : Prop
  | same (h : t' = t)
  | appends {i : ℕ} {n : Node} (h : Appended t t' chain i n)
      (S : Sound t' (Function.update chain i (chain i ++ [t.fresh])))
  | rehashes {chain' : ℕ → List ℕ} (hfresh : t'.fresh = t.fresh) (S : Sound t' chain')
      (hdata : SameData t.nodes t'.nodes) (hst : ∀ x, Stored chain' x ↔ Stored chain x)

theorem Touches.kept {t t' : Htable} (h : Touches t t' chain) (S : Sound t chain) (K : Kept t) :
    Kept t' := by
  intro chain' S'
  have O := K chain S
  cases h with
  | same h =>
    subst h
    exact K chain' S'
  | appends A S₁ =>
    rw [S'.chains.unique S₁.chains]
    exact O.appended A
  | rehashes hfresh S₁ hdata hst =>
    rw [S'.chains.unique S₁.chains]
    exact O.sameData hfresh hdata hst

variable [Fintype T]

theorem Inv.changes_touches (I : Inv s chain) (hc : s.calls t = some c)
    (h : Changes s s' chain c c') : Touches s.table s'.table chain := by
  cases h with
  | none h => exact .same h
  | append hpc hr h =>
    obtain ⟨A, S, -⟩ := I.append hc hpc hr h
    exact .appends A S
  | @rehash size hpc h =>
    have hsize := (I.calls t c hc).resize
    simp only [Pc.SizeOk, hpc] at hsize
    have hpos := I.table.size_pos
    obtain ⟨t₁, chain₁, ht₁, S, -, -, hfresh, hdata, -, hst⟩ :=
      I.table.rehash (by omega) hsize.2
    obtain rfl : s'.table = t₁ := Option.some.inj (h.symm.trans ht₁)
    exact .rehashes hfresh S hdata hst

def pendingNodes (s : System T) : ℕ := ∑ t, pendingNode (s.calls t)

def Tallied (s : System T) : Prop := s.table.fresh = 1 + pendingNodes s + returnedNew s

theorem Initial.tallied (h : Initial s) : Tallied s := by
  obtain ⟨sz, a, hsz, hinit⟩ := h.table
  obtain ⟨min, -, hinit⟩ := Option.bind_eq_some_iff.mp hinit
  obtain ⟨size, -, hinit⟩ := Option.bind_eq_some_iff.mp hinit
  have htable := Option.some.inj hinit
  have hcalls : pendingNodes s = 0 := by
    apply Finset.sum_eq_zero
    intro t _
    rw [h.calls, pendingNode_none]
  have hdone : returnedNew s = 0 := by
    rw [returnedNew, h.done]
    rfl
  unfold Tallied
  rw [hcalls, hdone, ← htable]

variable [DecidableEq T]

theorem pendingNodes_update (h : s'.calls = Function.update s.calls t c') :
    pendingNodes s' + pendingNode (s.calls t) = pendingNodes s + pendingNode c' := by
  have hother : ∀ u ∈ Finset.univ.erase t, pendingNode (s'.calls u) = pendingNode (s.calls u) := by
    intro u hu
    rw [h, Function.update_of_ne (Finset.ne_of_mem_erase hu)]
  have hself : pendingNode (s'.calls t) = pendingNode c' := by rw [h, Function.update_self]
  rw [pendingNodes, pendingNodes, ← Finset.add_sum_erase _ _ (Finset.mem_univ t),
    ← Finset.add_sum_erase _ (fun u ↦ pendingNode (s.calls u)) (Finset.mem_univ t),
    Finset.sum_congr rfl hother, hself]
  omega

theorem Inv.step_touches (I : Inv s chain) {a : Action} (h : Step t a s s') :
    Touches s.table s'.table chain := by
  cases h with
  | start hc hr hh => exact .same rfl
  | advance hc h =>
    obtain ⟨c', -, C⟩ := (I.calls _ _ hc).advance I.table h
    exact I.changes_touches hc C
  | acquire hc hw ha h => exact .same rfl
  | release hc hl h => exact .same rfl
  | spurious h => exact .same rfl

theorem Tallied.of_update (h : Tallied s) (hcalls : s'.calls = Function.update s.calls t c')
    (htable : s'.table.fresh + pendingNode (s.calls t) + returnedNew s =
      s.table.fresh + pendingNode c' + returnedNew s') : Tallied s' := by
  have hsum := pendingNodes_update hcalls
  have hs : s.table.fresh = 1 + pendingNodes s + returnedNew s := h
  unfold Tallied
  omega

theorem Tallied.goto {s₁ : System T} {r : Option ℕ} {pc : Pc} (h : Tallied s)
    (hc : s.calls t = some c) (htable : s₁.table = s.table) (hcalls : s₁.calls = s.calls)
    (hdone : s₁.done = s.done) (hr : insertsNew c.request r = insertsNew c.request c.result) :
    Tallied (s₁.goto t { c with result := r } pc) := by
  have hupdate : (s₁.goto t { c with result := r } pc).calls =
      Function.update s.calls t (some { c with result := r, pc := pc }) := by
    rw [← hcalls]
    rfl
  have hd : returnedNew (s₁.goto t { c with result := r } pc) = returnedNew s :=
    congrArg (List.countP _) hdone
  have ht : (s₁.goto t { c with result := r } pc).table = s.table := htable
  apply h.of_update hupdate
  rw [hc, pendingNode_goto hr, hd, ht]

theorem Tallied.advance (h : Tallied s) (I : Inv s chain) (hc : s.calls t = some c)
    (hs : s.advance t c = some s') : Tallied s' := by
  have hok := I.calls t c hc
  have hwalk := hok.walk
  have hresult := hok.result
  cases hpc : c.pc with
  | readFlag | checkResize collision | setFlag | clearFlag | unlockMu slot =>
    simp only [System.advance, hpc, Option.some_inj] at hs
    subst hs
    exact h.goto hc rfl rfl rfl rfl
  | lockMu | resizeMu =>
    simp only [System.advance, hpc] at hs
    split_ifs at hs with hmu
    obtain rfl := Option.some.inj hs
    exact h.goto hc rfl rfl rfl rfl
  | readSize globalLock | newSize =>
    simp only [System.advance, hpc] at hs
    obtain ⟨v, -, hs⟩ := Option.bind_eq_some_iff.mp hs
    obtain rfl := Option.some.inj hs
    exact h.goto hc rfl rfl rfl rfl
  | readHead slot =>
    simp only [System.advance, hpc] at hs
    obtain ⟨curr, -, hs⟩ := Option.bind_eq_some_iff.mp hs
    split at hs <;>
      · obtain rfl := Option.some.inj hs
        exact h.goto hc rfl rfl rfl rfl
  | insertWalk slot curr prev collision =>
    have hnone : c.result = none := by simpa [hpc, Pc.decided] using hresult
    simp only [System.advance, hpc] at hs
    split_ifs at hs with h0
    · obtain rfl := Option.some.inj hs
      exact h.goto hc rfl rfl rfl rfl
    · obtain ⟨n, -, hs⟩ := Option.bind_eq_some_iff.mp hs
      split_ifs at hs with hmatch
      · obtain rfl := Option.some.inj hs
        apply h.goto hc rfl rfl rfl
        rw [insertsNew_one, hnone]
        cases c.request with
        | insert key val => rfl
        | lookup key => rfl
      · obtain ⟨v, -, hs⟩ := Option.bind_eq_some_iff.mp hs
        obtain rfl := Option.some.inj hs
        exact h.goto hc rfl rfl rfl rfl
  | lookupWalk slot curr =>
    simp only [Call.Walk, hpc] at hwalk
    obtain ⟨⟨key, hr⟩, -⟩ := hwalk
    have hnever : ∀ r, insertsNew c.request r = insertsNew c.request c.result := by
      intro r
      rw [hr]
      rfl
    simp only [System.advance, hpc] at hs
    split_ifs at hs with h0
    · obtain rfl := Option.some.inj hs
      exact h.goto hc rfl rfl rfl (hnever _)
    · obtain ⟨n, -, hs⟩ := Option.bind_eq_some_iff.mp hs
      split_ifs at hs with hmatch
      · obtain rfl := Option.some.inj hs
        exact h.goto hc rfl rfl rfl (hnever _)
      · obtain rfl := Option.some.inj hs
        exact h.goto hc rfl rfl rfl rfl
  | append slot prev collision =>
    have hnone : c.result = none := by simpa [hpc, Pc.decided] using hresult
    simp only [Call.Walk, hpc] at hwalk
    obtain ⟨⟨key, val, hr⟩, -⟩ := hwalk
    simp only [System.advance, hpc, hr] at hs
    obtain ⟨table, htable, hs⟩ := Option.bind_eq_some_iff.mp hs
    obtain rfl := Option.some.inj hs
    obtain ⟨A, -⟩ := I.append hc hpc hr htable
    apply h.of_update (t := t) rfl
    have hbefore : pendingNode (s.calls t) = 0 := by
      rw [hc, pendingNode_some, hnone, hr]
      rfl
    rw [hbefore]
    change table.fresh + 0 + returnedNew s = s.table.fresh + 1 + returnedNew s
    rw [A.fresh, Nat.add_zero]
  | lockAll size i | unlockAll i =>
    simp only [System.advance, hpc] at hs
    split_ifs at hs with hi
    obtain rfl := Option.some.inj hs
    exact h.goto hc rfl rfl rfl rfl
  | rehash size =>
    have hsize := hok.resize
    have hpos := I.table.size_pos
    simp only [Pc.SizeOk, hpc] at hsize
    simp only [System.advance, hpc] at hs
    obtain ⟨table, htable, hs⟩ := Option.bind_eq_some_iff.mp hs
    obtain rfl := Option.some.inj hs
    obtain ⟨t₁, -, ht₁, -, -, -, hfresh, -⟩ := I.table.rehash (by omega) hsize.2
    obtain rfl : table = t₁ := Option.some.inj (htable.symm.trans ht₁)
    apply h.of_update (t := t) rfl
    rw [hc, pendingNode_goto rfl, ← hfresh]
    rfl
  | ret =>
    simp only [System.advance, hpc] at hs
    obtain ⟨r, hr, hs⟩ := Option.bind_eq_some_iff.mp hs
    obtain rfl := Option.some.inj hs
    apply h.of_update (t := t) rfl
    rw [hc, pendingNode_some, hr, pendingNode_none, returnedNew, returnedNew, List.countP_append,
      List.countP_singleton]
    dsimp only
    omega
  | lockSlot slot globalLock | unlockSlot slot collision =>
    simp only [System.advance, hpc, reduceCtorEq] at hs

theorem Tallied.step (h : Tallied s) (I : Inv s chain) {a : Action} (hs : Step t a s s') :
    Tallied s' := by
  cases hs with
  | start hc hr hh =>
    apply h.of_update (t := t) rfl
    rw [hc, pendingNode_none, pendingNode_some]
    cases _ : ‹Request› with
    | insert key val => rfl
    | lookup key => rfl
  | advance hc hs => exact h.advance I hc hs
  | acquire hc hw ha hs => exact h.goto hc rfl rfl rfl rfl
  | release hc hl hs => exact h.goto hc rfl rfl rfl rfl
  | spurious hs => exact h

structure Accounted (s : System T) : Prop where
  inv : ∃ chain, Inv s chain
  kept : Kept s.table
  tallied : Tallied s

theorem Accounted.step (h : Accounted s) {a : Action} (hs : Step t a s s') : Accounted s' := by
  obtain ⟨chain, I⟩ := h.inv
  exact ⟨I.step hs, (I.step_touches hs).kept I.table h.kept, h.tallied.step I hs⟩

theorem ReachableThreads.accounted (h : ReachableThreads s) : Accounted s := by
  apply h.invariant (I := Accounted)
  · intro s hs
    exact ⟨⟨_, hs.inv⟩, hs.kept, hs.tallied⟩
  · intro s s' hacc hstep
    obtain ⟨t, a, hstep⟩ := hstep
    exact hacc.step hstep

/-- However the threads' inserts, lookups and resizes have interleaved: once no call is in
progress, `htable_destroy` gives back every node once, and they are as many as the inserts that
have returned 0. -/
theorem destroy_frees_every_node (h : ReachableThreads s) (hq : ∀ t, s.calls t = none) :
    htableDestroy s.table = some (fun _ ↦ none) ∧
      (∀ x, s.table.nodes x ≠ none ↔ 0 < x ∧ x < s.table.fresh) ∧
      s.table.fresh = 1 + s.done.countP fun r ↦ insertsNew r.op (some r.result) := by
  obtain ⟨⟨chain, I⟩, hkept, htally⟩ := h.accounted
  have O := hkept chain I.table
  refine ⟨O.destroyed I.table, ?_, ?_⟩
  · intro x
    constructor
    · intro hx
      have hst := O.allocated x hx
      exact ⟨Nat.pos_of_ne_zero (I.table.chains.ne_null hst), I.table.fresh x hst⟩
    · intro hx
      obtain ⟨n, hn, -⟩ := I.table.node x (O.stored x hx.1 hx.2)
      rw [hn]
      exact Option.some_ne_none n
  · have hpending : pendingNodes s = 0 := by
      apply Finset.sum_eq_zero
      intro t _
      rw [hq, pendingNode_none]
    have hfresh : s.table.fresh = 1 + pendingNodes s + returnedNew s := htally
    rwa [hpending, Nat.add_zero] at hfresh

theorem destroy_frees_every_node_same_key : ∃ s : System (Fin 2),
    htableDestroy s.table = some (fun _ ↦ none) ∧ s.table.fresh = 2 := by
  obtain ⟨s, h, hret, hdone⟩ := sameKey_run
  have hall : ReachableThreads s := h.of_init fun s hs ↦ hs.1
  obtain ⟨hdestroy, -, hfresh⟩ := destroy_frees_every_node hall hret
  refine ⟨s, hdestroy, ?_⟩
  rw [hfresh, hdone]
  rfl

end Threads
end CsoLabs.Hashtable
