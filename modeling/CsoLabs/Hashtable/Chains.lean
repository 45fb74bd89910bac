import CsoLabs.Foundation.SinglyLinked
import CsoLabs.Hashtable.Table

namespace CsoLabs.Hashtable

open Foundation CInt

def nextOf (nodes : ℕ → Option Node) (x : ℕ) : Option ℕ := (nodes x).map Node.next

def Node.data (n : Node) : ℤ × CString × ℕ := (n.hashcode, n.key, n.val)

def dataOf (nodes : ℕ → Option Node) (x : ℕ) : Option (ℤ × CString × ℕ) :=
  (nodes x).map Node.data

structure Chains (nodes : ℕ → Option Node) (store : List ℕ) (chain : ℕ → List ℕ) : Prop where
  chains : ∀ i p, store[i]? = some p → Chain (nextOf nodes) NULL p (chain i)
  outside : ∀ i, store.length ≤ i → chain i = []

def Stored (chain : ℕ → List ℕ) (x : ℕ) : Prop := ∃ i, x ∈ chain i

structure Sound (t : Htable) (chain : ℕ → List ℕ) : Prop where
  size_pos : 0 < t.size
  size_lt : t.size < 2 ^ 31
  store_length : (t.store.length : ℤ) = t.size
  fresh_pos : 0 < t.fresh
  chains : Chains t.nodes t.store chain
  fresh : ∀ x, Stored chain x → x < t.fresh
  disjoint : ∀ i j x, x ∈ chain i → x ∈ chain j → i = j
  node : ∀ x, Stored chain x → ∃ n, t.nodes x = some n ∧ 0 ≤ n.hashcode

structure TableOk (t : Htable) (chain : ℕ → List ℕ) (m : CString → Option ℕ) : Prop where
  size_pos : 0 < t.size
  size_lt : t.size < 2 ^ 31
  store_length : (t.store.length : ℤ) = t.size
  fresh_pos : 0 < t.fresh
  chains : Chains t.nodes t.store chain
  fresh : ∀ x, Stored chain x → x < t.fresh
  placed : ∀ i, ∀ x ∈ chain i, ∃ n, t.nodes x = some n ∧ hashcode n.key = some n.hashcode ∧
    0 ≤ n.hashcode ∧ n.hashcode.tmod t.size = i
  unique : ∀ x y n n', Stored chain x → Stored chain y → t.nodes x = some n →
    t.nodes y = some n' → n.key = n'.key → x = y
  entries : ∀ k v, m k = some v ↔ ∃ x n, Stored chain x ∧ t.nodes x = some n ∧ n.key = k ∧ n.val = v

variable {t t' : Htable} {chain : ℕ → List ℕ} {m : CString → Option ℕ} {nodes : ℕ → Option Node}
  {hcode slot : ℤ} {key k : CString} {val curr prev fuel x : ℕ} {collision : ℤ} {xs : List ℕ}

theorem Chain.node {p : ℕ} (h : Chain (nextOf nodes) NULL p (x :: xs)) :
    ∃ n, nodes x = some n ∧ Chain (nextOf nodes) NULL n.next xs := by
  obtain ⟨-, -, q, hq, hxs⟩ := h
  obtain ⟨n, hn, rfl⟩ := Option.map_eq_some_iff.mp hq
  exact ⟨n, hn, hxs⟩

def Matches (nodes : ℕ → Option Node) (hcode : ℤ) (key : CString) (x : ℕ) : Prop :=
  ∃ n, nodes x = some n ∧ n.hashcode = hcode ∧ n.key = key

theorem matches_iff {n : Node} (h : nodes x = some n) :
    Matches nodes hcode key x ↔ n.hashcode = hcode ∧ n.key.strcmp key = 0 := by
  simp [Matches, h, CString.strcmp_eq_zero]

theorem insertLoop_spec {r : Option (ℕ × ℤ)} (h : Chain (nextOf nodes) NULL curr xs)
    (hr : insertLoop nodes hcode key fuel curr prev collision = some r) :
    (r = none ∧ ∃ x ∈ xs, Matches nodes hcode key x) ∨
      (r = some (xs.getLastD prev, collision + xs.length) ∧
        ∀ x ∈ xs, ¬ Matches nodes hcode key x) := by
  induction xs generalizing fuel curr prev collision with
  | nil =>
    cases fuel with
    | zero => cases hr
    | succ fuel =>
      obtain rfl : curr = NULL := h
      rw [insertLoop, if_pos rfl, Option.some_inj] at hr
      exact .inr ⟨by simp [← hr], by simp⟩
  | cons x xs ih =>
    cases fuel with
    | zero => cases hr
    | succ fuel =>
      obtain rfl : curr = x := h.1
      obtain ⟨n, hn, hxs⟩ := Chain.node h
      rw [insertLoop, if_neg h.2.1, hn, Option.bind_eq_bind, Option.bind_some] at hr
      have hm : Matches nodes hcode key curr ↔ _ := matches_iff hn
      split_ifs at hr with hmatch
      · exact .inl ⟨(Option.some.inj hr).symm, curr, by simp, hm.mpr hmatch⟩
      · obtain ⟨c, hc, hr⟩ := Option.bind_eq_some_iff.mp hr
        obtain ⟨-, rfl⟩ := checked_eq_some.mp hc
        rcases ih hxs hr with ⟨hr, y, hy, hmy⟩ | ⟨hr, hno⟩
        · exact .inl ⟨hr, y, by simp [hy], hmy⟩
        · refine .inr ⟨?_, fun y hy ↦ ?_⟩
          · rw [hr, List.getLastD_cons, List.length_cons]
            push_cast
            rw [add_assoc, add_comm 1]
          · rcases List.mem_cons.mp hy with rfl | hy
            · exact fun h ↦ hmatch (hm.mp h)
            · exact hno y hy

theorem insertLoop_isSome (h : Chain (nextOf nodes) NULL curr xs) (hfuel : xs.length < fuel)
    (hc : 0 ≤ collision) (hlen : collision + xs.length < 2 ^ 31) :
    ∃ r, insertLoop nodes hcode key fuel curr prev collision = some r := by
  induction xs generalizing fuel curr prev collision with
  | nil =>
    obtain ⟨fuel, rfl⟩ := Nat.exists_eq_succ_of_ne_zero (Nat.ne_of_gt hfuel)
    obtain rfl : curr = NULL := h
    exact ⟨_, by rw [insertLoop, if_pos rfl]⟩
  | cons x xs ih =>
    obtain ⟨fuel, rfl⟩ := Nat.exists_eq_succ_of_ne_zero (Nat.ne_of_gt (Nat.zero_lt_of_lt hfuel))
    obtain rfl : curr = x := h.1
    obtain ⟨n, hn, hxs⟩ := Chain.node h
    simp only [List.length_cons, Nat.cast_add, Nat.cast_one] at hlen hfuel
    rw [insertLoop, if_neg h.2.1, hn, Option.bind_eq_bind, Option.bind_some]
    split_ifs
    · exact ⟨_, rfl⟩
    · have hc' : int (collision + 1) = some (collision + 1) :=
        int_of_bounds (by omega) (by omega)
      rw [hc', Option.bind_eq_bind, Option.bind_some]
      exact ih hxs (by omega) (by omega) (by omega)

theorem lookupLoop_spec (hcode : ℤ) (key : CString) (h : Chain (nextOf nodes) NULL curr xs)
    (hfuel : xs.length < fuel) :
    (∃ x ∈ xs, ∃ n, nodes x = some n ∧ n.hashcode = hcode ∧ n.key = key ∧
      lookupLoop nodes hcode key fuel curr = some n.val) ∨
    ((∀ x ∈ xs, ¬ Matches nodes hcode key x) ∧
      lookupLoop nodes hcode key fuel curr = some NULL) := by
  induction xs generalizing fuel curr with
  | nil =>
    obtain ⟨fuel, rfl⟩ := Nat.exists_eq_succ_of_ne_zero (Nat.ne_of_gt hfuel)
    obtain rfl : curr = NULL := h
    exact .inr ⟨by simp, by rw [lookupLoop, if_pos rfl]⟩
  | cons x xs ih =>
    obtain ⟨fuel, rfl⟩ := Nat.exists_eq_succ_of_ne_zero (Nat.ne_of_gt (Nat.zero_lt_of_lt hfuel))
    obtain rfl : curr = x := h.1
    obtain ⟨n, hn, hxs⟩ := Chain.node h
    have hm : Matches nodes hcode key curr ↔ _ := matches_iff hn
    rw [lookupLoop, if_neg h.2.1, hn, Option.bind_eq_bind, Option.bind_some]
    split_ifs with hmatch
    · exact .inl ⟨curr, by simp, n, hn, hmatch.1, CString.strcmp_eq_zero.mp hmatch.2, rfl⟩
    · rcases ih hxs (Nat.lt_of_succ_lt_succ hfuel) with ⟨y, hy, h⟩ | ⟨hno, h⟩
      · exact .inl ⟨y, by simp [hy], h⟩
      · refine .inr ⟨fun y hy ↦ ?_, h⟩
        rcases List.mem_cons.mp hy with rfl | hy
        · exact fun h ↦ hmatch (hm.mp h)
        · exact hno y hy

theorem Chains.unique {chain' : ℕ → List ℕ} (C : Chains nodes store chain)
    (C' : Chains nodes store chain') : chain = chain' := by
  funext i
  rcases lt_or_ge i store.length with hi | hi
  · have hp := List.getElem?_eq_getElem hi
    exact (C.chains i _ hp).unique (C'.chains i _ hp)
  · rw [C.outside i hi, C'.outside i hi]

namespace Sound

theorem slotOf (S : Sound t chain) : Hashtable.slotOf t hcode = some (hcode.tmod t.size) :=
  if_neg S.size_pos.ne'

theorem tmod_lt (S : Sound t chain) (hh : 0 ≤ hcode) :
    0 ≤ hcode.tmod t.size ∧ hcode.tmod t.size < t.size :=
  ⟨Int.tmod_nonneg t.size hh, Int.tmod_lt_of_pos hcode S.size_pos⟩

theorem readStore (S : Sound t chain) (h₀ : 0 ≤ slot) (hlt : slot < t.size) :
    ∃ p, Hashtable.readStore t.store slot = some p ∧ t.store[slot.toNat]? = some p ∧
      Chain (nextOf t.nodes) NULL p (chain slot.toNat) := by
  have hlen := S.store_length
  have hp := List.getElem?_eq_getElem (show slot.toNat < t.store.length by omega)
  exact ⟨_, by rw [Hashtable.readStore, if_pos h₀, hp], hp, S.chains.chains _ _ hp⟩

theorem length_lt (S : Sound t chain) (i : ℕ) : (chain i).length < t.fresh + 1 := by
  by_cases hi : i < t.store.length
  · have hc := S.chains.chains i _ (List.getElem?_eq_getElem hi)
    have hsub : (chain i).toFinset ⊆ Finset.range t.fresh := fun x hx ↦
      Finset.mem_range.mpr (S.fresh x ⟨i, List.mem_toFinset.mp hx⟩)
    have := Finset.card_le_card hsub
    rw [List.toFinset_card_of_nodup hc.nodup, Finset.card_range] at this
    omega
  · simp [S.chains.outside i (by omega)]

end Sound

namespace TableOk

theorem sound (T : TableOk t chain m) : Sound t chain where
  size_pos := T.size_pos
  size_lt := T.size_lt
  store_length := T.store_length
  fresh_pos := T.fresh_pos
  chains := T.chains
  fresh := T.fresh
  disjoint i j x hi hj := by
    obtain ⟨n, hn, -, -, h⟩ := T.placed i x hi
    obtain ⟨n', hn', -, -, h'⟩ := T.placed j x hj
    obtain rfl : n = n' := Option.some.inj (hn.symm.trans hn')
    omega
  node x := by
    rintro ⟨i, hx⟩
    obtain ⟨n, hn, -, hpos, -⟩ := T.placed i x hx
    exact ⟨n, hn, hpos⟩

theorem slotOf (T : TableOk t chain m) : Hashtable.slotOf t hcode = some (hcode.tmod t.size) :=
  T.sound.slotOf

theorem slot_lt (T : TableOk t chain m) (hh : 0 ≤ hcode) :
    0 ≤ hcode.tmod t.size ∧ (hcode.tmod t.size).toNat < t.store.length := by
  have h₁ := T.sound.tmod_lt hh
  have h₂ := T.store_length
  omega

theorem readStore (T : TableOk t chain m) (hh : 0 ≤ hcode) :
    ∃ p, Hashtable.readStore t.store (hcode.tmod t.size) = some p ∧
      t.store[(hcode.tmod t.size).toNat]? = some p ∧
      Chain (nextOf t.nodes) NULL p (chain (hcode.tmod t.size).toNat) :=
  T.sound.readStore (T.sound.tmod_lt hh).1 (T.sound.tmod_lt hh).2

theorem length_lt (T : TableOk t chain m) (i : ℕ) : (chain i).length < t.fresh + 1 :=
  T.sound.length_lt i

theorem entry_of_matches (T : TableOk t chain m) {i : ℕ} (hx : x ∈ chain i) {n : Node}
    (hn : t.nodes x = some n) (hm : Matches t.nodes hcode key x) : m key = some n.val := by
  obtain ⟨n', hn', -, hk⟩ := hm
  obtain rfl : n = n' := Option.some.inj (hn.symm.trans hn')
  exact (T.entries key n.val).mpr ⟨x, n, ⟨i, hx⟩, hn, hk, rfl⟩

/-- In a well-formed table the walk for a key has to look at one chain only. -/
theorem matches_iff (T : TableOk t chain m) (hh : hashcode key = some hcode) :
    (∃ x ∈ chain (hcode.tmod t.size).toNat, Matches t.nodes hcode key x) ↔ m key ≠ none := by
  rw [Option.ne_none_iff_exists']
  constructor
  · rintro ⟨x, hx, hm⟩
    have ⟨n, hn, _⟩ := hm
    exact ⟨n.val, T.entry_of_matches hx hn hm⟩
  · rintro ⟨v, hv⟩
    obtain ⟨x, n, ⟨i, hx⟩, hn, hk, -⟩ := (T.entries key v).mp hv
    obtain ⟨n', hn', hhash, hpos, hi⟩ := T.placed i x hx
    obtain rfl : n = n' := Option.some.inj (hn.symm.trans hn')
    have hcode_eq : n.hashcode = hcode := by
      rw [hk, hh] at hhash
      exact (Option.some.inj hhash).symm
    refine ⟨x, ?_, n, hn, hcode_eq, hk⟩
    rw [← hcode_eq, hi, Int.toNat_natCast]
    exact hx

theorem eq_none_of_no_match (T : TableOk t chain m) (hh : hashcode key = some hcode)
    (hno : ∀ x ∈ chain (hcode.tmod t.size).toNat, ¬ Matches t.nodes hcode key x) :
    m key = none := by
  by_contra hne
  obtain ⟨x, hx, hm⟩ := (T.matches_iff hh).mpr hne
  exact hno x hx hm

theorem lookupAt (T : TableOk t chain m) (hh : hashcode key = some hcode) (hpos : 0 ≤ hcode) :
    lookupAt t (hcode.tmod t.size) hcode key = some ((m key).getD NULL) := by
  obtain ⟨p, hp, -, hchain⟩ := T.readStore hpos
  rw [Hashtable.lookupAt, hp, Option.bind_eq_bind, Option.bind_some]
  rcases lookupLoop_spec hcode key hchain (T.length_lt _) with
    ⟨x, hx, n, hn, hcode', hk, hr⟩ | ⟨hno, hr⟩
  · rw [hr, T.entry_of_matches hx hn ⟨n, hn, hcode', hk⟩]
    rfl
  · rw [hr, T.eq_none_of_no_match hh hno]
    rfl

end TableOk
end CsoLabs.Hashtable
