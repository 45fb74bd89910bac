import CsoLabs.Hashtable.Rehash

namespace CsoLabs.Hashtable

open Foundation CInt

def InChain (t : Htable) (i x : ℕ) : Prop :=
  ∃ p xs, t.store[i]? = some p ∧ Chain (nextOf t.nodes) NULL p xs ∧ x ∈ xs

structure WellFormed (t : Htable) : Prop where
  store_length : (t.store.length : ℤ) = t.size
  ends : ∀ (i p : ℕ), t.store[i]? = some p → ∃ xs, Chain (nextOf t.nodes) NULL p xs
  placed : ∀ i x, InChain t i x → ∃ n, t.nodes x = some n ∧ hashcode n.key = some n.hashcode ∧
    n.hashcode.tmod t.size = i
  unique : ∀ i j x y n n', InChain t i x → InChain t j y → t.nodes x = some n →
    t.nodes y = some n' → n.key = n'.key → i = j ∧ x = y

structure SameNodes (t t' : Htable) : Prop where
  stored : ∀ x, (∃ i, InChain t' i x) ↔ ∃ i, InChain t i x
  data : SameData t.nodes t'.nodes

variable {t t' : Htable} {chain : ℕ → List ℕ} {m : CString → Option ℕ} {hcode sz a : ℤ}
  {key : CString} {val i x : ℕ}

namespace Sound

theorem newSize_bounds (S : Sound t chain) {size : ℤ} (h : newSize t = some size) :
    t.size ≤ size ∧ size < 2 ^ 31 := by
  obtain ⟨twice, htwice, h⟩ := Option.bind_eq_some_iff.mp h
  obtain ⟨hfits, rfl⟩ := checked_eq_some.mp htwice
  obtain ⟨p, hp, hle, hlt⟩ := getPrime_eq (n := 2 * t.size) (by have := fits_int.mp hfits; omega)
  obtain rfl : size = p := Option.some.inj (h.symm.trans hp)
  exact ⟨by have := S.size_pos; omega, hlt⟩

theorem newSize_isSome (S : Sound t chain) (h : 2 * t.size < 2 ^ 31) :
    ∃ size, newSize t = some size := by
  have hpos := S.size_pos
  have htwice : int (2 * t.size) = some (2 * t.size) := int_of_bounds (by omega) (by omega)
  obtain ⟨p, hp, -⟩ := getPrime_eq h
  exact ⟨p, by rw [newSize, htwice, Option.bind_eq_bind, Option.bind_some, hp]⟩

end Sound

namespace TableOk

theorem inChain (T : TableOk t chain m) : InChain t i x ↔ x ∈ chain i := by
  constructor
  · rintro ⟨p, xs, hp, hxs, hx⟩
    rwa [(T.chains.chains i p hp).unique hxs]
  · intro hx
    have hp := List.getElem?_eq_getElem (T.chains.lt hx)
    exact ⟨_, chain i, hp, T.chains.chains i _ hp, hx⟩

theorem wellFormed (T : TableOk t chain m) : WellFormed t where
  store_length := T.store_length
  ends i p hp := ⟨chain i, T.chains.chains i p hp⟩
  placed i x hx := by
    obtain ⟨n, hn, hh, -, hi⟩ := T.placed i x (T.inChain.mp hx)
    exact ⟨n, hn, hh, hi⟩
  unique i j x y n n' hx hy hn hn' hk := by
    have hxc := T.inChain.mp hx
    have hyc := T.inChain.mp hy
    obtain rfl := T.unique x y n n' ⟨i, hxc⟩ ⟨j, hyc⟩ hn hn' hk
    exact ⟨T.chain_unique hxc hyc, rfl⟩

theorem insertAt (T : TableOk t chain m) (hh : hashcode key = some hcode) (hpos : 0 ≤ hcode)
    {r : Option ℤ} (hr : insertAt t (hcode.tmod t.size) hcode key val = some (r, t')) :
    (m key ≠ none ∧ r = none ∧ t' = t) ∨
      (m key = none ∧ r = some ((chain (hcode.tmod t.size).toNat).length : ℤ) ∧ ∃ chain',
        TableOk t' chain' (Function.update m key (some val)) ∧ t'.size = t.size ∧
        t'.allowResize = t.allowResize) := by
  obtain ⟨p, hp, -, hchain⟩ := T.readStore hpos
  rw [Hashtable.insertAt, hp, Option.bind_eq_bind, Option.bind_some] at hr
  obtain ⟨w, hw, hr⟩ := Option.bind_eq_some_iff.mp hr
  rcases insertLoop_spec hchain hw with ⟨rfl, hx⟩ | ⟨rfl, hno⟩
  · simp only [Option.some_inj, Prod.mk.injEq] at hr
    exact .inl ⟨(T.matches_iff hh).mp hx, hr.1.symm, hr.2.symm⟩
  · have hnew : m key = none := by
      by_contra hne
      obtain ⟨x, hx, hmx⟩ := (T.matches_iff hh).mpr hne
      exact hno x hx hmx
    obtain ⟨t₁, chain₁, ht₁, T₁, hsize, hallow, -⟩ := T.appendNode val hh hpos hnew
    simp only [ht₁, Option.bind_eq_bind, Option.bind_some, Option.some_inj, Prod.mk.injEq,
      zero_add] at hr
    obtain ⟨rfl, rfl⟩ := hr
    exact .inr ⟨hnew, rfl, chain₁, T₁, hsize, hallow⟩

theorem insertAt_isSome (T : TableOk t chain m) (val : ℕ) (hh : hashcode key = some hcode)
    (hpos : 0 ≤ hcode) (hlen : (chain (hcode.tmod t.size).toNat).length < 2 ^ 31) :
    ∃ r t', Hashtable.insertAt t (hcode.tmod t.size) hcode key val = some (r, t') := by
  obtain ⟨p, hp, -, hchain⟩ := T.readStore hpos
  obtain ⟨w, hw⟩ : ∃ w, insertLoop t.nodes hcode key (t.fresh + 1) p NULL 0 = some w :=
    insertLoop_isSome hchain (T.length_lt _) le_rfl (by rw [zero_add]; exact_mod_cast hlen)
  rw [Hashtable.insertAt, hp, Option.bind_eq_bind, Option.bind_some, hw, Option.bind_eq_bind,
    Option.bind_some]
  rcases insertLoop_spec hchain hw with ⟨rfl, -⟩ | ⟨rfl, hno⟩
  · exact ⟨_, _, rfl⟩
  · have hnew : m key = none := by
      by_contra hne
      obtain ⟨x, hx, hmx⟩ := (T.matches_iff hh).mpr hne
      exact hno x hx hmx
    obtain ⟨t₁, chain₁, ht₁, -⟩ := T.appendNode val hh hpos hnew
    simp only [ht₁, Option.bind_eq_bind, Option.bind_some]
    exact ⟨_, _, rfl⟩

theorem newSize_bounds (T : TableOk t chain m) {size : ℤ} (h : newSize t = some size) :
    0 < size ∧ size < 2 ^ 31 := by
  have := T.size_pos
  exact ⟨by have := (T.sound.newSize_bounds h).1; omega, (T.sound.newSize_bounds h).2⟩

theorem newSize_isSome (T : TableOk t chain m) (h : 2 * t.size < 2 ^ 31) :
    ∃ size, newSize t = some size := T.sound.newSize_isSome h

theorem sameNodes {chain' : ℕ → List ℕ} {m' : CString → Option ℕ} (T : TableOk t chain m)
    (T' : TableOk t' chain' m') (hd : SameData t.nodes t'.nodes)
    (hs : ∀ x, Stored chain' x ↔ Stored chain x) : SameNodes t t' := by
  refine ⟨fun x ↦ ?_, hd⟩
  simp only [T.inChain, T'.inChain]
  exact hs x

theorem htableResize (T : TableOk t chain m) (h : htableResize t = some t') :
    ∃ chain', TableOk t' chain' m ∧ t'.allowResize = t.allowResize ∧ SameNodes t t' := by
  obtain ⟨size, hsize, h⟩ := Option.bind_eq_some_iff.mp h
  obtain ⟨hpos, hlt⟩ := T.newSize_bounds hsize
  obtain ⟨t₁, chain₁, ht₁, T₁, -, hallow, -, hd, hs⟩ := T.rehash hpos hlt
  obtain rfl : t' = t₁ := Option.some.inj (h.symm.trans ht₁)
  exact ⟨chain₁, T₁, hallow, T.sameNodes T₁ hd hs⟩

theorem htableResize_isSome (T : TableOk t chain m) (h : 2 * t.size < 2 ^ 31) :
    ∃ t', Hashtable.htableResize t = some t' := by
  obtain ⟨size, hsize⟩ := T.newSize_isSome h
  obtain ⟨hpos, hlt⟩ := T.newSize_bounds hsize
  obtain ⟨t₁, chain₁, ht₁, -⟩ := T.rehash hpos hlt
  exact ⟨t₁, by rw [Hashtable.htableResize, hsize, Option.bind_eq_bind, Option.bind_some, ht₁]⟩

end TableOk

theorem htableInit_spec (hsz : 0 ≤ sz) (h : htableInit sz a = some t) :
    TableOk t (fun _ ↦ []) (fun _ ↦ none) ∧ t.allowResize = a := by
  obtain ⟨min, hmin, h⟩ := Option.bind_eq_some_iff.mp h
  obtain ⟨hfits, rfl⟩ := checked_eq_some.mp hmin
  obtain ⟨p, hp, hle, hlt⟩ := getPrime_eq (n := sz + 1) (by have := fits_int.mp hfits; omega)
  rw [hp, Option.bind_eq_bind, Option.bind_some] at h
  obtain rfl := Option.some.inj h
  refine ⟨⟨by simp only; omega, hlt, by simp; omega, Nat.one_pos, ⟨fun i q hq ↦ ?_, fun _ _ ↦ rfl⟩,
    ?_, ?_, ?_, ?_⟩, rfl⟩
  · rw [List.getElem?_replicate] at hq
    split_ifs at hq
    exact (Option.some.inj hq).symm
  all_goals simp [Stored]

end CsoLabs.Hashtable
