import CsoLabs.Hashtable.Updates

namespace CsoLabs.Hashtable

open Foundation CInt

structure Spread (nodes : ℕ → Option Node) (newStore : List ℕ) (size : ℤ) (chain : ℕ → List ℕ) :
    Prop where
  size_pos : 0 < size
  length : (newStore.length : ℤ) = size
  chains : Chains nodes newStore chain
  placed : ∀ i, ∀ x ∈ chain i, ∃ n, nodes x = some n ∧ n.hashcode.tmod size = i

variable {t t' : Htable} {chain : ℕ → List ℕ} {m : CString → Option ℕ} {nodes : ℕ → Option Node}
  {newStore : List ℕ} {size : ℤ} {curr fuel x : ℕ} {n : Node} {xs : List ℕ}

theorem Spread.push (S : Spread nodes newStore size chain) (hn : nodes x = some n)
    (hx0 : x ≠ NULL) (hx : ¬ Stored chain x) (hpos : 0 ≤ n.hashcode) :
    ∃ head, readStore newStore (n.hashcode.tmod size) = some head ∧
      Spread (Function.update nodes x (some { n with next := if head ≠ NULL then head else NULL }))
        (newStore.set (n.hashcode.tmod size).toNat x) size
        (Function.update chain (n.hashcode.tmod size).toNat
          (x :: chain (n.hashcode.tmod size).toNat)) := by
  have h₁ := Int.tmod_nonneg size hpos
  have h₂ := Int.tmod_lt_of_pos n.hashcode S.size_pos
  have h₃ := S.length
  set j := (n.hashcode.tmod size).toNat with hj
  have hjlt : j < newStore.length := by omega
  have hhead := List.getElem?_eq_getElem hjlt
  refine ⟨newStore[j], by rw [readStore, if_pos h₁, ← hj, hhead], S.size_pos, by simpa using h₃,
    ⟨fun i p hp ↦ ?_, fun i hi ↦ ?_⟩, fun i y hy ↦ ?_⟩
  · have hother : ∀ i, ∀ y ∈ chain i, nextOf (Function.update nodes x
        (some { n with next := if newStore[j] ≠ NULL then newStore[j] else NULL })) y =
        nextOf nodes y := fun i y hy ↦ by
      have hyx : y ≠ x := fun he ↦ hx ⟨i, he ▸ hy⟩
      simp only [nextOf, Function.update_of_ne hyx]
    by_cases hi : i = j
    · subst hi
      rw [List.getElem?_set_self hjlt, Option.some_inj] at hp
      subst hp
      rw [Function.update_self]
      refine ⟨rfl, hx0, newStore[j], ?_, (S.chains.chains j _ hhead).congr (hother j)⟩
      simp only [nextOf, Function.update_self, Option.map_some]
      split_ifs with h <;> simp_all
    · rw [List.getElem?_set_ne (Ne.symm hi)] at hp
      rw [Function.update_of_ne hi]
      exact (S.chains.chains i p hp).congr (hother i)
  · rw [List.length_set] at hi
    rw [Function.update_of_ne (by omega)]
    exact S.chains.outside i hi
  · have hold : y ∈ chain i → ∃ n', Function.update nodes x
        (some { n with next := if newStore[j] ≠ NULL then newStore[j] else NULL }) y = some n' ∧
        n'.hashcode.tmod size = i := fun hy ↦ by
      have hyx : y ≠ x := fun he ↦ hx ⟨i, he ▸ hy⟩
      rw [Function.update_of_ne hyx]
      exact S.placed i y hy
    by_cases hi : i = j
    · subst hi
      rw [Function.update_self] at hy
      rcases List.mem_cons.mp hy with rfl | hy
      · exact ⟨_, Function.update_self .., by simp only; omega⟩
      · exact hold hy
    · rw [Function.update_of_ne hi] at hy
      exact hold hy

def SameData (nodes nodes' : ℕ → Option Node) : Prop := ∀ x, dataOf nodes' x = dataOf nodes x

theorem rehashChain_spec (S : Spread nodes newStore size chain)
    (h : Chain (nextOf nodes) NULL curr xs) (hfuel : xs.length < fuel)
    (hnew : ∀ x ∈ xs, ¬ Stored chain x)
    (hpos : ∀ x ∈ xs, ∀ n, nodes x = some n → 0 ≤ n.hashcode) :
    ∃ nodes' newStore' chain',
      rehashChain size fuel curr (nodes, newStore) = some (nodes', newStore') ∧
      Spread nodes' newStore' size chain' ∧ SameData nodes nodes' ∧
      (∀ x ∉ xs, nodes' x = nodes x) ∧ ∀ x, Stored chain' x ↔ Stored chain x ∨ x ∈ xs := by
  induction xs generalizing fuel curr nodes newStore chain with
  | nil =>
    obtain ⟨fuel, rfl⟩ := Nat.exists_eq_succ_of_ne_zero (Nat.ne_of_gt hfuel)
    obtain rfl : curr = NULL := h
    exact ⟨nodes, newStore, chain, by rw [rehashChain, if_pos rfl], S, fun _ ↦ rfl, fun _ _ ↦ rfl,
      by simp⟩
  | cons x xs ih =>
    obtain ⟨fuel, rfl⟩ := Nat.exists_eq_succ_of_ne_zero (Nat.ne_of_gt (Nat.zero_lt_of_lt hfuel))
    obtain rfl : curr = x := h.1
    have hnodup := h.nodup
    obtain ⟨n, hn, hxs⟩ := Chain.node h
    obtain ⟨head, hhead, S₁⟩ := S.push hn h.2.1 (hnew curr (by simp)) (hpos curr (by simp) n hn)
    set nodes₁ := Function.update nodes curr
      (some { n with next := if head ≠ NULL then head else NULL }) with hnodes₁
    set chain₁ := Function.update chain (n.hashcode.tmod size).toNat
      (curr :: chain (n.hashcode.tmod size).toNat) with hchain₁
    have hne : ∀ y ∈ xs, y ≠ curr := fun y hy he ↦ (List.nodup_cons.mp hnodup).1 (he ▸ hy)
    have hnodes : ∀ y ≠ curr, nodes₁ y = nodes y := fun y hy ↦ Function.update_of_ne hy _ _
    have hstored : ∀ y, Stored chain₁ y ↔ Stored chain y ∨ y = curr := fun y ↦ by
      simp only [Stored, hchain₁]
      constructor
      · rintro ⟨i, hi⟩
        by_cases hij : i = (n.hashcode.tmod size).toNat
        · subst hij
          rw [Function.update_self] at hi
          rcases List.mem_cons.mp hi with rfl | hi
          · exact .inr rfl
          · exact .inl ⟨_, hi⟩
        · rw [Function.update_of_ne hij] at hi
          exact .inl ⟨i, hi⟩
      · rintro (⟨i, hi⟩ | rfl)
        · by_cases hij : i = (n.hashcode.tmod size).toNat
          · subst hij
            exact ⟨_, by rw [Function.update_self]; exact List.mem_cons_of_mem _ hi⟩
          · exact ⟨i, by rwa [Function.update_of_ne hij]⟩
        · refine ⟨(n.hashcode.tmod size).toNat, ?_⟩
          rw [Function.update_self]
          exact List.mem_cons_self
    obtain ⟨nodes', newStore', chain', hr, S', hd, hkeep, hst⟩ := ih S₁
      (hxs.congr fun y hy ↦ by simp only [nextOf, hnodes y (hne y hy)])
      (Nat.lt_of_succ_lt_succ hfuel)
      (fun y hy hy' ↦ ((hstored y).mp hy').elim (hnew y (by simp [hy])) (hne y hy))
      (fun y hy n' hn' ↦ hpos y (by simp [hy]) n' (by rwa [← hnodes y (hne y hy)]))
    refine ⟨nodes', newStore', chain', ?_, S', fun y ↦ ?_, fun y hy ↦ ?_, fun y ↦ ?_⟩
    · rw [rehashChain, if_neg h.2.1, hn]
      simp only [Option.bind_eq_bind, Option.bind_some, hhead]
      exact hr
    · rw [hd y]
      by_cases hy : y = curr
      · subst hy
        simp only [dataOf, hnodes₁, Function.update_self, hn, Option.map_some, Node.data]
      · simp only [dataOf, hnodes y hy]
    · simp only [List.mem_cons, not_or] at hy
      rw [hkeep y hy.2, hnodes y hy.1]
    · rw [hst, hstored, List.mem_cons, or_assoc]

theorem rehashStore_spec {store : List ℕ} {css : List (List ℕ)}
    (S : Spread nodes newStore size chain)
    (h : List.Forall₂ (Chain (nextOf nodes) NULL) store css)
    (hfuel : ∀ xs ∈ css, xs.length < fuel) (hnodup : css.flatten.Nodup)
    (hnew : ∀ x ∈ css.flatten, ¬ Stored chain x)
    (hpos : ∀ x ∈ css.flatten, ∀ n, nodes x = some n → 0 ≤ n.hashcode) :
    ∃ nodes' newStore' chain',
      rehashStore size fuel store (nodes, newStore) = some (nodes', newStore') ∧
      Spread nodes' newStore' size chain' ∧ SameData nodes nodes' ∧
      ∀ x, Stored chain' x ↔ Stored chain x ∨ x ∈ css.flatten := by
  induction store generalizing css nodes newStore chain with
  | nil =>
    obtain rfl := List.forall₂_nil_left_iff.mp h
    exact ⟨nodes, newStore, chain, rfl, S, fun _ ↦ rfl, by simp⟩
  | cons curr store ih =>
    obtain ⟨xs, css, hxs, hrest, rfl⟩ := List.forall₂_cons_left_iff.mp h
    rw [List.flatten_cons] at hnodup hnew hpos
    obtain ⟨hdx, hdc, hdisj⟩ := List.nodup_append.mp hnodup
    obtain ⟨nodes₁, newStore₁, chain₁, hr₁, S₁, hd₁, hkeep, hst₁⟩ := rehashChain_spec S hxs
      (hfuel xs (by simp)) (fun x hx ↦ hnew x (by simp [hx])) (fun x hx ↦ hpos x (by simp [hx]))
    have hout : ∀ x ∈ css.flatten, x ∉ xs := fun x hx hx' ↦ hdisj x hx' x hx rfl
    have hrest₁ : List.Forall₂ (Chain (nextOf nodes₁) NULL) store css := by
      refine (List.forall₂_iff_get.mpr ⟨hrest.length_eq, fun i hi hi' ↦ ?_⟩)
      refine ((List.forall₂_iff_get.mp hrest).2 i hi hi').congr fun x hx ↦ ?_
      have hx' : x ∈ css.flatten := List.mem_flatten.mpr ⟨_, List.get_mem css ⟨i, hi'⟩, hx⟩
      simp only [nextOf, hkeep x (hout x hx')]
    obtain ⟨nodes', newStore', chain', hr, S', hd, hst⟩ := ih S₁ hrest₁
      (fun ys hys ↦ hfuel ys (by simp [hys])) hdc
      (fun x hx hx' ↦ ((hst₁ x).mp hx').elim (hnew x (by simp [hx])) (hout x hx))
      (fun x hx n hn ↦ hpos x (by simp [hx]) n (by rwa [← hkeep x (hout x hx)]))
    refine ⟨nodes', newStore', chain', ?_, S', fun x ↦ (hd x).trans (hd₁ x), fun x ↦ ?_⟩
    · rw [rehashStore, hr₁]
      exact hr
    · rw [hst, hst₁, List.flatten_cons, List.mem_append, or_assoc]

theorem Sound.oldChains (S : Sound t chain) :
    ∃ css, List.Forall₂ (Chain (nextOf t.nodes) NULL) t.store css ∧
      (∀ xs ∈ css, xs.length < t.fresh + 1) ∧ css.flatten.Nodup ∧
      ∀ x, x ∈ css.flatten ↔ Stored chain x := by
  refine ⟨(List.range t.store.length).map chain, ?_, ?_, ?_, fun x ↦ ?_⟩
  · refine List.forall₂_iff_get.mpr ⟨by simp, fun i hi hi' ↦ ?_⟩
    simpa using S.chains.chains i _ (List.getElem?_eq_getElem hi)
  · intro xs hxs
    obtain ⟨i, -, rfl⟩ := List.mem_map.mp hxs
    exact S.length_lt i
  · refine List.nodup_flatten.mpr ⟨fun xs hxs ↦ ?_, ?_⟩
    · obtain ⟨i, hi, rfl⟩ := List.mem_map.mp hxs
      exact (S.chains.chains i _ (List.getElem?_eq_getElem (List.mem_range.mp hi))).nodup
    · refine List.pairwise_map.mpr (List.nodup_range.imp fun hij x hx hx' ↦ hij ?_)
      exact S.disjoint _ _ x hx hx'
  · simp only [List.mem_flatten, List.mem_map, List.mem_range]
    constructor
    · rintro ⟨_, ⟨i, -, rfl⟩, hx⟩
      exact ⟨i, hx⟩
    · rintro ⟨i, hx⟩
      exact ⟨_, ⟨i, S.chains.lt hx, rfl⟩, hx⟩

/-- A rehash to any size places the same nodes anew. -/
theorem Sound.rehash (S : Sound t chain) (hsize : 0 < size) (hlt : size < 2 ^ 31) :
    ∃ t' chain', rehash t size = some t' ∧ Sound t' chain' ∧ t'.size = size ∧
      t'.allowResize = t.allowResize ∧ t'.fresh = t.fresh ∧ SameData t.nodes t'.nodes ∧
      (∀ i, ∀ x ∈ chain' i, ∃ n, t'.nodes x = some n ∧ n.hashcode.tmod size = i) ∧
      ∀ x, Stored chain' x ↔ Stored chain x := by
  obtain ⟨css, hcss, hfuel, hnodup, hmem⟩ := S.oldChains
  have S₀ : Spread t.nodes (List.replicate size.toNat NULL) size fun _ ↦ [] := by
    refine ⟨hsize, by simp; omega, ⟨fun i p hp ↦ ?_, fun _ _ ↦ rfl⟩, by simp⟩
    rw [List.getElem?_replicate] at hp
    split_ifs at hp
    exact (Option.some.inj hp).symm
  obtain ⟨nodes', newStore', chain', hr, S', hd, hst⟩ := rehashStore_spec S₀ hcss hfuel hnodup
    (by simp [Stored]) fun x hx n hn ↦ by
      obtain ⟨n', hn', h⟩ := S.node x ((hmem x).mp hx)
      obtain rfl : n = n' := Option.some.inj (hn.symm.trans hn')
      exact h
  have hst' : ∀ x, Stored chain' x ↔ Stored chain x := fun x ↦ by
    rw [hst, hmem]
    simp [Stored]
  refine ⟨{ t with size := size, store := newStore', nodes := nodes' }, chain', ?_, ?_, rfl, rfl,
    rfl, hd, S'.placed, hst'⟩
  · rw [Hashtable.rehash, hr]
    rfl
  · refine ⟨hsize, hlt, S'.length, S.fresh_pos, S'.chains, fun x hx ↦ S.fresh x ((hst' x).mp hx),
      fun i j x hi hj ↦ ?_, fun x hx ↦ ?_⟩
    · obtain ⟨n, hn, h⟩ := S'.placed i x hi
      obtain ⟨n', hn', h'⟩ := S'.placed j x hj
      obtain rfl : n = n' := Option.some.inj (hn.symm.trans hn')
      omega
    · obtain ⟨n, hn, h⟩ := S.node x ((hst' x).mp hx)
      obtain ⟨n', hn', he, -⟩ := node_of_data (hd x) hn
      exact ⟨n', hn', by rw [he]; exact h⟩

theorem TableOk.rehash (T : TableOk t chain m) (hsize : 0 < size) (hlt : size < 2 ^ 31) :
    ∃ t' chain', rehash t size = some t' ∧ TableOk t' chain' m ∧ t'.size = size ∧
      t'.allowResize = t.allowResize ∧ t'.fresh = t.fresh ∧ SameData t.nodes t'.nodes ∧
      ∀ x, Stored chain' x ↔ Stored chain x := by
  obtain ⟨t', chain', hr, S', hsz, hallow, hfresh, hd, hplaced, hst⟩ := T.sound.rehash hsize hlt
  refine ⟨t', chain', hr, ?_, hsz, hallow, hfresh, hd, hst⟩
  refine ⟨S'.size_pos, S'.size_lt, S'.store_length, S'.fresh_pos, S'.chains, S'.fresh,
    fun i x hx ↦ ?_, fun x y n n' hx hy hn hn' hk ↦ ?_, fun k v ↦ ?_⟩
  · obtain ⟨n', hn', htm⟩ := hplaced i x hx
    obtain ⟨j, hj⟩ := (hst x).mp ⟨i, hx⟩
    obtain ⟨n, hn, h₁, h₂, -⟩ := T.placed j x hj
    obtain ⟨n'', hn'', e₁, e₂, -⟩ := node_of_data (hd x) hn
    obtain rfl : n' = n'' := Option.some.inj (hn'.symm.trans hn'')
    exact ⟨n', hn', by rw [e₁, e₂, h₁], by rw [e₁]; exact h₂, by rw [hsz]; exact htm⟩
  · obtain ⟨n₀, hn₀, -, e, -⟩ := node_of_data (hd x).symm hn
    obtain ⟨n₁, hn₁, -, e', -⟩ := node_of_data (hd y).symm hn'
    exact T.unique x y n₀ n₁ ((hst x).mp hx) ((hst y).mp hy) hn₀ hn₁ (by rw [e, e', hk])
  · rw [T.entries]
    constructor
    · rintro ⟨x, n, hx, hn, rfl, rfl⟩
      obtain ⟨n', hn', -, e, e'⟩ := node_of_data (hd x) hn
      exact ⟨x, n', (hst x).mpr hx, hn', e, e'⟩
    · rintro ⟨x, n, hx, hn, rfl, rfl⟩
      obtain ⟨n', hn', -, e, e'⟩ := node_of_data (hd x).symm hn
      exact ⟨x, n', (hst x).mp hx, hn', e, e'⟩

end CsoLabs.Hashtable
