import CsoLabs.Hashtable.Chains

namespace CsoLabs.Hashtable

open Foundation CInt

variable {t t' : Htable} {chain chain' : ℕ → List ℕ} {m : CString → Option ℕ}
  {nodes nodes' : ℕ → Option Node} {store store' : List ℕ} {hcode : ℤ} {key : CString}
  {val prev x y : ℕ} {n : Node} {xs : List ℕ}

theorem node_of_data (h : dataOf nodes' x = dataOf nodes x) (hn : nodes x = some n) :
    ∃ n', nodes' x = some n' ∧ n'.hashcode = n.hashcode ∧ n'.key = n.key ∧ n'.val = n.val := by
  rw [dataOf, dataOf, hn] at h
  obtain ⟨n', hn', hd⟩ := Option.map_eq_some_iff.mp h
  simp only [Node.data, Prod.mk.injEq] at hd
  exact ⟨n', hn', hd⟩

theorem Chains.lt (C : Chains nodes store chain) {i : ℕ} (hx : x ∈ chain i) : i < store.length := by
  by_contra hge
  rw [C.outside i (by omega)] at hx
  simp at hx

theorem Chains.ne_null (C : Chains nodes store chain) (hx : Stored chain x) : x ≠ NULL := by
  obtain ⟨i, hx⟩ := hx
  exact (C.chains i _ (List.getElem?_eq_getElem (C.lt hx))).ne_null hx

/-- A node is in one chain only, the one its hash leads to. -/
theorem TableOk.chain_unique (T : TableOk t chain m) {i j : ℕ} (hi : x ∈ chain i)
    (hj : x ∈ chain j) : i = j :=
  T.sound.disjoint i j x hi hj

theorem TableOk.append (T : TableOk t chain m) (hh : hashcode key = some hcode) (hpos : 0 ≤ hcode)
    (hnew : m key = none) (hchain : chain' = Function.update chain (hcode.tmod t.size).toNat
      (chain (hcode.tmod t.size).toNat ++ [t.fresh]))
    (hdata : ∀ y ≠ t.fresh, dataOf nodes' y = dataOf t.nodes y)
    (hn : ∃ n, nodes' t.fresh = some n ∧ n.hashcode = hcode ∧ n.key = key ∧ n.val = val)
    (hlen : store'.length = t.store.length) (hC : Chains nodes' store' chain') :
    TableOk { t with store := store', nodes := nodes', fresh := t.fresh + 1 } chain'
      (Function.update m key (some val)) := by
  obtain ⟨n, hn, rfl, rfl, rfl⟩ := hn
  set i₀ := (n.hashcode.tmod t.size).toNat with hi₀
  have hmem : ∀ i x, x ∈ chain' i ↔ x ∈ chain i ∨ i = i₀ ∧ x = t.fresh := fun i x ↦ by
    rw [hchain]
    by_cases hi : i = i₀
    · subst hi
      simp
    · simp [hi]
  have hstored : ∀ x, Stored chain' x ↔ Stored chain x ∨ x = t.fresh := fun x ↦ by
    simp only [Stored, hmem, exists_or]
    simp
  have hlt : ∀ x, Stored chain x → x ≠ t.fresh := fun x hx ↦ (T.fresh x hx).ne
  have hold : ∀ x, Stored chain x → ∀ n', nodes' x = some n' → ∃ n, t.nodes x = some n ∧
      n.hashcode = n'.hashcode ∧ n.key = n'.key ∧ n.val = n'.val := fun x hx n' hn' ↦
    node_of_data (hdata x (hlt x hx)).symm hn'
  have hkey : ∀ x, Stored chain x → ∀ n', nodes' x = some n' → n'.key ≠ n.key :=
    fun x hx n' hn' he ↦ by
      obtain ⟨n₀, hn₀, -, hk, -⟩ := hold x hx n' hn'
      rw [(T.entries n.key n₀.val).mpr ⟨x, n₀, hx, hn₀, hk.trans he, rfl⟩] at hnew
      cases hnew
  refine ⟨T.size_pos, T.size_lt, by rw [hlen]; exact T.store_length, Nat.succ_pos _, hC,
    ?_, ?_, ?_, ?_⟩
  · intro x hx
    rcases (hstored x).mp hx with hx | rfl
    · exact (T.fresh x hx).trans (Nat.lt_succ_self _)
    · exact Nat.lt_succ_self _
  · intro i x hx
    rcases (hmem i x).mp hx with hx | ⟨rfl, rfl⟩
    · obtain ⟨n₀, hn₀, h₁, h₂, h₃⟩ := T.placed i x hx
      obtain ⟨n', hn', e₁, e₂, -⟩ := node_of_data (hdata x (hlt x ⟨i, hx⟩)) hn₀
      exact ⟨n', hn', by rw [e₁, e₂, h₁], by rw [e₁]; exact h₂, by rw [e₁]; exact h₃⟩
    · refine ⟨n, hn, hh, hpos, ?_⟩
      have := Int.tmod_nonneg t.size hpos
      exact (Int.toNat_of_nonneg this).symm
  · intro x y n₁ n₂ hx hy hn₁ hn₂ hk
    rcases (hstored x).mp hx with hx | rfl <;> rcases (hstored y).mp hy with hy | rfl
    · obtain ⟨m₁, hm₁, -, k₁, -⟩ := hold x hx n₁ hn₁
      obtain ⟨m₂, hm₂, -, k₂, -⟩ := hold y hy n₂ hn₂
      exact T.unique x y m₁ m₂ hx hy hm₁ hm₂ (by rw [k₁, k₂, hk])
    · obtain rfl : n₂ = n := Option.some.inj (hn₂.symm.trans hn)
      exact absurd hk (hkey x hx n₁ hn₁)
    · obtain rfl : n₁ = n := Option.some.inj (hn₁.symm.trans hn)
      exact absurd hk.symm (hkey y hy n₂ hn₂)
    · rfl
  · intro k v
    by_cases hk : k = n.key
    · subst hk
      rw [Function.update_self, Option.some_inj]
      constructor
      · rintro rfl
        exact ⟨t.fresh, n, (hstored _).mpr (.inr rfl), hn, rfl, rfl⟩
      · rintro ⟨x, n', hx, hn', hk', rfl⟩
        rcases (hstored x).mp hx with hx | rfl
        · exact absurd hk' (hkey x hx n' hn')
        · rw [Option.some.inj (hn.symm.trans hn')]
    · rw [Function.update_of_ne hk, T.entries]
      constructor
      · rintro ⟨x, n₀, hx, hn₀, rfl, rfl⟩
        obtain ⟨n', hn', -, e₂, e₃⟩ := node_of_data (hdata x (hlt x hx)) hn₀
        exact ⟨x, n', (hstored x).mpr (.inl hx), hn', e₂, e₃⟩
      · rintro ⟨x, n', hx, hn', rfl, rfl⟩
        rcases (hstored x).mp hx with hx | rfl
        · obtain ⟨n₀, hn₀, -, e₂, e₃⟩ := hold x hx n' hn'
          exact ⟨x, n₀, hx, hn₀, e₂, e₃⟩
        · exact absurd (by rw [Option.some.inj (hn.symm.trans hn')]) hk

structure Appended (t t' : Htable) (chain : ℕ → List ℕ) (i : ℕ) (new : Node) : Prop where
  size : t'.size = t.size
  allowResize : t'.allowResize = t.allowResize
  fresh : t'.fresh = t.fresh + 1
  length : t'.store.length = t.store.length
  chains : Chains t'.nodes t'.store (Function.update chain i (chain i ++ [t.fresh]))
  data : ∀ y ≠ t.fresh, dataOf t'.nodes y = dataOf t.nodes y
  new : t'.nodes t.fresh = some new
  others : ∀ j ≠ i, ∀ y ∈ chain j, t'.nodes y = t.nodes y

theorem mem_appended {i j : ℕ} :
    x ∈ Function.update chain i (chain i ++ [y]) j ↔ x ∈ chain j ∨ j = i ∧ x = y := by
  by_cases hj : j = i
  · subst hj
    simp
  · simp [hj]

theorem stored_appended {i : ℕ} :
    Stored (Function.update chain i (chain i ++ [y])) x ↔ Stored chain x ∨ x = y := by
  simp only [Stored, mem_appended, exists_or]
  simp

theorem Sound.appendNode (S : Sound t chain) (hcode : ℤ) (key : CString) (val : ℕ) {slot : ℤ}
    (h₀ : 0 ≤ slot) (hlt : slot < t.size) :
    ∃ t', t.appendNode slot hcode key val ((chain slot.toNat).getLastD NULL) = some t' ∧
      Appended t t' chain slot.toNat ⟨hcode, key, val, NULL⟩ := by
  set i := slot.toNat with hi
  obtain ⟨p, -, hp, hchain⟩ := S.readStore h₀ hlt
  rw [← hi] at hp hchain
  have hilt : i < t.store.length := by have := S.store_length; omega
  have hfresh : ∀ x, Stored chain x → x ≠ t.fresh := fun x hx ↦ (S.fresh x hx).ne
  have hf0 : t.fresh ≠ NULL := S.fresh_pos.ne'
  set new : Node := ⟨hcode, key, val, NULL⟩ with hnewdef
  have hother : ∀ j, j ≠ i → ∀ nodes' : ℕ → Option Node,
      (∀ x ∈ chain j, nextOf nodes' x = nextOf t.nodes x) → ∀ q, t.store[j]? = some q →
      Chain (nextOf nodes') NULL q (Function.update chain i (chain i ++ [t.fresh]) j) :=
    fun j hj nodes' hn q hq ↦ by
      rw [Function.update_of_ne hj]
      exact (S.chains.chains j q hq).congr hn
  have houtside : ∀ s : List ℕ, s.length = t.store.length → ∀ j, s.length ≤ j →
      Function.update chain i (chain i ++ [t.fresh]) j = [] := fun s hs j hj ↦ by
    rw [Function.update_of_ne (by omega)]
    exact S.chains.outside j (by omega)
  rcases List.eq_nil_or_concat' (chain i) with hnil | ⟨ys, q, hys⟩
  · have hnodes : ∀ x ≠ t.fresh, Function.update t.nodes t.fresh (some new) x = t.nodes x :=
      fun x hx ↦ Function.update_of_ne hx _ _
    refine ⟨{ t with
        store := t.store.set i t.fresh
        nodes := Function.update t.nodes t.fresh (some new)
        fresh := t.fresh + 1 },
      by rw [hnil, List.getLastD_nil, Htable.appendNode, if_pos rfl], rfl, rfl, rfl, by simp,
      ⟨fun j q hq ↦ ?_, houtside _ (by simp)⟩, fun y hy ↦ by simp only [dataOf, hnodes y hy],
      Function.update_self .., fun j _ y hy ↦ hnodes y (hfresh y ⟨j, hy⟩)⟩
    by_cases hj : j = i
    · subst hj
      rw [List.getElem?_set_self hilt, Option.some_inj] at hq
      subst hq
      rw [Function.update_self, hnil]
      exact ⟨rfl, hf0, NULL, by simp [nextOf, hnewdef], rfl⟩
    · rw [List.getElem?_set_ne (Ne.symm hj)] at hq
      exact hother j hj _ (fun x hx ↦ by simp only [nextOf, hnodes x (hfresh x ⟨j, hx⟩)]) q hq
  · have hq : q ∈ chain i := by simp [hys]
    have hq0 : q ≠ NULL := hchain.ne_null hq
    have hqf := hfresh q ⟨i, hq⟩
    obtain ⟨nq, hnq, -⟩ := S.node q ⟨i, hq⟩
    set nodes' := Function.update (Function.update t.nodes t.fresh (some new)) q
      (some { nq with next := t.fresh }) with hnodes'
    have hnodes : ∀ x, x ≠ t.fresh → x ≠ q → nodes' x = t.nodes x := fun x hx hxq ↦ by
      rw [hnodes', Function.update_of_ne hxq, Function.update_of_ne hx]
    have hnf : nodes' t.fresh = some new := by
      rw [hnodes', Function.update_of_ne hqf.symm, Function.update_self]
    have hnq' : nodes' q = some { nq with next := t.fresh } := by
      rw [hnodes', Function.update_self]
    have hlast : (chain i).getLastD NULL = q := by simp [hys]
    have hrest : ∀ j ≠ i, ∀ y ∈ chain j, nodes' y = t.nodes y := fun j hj y hy ↦
      hnodes y (hfresh y ⟨j, hy⟩) fun he ↦ hj (S.disjoint j i y hy (he ▸ hq))
    refine ⟨{ t with nodes := nodes', fresh := t.fresh + 1 }, ?_, rfl, rfl, rfl, rfl,
      ⟨fun j r hr ↦ ?_, houtside _ rfl⟩, fun y hy ↦ ?_, hnf, hrest⟩
    · rw [hlast, Htable.appendNode, if_neg hq0, Function.update_of_ne hqf, hnq]
      rfl
    · by_cases hj : j = i
      · subst hj
        rw [hp, Option.some_inj] at hr
        subst hr
        rw [Function.update_self, hys]
        rw [hys] at hchain
        refine hchain.concat hf0 (fun z hz ↦ ?_) (by simp [nextOf, hnq'])
          (by simp [nextOf, hnf, hnewdef])
        have hzq : z ≠ q := by
          rintro rfl
          exact (List.nodup_append.mp hchain.nodup).2.2 z hz z (by simp) rfl
        simp only [nextOf, hnodes z (hfresh z ⟨i, by simp [hys, hz]⟩) hzq]
      · exact hother j hj _ (fun x hx ↦ by simp only [nextOf, hrest j hj x hx]) r hr
    · by_cases hyq : y = q
      · subst hyq
        simp only [dataOf, hnq', hnq, Option.map_some, Node.data]
      · simp only [dataOf, hnodes y hy hyq]

theorem Sound.appended {i : ℕ} (S : Sound t chain) (h : Appended t t' chain i n)
    (hpos : 0 ≤ n.hashcode) : Sound t' (Function.update chain i (chain i ++ [t.fresh])) where
  size_pos := by rw [h.size]; exact S.size_pos
  size_lt := by rw [h.size]; exact S.size_lt
  store_length := by rw [h.length, h.size]; exact S.store_length
  fresh_pos := by rw [h.fresh]; exact Nat.succ_pos _
  chains := h.chains
  fresh x hx := by
    rw [h.fresh]
    rcases stored_appended.mp hx with hx | rfl
    · exact (S.fresh x hx).trans (Nat.lt_succ_self _)
    · exact Nat.lt_succ_self _
  disjoint j k x hj hk := by
    rcases mem_appended.mp hj with hj' | ⟨hji, hx⟩ <;>
      rcases mem_appended.mp hk with hk' | ⟨hki, hx'⟩
    · exact S.disjoint j k x hj' hk'
    · exact absurd hx' (S.fresh x ⟨j, hj'⟩).ne
    · exact absurd hx (S.fresh x ⟨k, hk'⟩).ne
    · exact hji.trans hki.symm
  node x hx := by
    rcases stored_appended.mp hx with hx | rfl
    · obtain ⟨n₀, hn₀, hpos₀⟩ := S.node x hx
      obtain ⟨n', hn', he, -⟩ := node_of_data (h.data x (S.fresh x hx).ne) hn₀
      exact ⟨n', hn', by rw [he]; exact hpos₀⟩
    · exact ⟨n, h.new, hpos⟩

theorem TableOk.appended (T : TableOk t chain m) (hh : hashcode key = some hcode)
    (hpos : 0 ≤ hcode) (hnew : m key = none)
    (h : Appended t t' chain (hcode.tmod t.size).toNat ⟨hcode, key, val, NULL⟩) :
    TableOk t' (Function.update chain (hcode.tmod t.size).toNat
      (chain (hcode.tmod t.size).toNat ++ [t.fresh])) (Function.update m key (some val)) := by
  have T' := T.append hh hpos hnew rfl h.data ⟨_, h.new, rfl, rfl, rfl⟩ h.length h.chains
  have ht : { t with store := t'.store, nodes := t'.nodes, fresh := t.fresh + 1 } = t' := by
    rw [← h.fresh, ← h.size, ← h.allowResize]
  rwa [ht] at T'

theorem TableOk.appendNode (T : TableOk t chain m) (val : ℕ)
    (hh : hashcode key = some hcode) (hpos : 0 ≤ hcode) (hnew : m key = none) :
    ∃ t' chain', t.appendNode (hcode.tmod t.size) hcode key val
        ((chain (hcode.tmod t.size).toNat).getLastD NULL) = some t' ∧
      TableOk t' chain' (Function.update m key (some val)) ∧ t'.size = t.size ∧
      t'.allowResize = t.allowResize ∧ t'.fresh = t.fresh + 1 := by
  obtain ⟨h₀, hlt⟩ := T.sound.tmod_lt hpos
  obtain ⟨t', ht', h⟩ := T.sound.appendNode hcode key val h₀ hlt
  exact ⟨t', _, ht', T.appended hh hpos hnew h, h.size, h.allowResize, h.fresh⟩

end CsoLabs.Hashtable
