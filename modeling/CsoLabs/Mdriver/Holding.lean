import CsoLabs.Mdriver.Ranges

namespace CsoLabs.Mdriver

open Foundation CInt
open Malloc (Heap Block Package Provides NULL MAX_HEAP gain lose)

structure Tracks (live : ℕ → Option Block) (L : List Extent) : Prop where
  mem : ∀ {p b}, live p = some b → ⟨p, b.size⟩ ∈ L
  live : ∀ {e}, e ∈ L → ∃ b, live e.addr = some b ∧ b.size = e.size
  nodup : (L.map Extent.addr).Nodup

structure Slots (good : ℤ → Block → Prop) (n : ℕ) (ids : Finset ℤ) (live : ℕ → Option Block)
    (blocks sizes : List (Option ℕ)) : Prop where
  lengthBlocks : blocks.length = n
  lengthSizes : sizes.length = n
  held : ∀ i ∈ ids, ∃ p b, element blocks i = some p ∧ element sizes i = some b.size ∧
    live p = some b ∧ good i b
  inj : ∀ i ∈ ids, ∀ j ∈ ids, element blocks i = element blocks j → i = j

structure Holding (good : ℤ → Block → Prop) (n : ℕ) (ids : Finset ℤ) (live : ℕ → Option Block)
    (L : List Extent) (blocks sizes : List (Option ℕ)) : Prop where
  tracks : Tracks live L
  sized : ∀ p b, live p = some b → 0 < b.size ∧ b.size ≤ MAX_HEAP
  slots : Slots good n ids live blocks sizes

variable {good : ℤ → Block → Prop} {n p q : ℕ} {ids : Finset ℤ} {live : ℕ → Option Block}
  {L : List Extent} {blocks sizes : List (Option ℕ)} {i j : ℤ} {b b' : Block} {a : List (Option ℕ)}

theorem gain_self (hp : p ≠ NULL) : gain live p b p = some b := by
  simp [gain, hp]

theorem gain_of_ne (hne : q ≠ p) : gain live p b q = live q := by
  unfold gain
  split_ifs
  · rfl
  · exact Function.update_of_ne hne _ _

theorem lose_of_ne (hne : q ≠ p) : lose live p q = live q := Function.update_of_ne hne _ _

theorem live_of_lose (h : lose live p q = some b) : q ≠ p ∧ live q = some b := by
  by_cases hqp : q = p
  · rw [hqp, lose, Function.update_self] at h
    cases h
  · exact ⟨hqp, (lose_of_ne hqp).symm.trans h⟩

section Elements

theorem element_range (h : element a i = some p) : 0 ≤ i ∧ i < a.length := by
  unfold element CArray.load at h
  split_ifs at h with hi
  · refine ⟨hi, ?_⟩
    by_contra hlt
    rw [List.getElem?_eq_none (by omega)] at h
    cases h
  · cases h

theorem element_set (h₀ : 0 ≤ i) (hlt : i < a.length) (x : ℕ) :
    element (a.set i.toNat (some x)) j = if j = i then some x else element a j := by
  unfold element CArray.load
  by_cases hj : 0 ≤ j
  · rw [if_pos hj, if_pos hj]
    split_ifs with hji
    · rw [hji, List.getElem?_set_self (by omega)]
      rfl
    · rw [List.getElem?_set_ne (by omega)]
  · rw [if_neg hj, if_neg hj, if_neg (by omega)]

theorem store_eq (h₀ : 0 ≤ i) (hlt : i < a.length) (x : Option ℕ) :
    CArray.store a i x = some (a.set i.toNat x) := if_pos ⟨h₀, hlt⟩

end Elements

namespace Tracks

theorem empty : Tracks (fun _ ↦ none) [] := ⟨by simp, by simp, by simp⟩

theorem gain (T : Tracks live L) (hp : p ≠ NULL) (hnew : live p = none) :
    Tracks (gain live p b) (⟨p, b.size⟩ :: L) where
  mem := by
    intro q b' hq
    by_cases hqp : q = p
    · rw [hqp, gain_self hp, Option.some.injEq] at hq
      rw [hqp, hq]
      exact List.mem_cons_self
    · rw [gain_of_ne hqp] at hq
      exact List.mem_cons_of_mem _ (T.mem hq)
  live := by
    intro e he
    rcases List.mem_cons.mp he with rfl | he
    · exact ⟨b, gain_self hp, rfl⟩
    · obtain ⟨b', hb', hsize⟩ := T.live he
      refine ⟨b', ?_, hsize⟩
      rwa [gain_of_ne (by rintro rfl; rw [hnew] at hb'; cases hb')]
  nodup := by
    rw [List.map_cons, List.nodup_cons]
    refine ⟨?_, T.nodup⟩
    intro hmem
    obtain ⟨e, he, hep⟩ := List.mem_map.mp hmem
    obtain ⟨b', hb', -⟩ := T.live he
    rw [hep, hnew] at hb'
    cases hb'

theorem lose (T : Tracks live L) (hp : live p = some b) :
    Tracks (lose live p) (L.eraseP fun e ↦ e.addr = p) := by
  obtain ⟨c, l, r, -, hc, hL, herase⟩ := List.exists_of_eraseP (T.mem hp)
    (p := fun e : Extent ↦ decide (e.addr = p)) (by simp)
  rw [decide_eq_true_eq] at hc
  have hnodup := T.nodup
  rw [herase]
  rw [hL, List.map_append, List.map_cons, List.nodup_middle, ← List.map_append,
    List.nodup_cons] at hnodup
  have hsub : ∀ e ∈ l ++ r, e ∈ L := by
    intro e he
    rw [hL]
    exact List.mem_append.mpr ((List.mem_append.mp he).imp_right (List.mem_cons_of_mem _))
  refine ⟨?_, ?_, hnodup.2⟩
  · intro q b' hq
    obtain ⟨hqp, hq⟩ := live_of_lose hq
    have hmem := T.mem hq
    rw [hL] at hmem
    rcases List.mem_append.mp hmem with hmem | hmem
    · exact List.mem_append_left _ hmem
    · rcases List.mem_cons.mp hmem with he | hmem
      · rw [← he] at hc
        exact absurd hc hqp
      · exact List.mem_append_right _ hmem
  · intro e he
    obtain ⟨b', hb', hsize⟩ := T.live (hsub e he)
    refine ⟨b', ?_, hsize⟩
    rw [lose_of_ne, hb']
    intro hep
    exact hnodup.1 (List.mem_map.mpr ⟨e, he, hep.trans hc.symm⟩)

theorem sum_eraseP (T : Tracks live L) (hp : live p = some b) :
    (L.map Extent.size).sum = b.size + ((L.eraseP fun e ↦ e.addr = p).map Extent.size).sum := by
  obtain ⟨c, l, r, -, hc, hL, herase⟩ := List.exists_of_eraseP (T.mem hp)
    (p := fun e : Extent ↦ decide (e.addr = p)) (by simp)
  rw [decide_eq_true_eq] at hc
  obtain ⟨b', hb', hsize⟩ := T.live (e := c) (by rw [hL]; simp)
  rw [hc, hp, Option.some.injEq] at hb'
  rw [herase, hL, List.map_append, List.map_append, List.sum_append, List.sum_append, List.map_cons,
    List.sum_cons, ← hsize, ← hb']
  omega

end Tracks

namespace Slots

theorem empty (hb : blocks.length = n) (hs : sizes.length = n) :
    Slots good n ∅ live blocks sizes := ⟨hb, hs, by simp, by simp⟩

theorem put (S : Slots good n ids live blocks sizes) (hp : p ≠ NULL) (hnew : live p = none)
    (h₀ : 0 ≤ i) (hlt : i < n) (hg : good i b) :
    Slots good n (insert i ids) (gain live p b) (blocks.set i.toNat (some p))
      (sizes.set i.toNat (some b.size)) := by
  have hb : i < blocks.length := by rw [S.lengthBlocks]; exact hlt
  have hs : i < sizes.length := by rw [S.lengthSizes]; exact hlt
  have hold : ∀ j ∈ ids, element blocks j ≠ some p := by
    intro j hj he
    obtain ⟨q, b', hq, -, hlive, -⟩ := S.held j hj
    rw [hq, Option.some.injEq] at he
    rw [he, hnew] at hlive
    cases hlive
  refine ⟨by rw [List.length_set, S.lengthBlocks], by rw [List.length_set, S.lengthSizes], ?_, ?_⟩
  · intro j hj
    rw [element_set h₀ hb, element_set h₀ hs]
    by_cases hji : j = i
    · rw [if_pos hji, if_pos hji]
      exact ⟨p, b, rfl, rfl, gain_self hp, hji ▸ hg⟩
    · rw [if_neg hji, if_neg hji]
      obtain ⟨q, b', hq, hsize, hlive, hg'⟩ := S.held j (Finset.mem_of_mem_insert_of_ne hj hji)
      refine ⟨q, b', hq, hsize, ?_, hg'⟩
      rwa [gain_of_ne (by rintro rfl; rw [hnew] at hlive; cases hlive)]
  · intro j hj k hk
    rw [element_set h₀ hb, element_set h₀ hb]
    by_cases hji : j = i <;> by_cases hki : k = i
    · intro _
      rw [hji, hki]
    · rw [if_pos hji, if_neg hki]
      intro he
      exact absurd he.symm (hold k (Finset.mem_of_mem_insert_of_ne hk hki))
    · rw [if_neg hji, if_pos hki]
      intro he
      exact absurd he (hold j (Finset.mem_of_mem_insert_of_ne hj hji))
    · rw [if_neg hji, if_neg hki]
      exact S.inj j (Finset.mem_of_mem_insert_of_ne hj hji) k
        (Finset.mem_of_mem_insert_of_ne hk hki)

/-- The block of the slot `i` is given back; the slot keeps its pointer. -/
theorem drop (S : Slots good n ids live blocks sizes) (hi : i ∈ ids)
    (hp : element blocks i = some p) : Slots good n (ids.erase i) (lose live p) blocks sizes := by
  refine ⟨S.lengthBlocks, S.lengthSizes, ?_, ?_⟩
  · intro j hj
    obtain ⟨hji, hj⟩ := Finset.mem_erase.mp hj
    obtain ⟨q, b', hq, hsize, hlive, hg⟩ := S.held j hj
    refine ⟨q, b', hq, hsize, ?_, hg⟩
    rw [lose_of_ne, hlive]
    rintro rfl
    exact hji (S.inj j hj i hi (hq.trans hp.symm))
  · intro j hj k hk
    exact S.inj j (Finset.mem_of_mem_erase hj) k (Finset.mem_of_mem_erase hk)

end Slots

namespace Holding

theorem empty (hb : blocks.length = n) (hs : sizes.length = n) :
    Holding good n ∅ (fun _ ↦ none) [] blocks sizes :=
  ⟨.empty, by simp, .empty hb hs⟩

theorem put (H : Holding good n ids live L blocks sizes) (hp : p ≠ NULL) (hnew : live p = none)
    (h₀ : 0 ≤ i) (hlt : i < n) (hb : 0 < b.size ∧ b.size ≤ MAX_HEAP) (hg : good i b) :
    Holding good n (insert i ids) (gain live p b) (⟨p, b.size⟩ :: L)
      (blocks.set i.toNat (some p)) (sizes.set i.toNat (some b.size)) where
  tracks := H.tracks.gain hp hnew
  sized := by
    intro q b' hq
    by_cases hqp : q = p
    · rw [hqp, gain_self hp, Option.some.injEq] at hq
      rwa [← hq]
    · rw [gain_of_ne hqp] at hq
      exact H.sized q b' hq
  slots := H.slots.put hp hnew h₀ hlt hg

theorem drop (H : Holding good n ids live L blocks sizes) (hi : i ∈ ids)
    (hp : element blocks i = some p) :
    Holding good n (ids.erase i) (lose live p) (L.eraseP fun e ↦ e.addr = p) blocks sizes := by
  obtain ⟨q, b, hq, -, hlive, -⟩ := H.slots.held i hi
  obtain rfl : q = p := Option.some.inj (hq.symm.trans hp)
  refine ⟨H.tracks.lose hlive, ?_, H.slots.drop hi hp⟩
  intro r b' hr
  exact H.sized r b' (live_of_lose hr).2

end Holding
end CsoLabs.Mdriver
