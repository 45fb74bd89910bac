import CsoLabs.Foundation.SinglyLinked
import CsoLabs.LinkedList.Model

namespace CsoLabs.LinkedList

open Foundation

def State.value (s : State) (p : ℕ) : Option ℤ := (s.nodes p).map ListNode.value

def State.next (s : State) (p : ℕ) : Option ℕ := (s.nodes p).map ListNode.next

variable {freeNode : Nodes → ℕ → Nodes} {s s' : State} {l r xs : List ℕ} {p q temp prev fuel : ℕ}
  {v : ℤ}

/-- What becomes of the list `l ++ p :: r` when `p` is removed: the field that points to `p`
now points behind it, and every other field is as it was. -/
structure Removed (s s' : State) (l : List ℕ) (p : ℕ) (r : List ℕ) : Prop where
  list : Chain s'.next NULL s'.head (l ++ r)
  freed : s'.freed = s.freed ++ [p]
  head : l ≠ [] → s'.head = s.head
  value : ∀ q, q ≠ p → s'.value q = s.value q
  next : ∀ q, q ≠ p → l.getLast? ≠ some q → s'.next q = s.next q

theorem node_of_next (h : s.next p = some q) : ∃ n, s.nodes p = some n ∧ n.next = q :=
  Option.map_eq_some_iff.mp h

theorem value_iff {n : ListNode} (hn : s.nodes p = some n) : s.value p = some v ↔ n.value = v := by
  rw [State.value, hn, Option.map_some, Option.some.injEq]

theorem State.value_congr (h : s'.nodes p = s.nodes q) : s'.value p = s.value q :=
  congrArg (Option.map ListNode.value) h

theorem State.next_congr (h : s'.nodes p = s.nodes q) : s'.next p = s.next q :=
  congrArg (Option.map ListNode.next) h

theorem listFindLoop_absent (hxs : Chain s.next NULL temp xs) (hfuel : xs.length < fuel)
    (habsent : ∀ q ∈ xs, s.value q ≠ some v) :
    listFindLoop s.nodes v fuel temp prev = some (NULL, NULL) := by
  induction xs generalizing temp prev fuel with
  | nil =>
    obtain ⟨fuel, rfl⟩ := Nat.exists_eq_succ_of_ne_zero hfuel.ne'
    rw [listFindLoop, if_neg (not_not.mpr (show temp = NULL from hxs))]
  | cons x xs ih =>
    obtain ⟨fuel, rfl⟩ := Nat.exists_eq_succ_of_ne_zero (Nat.ne_of_gt (Nat.zero_lt_of_lt hfuel))
    obtain ⟨rfl, hx, q, hq, hxs⟩ := hxs
    obtain ⟨n, hn, rfl⟩ := node_of_next hq
    have hv : n.value ≠ v := mt (value_iff hn).mpr (habsent temp List.mem_cons_self)
    rw [listFindLoop, if_pos hx, hn, Option.bind_eq_bind, Option.bind_some, if_neg hv]
    exact ih hxs (Nat.lt_of_succ_lt_succ hfuel) fun q hq ↦ habsent q (List.mem_cons_of_mem _ hq)

theorem listFindLoop_found (hxs : Chain s.next NULL temp (l ++ p :: r)) (hp : s.value p = some v)
    (hl : ∀ q ∈ l, s.value q ≠ some v) (hfuel : l.length < fuel) :
    listFindLoop s.nodes v fuel temp prev = some (p, l.getLastD prev) := by
  induction l generalizing temp prev fuel with
  | nil =>
    obtain ⟨fuel, rfl⟩ := Nat.exists_eq_succ_of_ne_zero hfuel.ne'
    obtain ⟨rfl, hx, q, hq, hxs⟩ := hxs
    obtain ⟨n, hn, rfl⟩ := node_of_next hq
    rw [listFindLoop, if_pos hx, hn, Option.bind_eq_bind, Option.bind_some,
      if_pos ((value_iff hn).mp hp)]
    rfl
  | cons x l ih =>
    obtain ⟨fuel, rfl⟩ := Nat.exists_eq_succ_of_ne_zero (Nat.ne_of_gt (Nat.zero_lt_of_lt hfuel))
    obtain ⟨rfl, hx, q, hq, hxs⟩ := hxs
    obtain ⟨n, hn, rfl⟩ := node_of_next hq
    have hv : n.value ≠ v := mt (value_iff hn).mpr (hl temp List.mem_cons_self)
    rw [listFindLoop, if_pos hx, hn, Option.bind_eq_bind, Option.bind_some, if_neg hv,
      List.getLastD_cons]
    exact ih hxs (fun q hq ↦ hl q (List.mem_cons_of_mem _ hq)) (Nat.lt_of_succ_lt_succ hfuel)

theorem wp_readNode {Q : ListNode → State → Prop} {n : ListNode} (hn : s.nodes p = some n) :
    wp (readNode p) Q s ↔ Q n s := by
  rw [readNode, wp_bind, wp_get, hn]
  exact wp_of_eq rfl

theorem listFind_eq {n : ListNode} (hhead : s.head ≠ NULL) (hn : s.nodes s.head = some n)
    (hv : n.value ≠ v) : listFind s.nodes fuel s.head v =
      listFindLoop s.nodes v fuel s.head NULL := by
  rw [listFind, if_neg hhead, hn, Option.bind_eq_bind, Option.bind_some, if_neg hv]

theorem head_node (hxs : Chain s.next NULL s.head xs) (hne : xs ≠ []) :
    xs.head? = some s.head ∧ s.head ≠ NULL ∧ ∃ n, s.nodes s.head = some n := by
  cases xs with
  | nil => exact absurd rfl hne
  | cons x xs =>
    obtain ⟨rfl, hx, q, hq, -⟩ := hxs
    obtain ⟨n, hn, -⟩ := node_of_next hq
    exact ⟨rfl, hx, n, hn⟩

theorem wp_listRemove_search {Q : ℤ → State → Prop} {n : ListNode} (hhead : s.head ≠ NULL)
    (hn : s.nodes s.head = some n) (hv : n.value ≠ v)
    (hfind : listFindLoop s.nodes v fuel s.head NULL = some (p, q)) :
    wp (listRemove freeNode fuel v) Q s ↔
      wp (if p ≠ NULL then do
          let r ← readNode p
          writeNext q r.next
          callFreeNode freeNode p
          return 1
        else return 0) Q s := by
  rw [listRemove, wp_bind, wp_get, if_neg hhead, wp_bind, wp_readNode hn, if_neg hv,
    listFind_eq hhead hn hv, hfind, wp_bind]
  exact wp_of_eq (show (liftM (some (p, q)) : Prog (ℕ × ℕ)) s = some ((p, q), s) from rfl)

theorem removed_head (hfree : ∀ nodes p q, q ≠ p → freeNode nodes p q = nodes q)
    (hr : Chain s.next NULL q r) (hp : p ∉ r) :
    Removed s ⟨freeNode s.nodes p, q, s.freed ++ [p]⟩ [] p r := by
  have hother : ∀ z, z ≠ p → freeNode s.nodes p z = s.nodes z := hfree s.nodes p
  exact ⟨hr.congr fun z hz ↦ State.next_congr (hother z (ne_of_mem_of_not_mem hz hp)), rfl,
    fun h ↦ absurd rfl h, fun z hz ↦ State.value_congr (hother z hz),
    fun z hz _ ↦ State.next_congr (hother z hz)⟩

theorem listRemove_head (hfree : ∀ nodes p q, q ≠ p → freeNode nodes p q = nodes q)
    (hxs : Chain s.next NULL s.head (p :: r)) (hp : s.value p = some v) :
    wp (listRemove freeNode fuel v) (fun ret s' ↦ ret = 1 ∧ Removed s s' [] p r) s := by
  have hnodup := hxs.nodup
  obtain ⟨rfl, hne, q, hq, hr⟩ := hxs
  obtain ⟨n, hn, rfl⟩ := node_of_next hq
  rw [listRemove, wp_bind, wp_get, if_neg hne, wp_bind]
  refine (wp_readNode hn).mpr ?_
  rw [if_pos ((value_iff hn).mp hp)]
  exact (wp_of_eq rfl).mpr ⟨rfl, removed_head hfree hr (List.nodup_cons.mp hnodup).1⟩

theorem removed_inner {n m : ListNode}
    (hfree : ∀ nodes p q, q ≠ p → freeNode nodes p q = nodes q)
    (hxs : Chain s.next NULL s.head (l ++ q :: p :: r)) (hn : s.nodes q = some n)
    (hm : s.nodes p = some m) :
    Removed s ⟨freeNode (Function.update s.nodes q (some ⟨n.value, m.next⟩)) p, s.head,
      s.freed ++ [p]⟩ (l ++ [q]) p r := by
  have hnodup := hxs.nodup
  rw [List.nodup_append, List.nodup_cons, List.nodup_cons] at hnodup
  obtain ⟨-, ⟨hqr, hpr, -⟩, hdisj⟩ := hnodup
  have hqp : q ≠ p := fun h ↦ hqr (h ▸ List.mem_cons_self)
  have hother : ∀ z, z ≠ p → z ≠ q →
      freeNode (Function.update s.nodes q (some ⟨n.value, m.next⟩)) p z = s.nodes z :=
    fun z hzp hzq ↦ (hfree _ _ _ hzp).trans (Function.update_of_ne hzq ..)
  have hpred : freeNode (Function.update s.nodes q (some ⟨n.value, m.next⟩)) p q =
      some ⟨n.value, m.next⟩ := (hfree _ _ _ hqp).trans (Function.update_self ..)
  refine ⟨?_, rfl, fun _ ↦ rfl, fun z hz ↦ ?_, fun z hz hzq ↦ ?_⟩
  · rw [List.append_assoc, List.singleton_append]
    refine hxs.unlink ?_ fun z hz ↦ State.next_congr ?_
    · exact (congrArg (Option.map ListNode.next) hpred).trans
        (congrArg (Option.map ListNode.next) hm).symm
    · rcases List.mem_append.mp hz with hz | hz
      · exact hother z (hdisj z hz p (by simp)) (hdisj z hz q (by simp))
      · exact hother z (ne_of_mem_of_not_mem hz hpr)
          (ne_of_mem_of_not_mem (List.mem_cons_of_mem p hz) hqr)
  · by_cases hzq : z = q
    · subst hzq
      exact (congrArg (Option.map ListNode.value) hpred).trans
        (congrArg (Option.map ListNode.value) hn).symm
    · exact State.value_congr (hother z hz hzq)
  · have hzq' : z ≠ q := fun h ↦ hzq (by rw [h, List.getLast?_concat])
    exact State.next_congr (hother z hz hzq')

theorem wp_unlink {Q : ℤ → State → Prop} {n m : ListNode} (hn : s.nodes q = some n)
    (hm : s.nodes p = some m) :
    wp (do
      let r ← readNode p
      writeNext q r.next
      callFreeNode freeNode p
      return 1) Q s ↔
    Q 1 ⟨freeNode (Function.update s.nodes q (some ⟨n.value, m.next⟩)) p, s.head,
      s.freed ++ [p]⟩ := by
  rw [wp_bind, wp_readNode hm, wp_bind, writeNext, wp_bind, wp_readNode hn, wp_modify, wp_bind,
    callFreeNode, wp_modify, wp_pure]

theorem listRemove_found (hfree : ∀ nodes p q, q ≠ p → freeNode nodes p q = nodes q)
    (hxs : Chain s.next NULL s.head (l ++ p :: r)) (hp : s.value p = some v)
    (hl : ∀ z ∈ l, s.value z ≠ some v) (hfuel : l.length < fuel) :
    wp (listRemove freeNode fuel v) (fun ret s' ↦ ret = 1 ∧ Removed s s' l p r) s := by
  rcases List.eq_nil_or_concat' l with rfl | ⟨l, q, rfl⟩
  · exact listRemove_head hfree hxs hp
  · have hfind : listFindLoop s.nodes v fuel s.head NULL = some (p, q) := by
      rw [listFindLoop_found hxs hp hl hfuel, List.getLastD_concat]
    obtain ⟨hfirst, hhead, n, hn⟩ := head_node hxs (by simp)
    rw [List.head?_append_of_ne_nil _ (by simp)] at hfirst
    have hv : n.value ≠ v := mt (value_iff hn).mpr (hl _ (List.mem_of_mem_head? hfirst))
    rw [List.append_assoc, List.singleton_append] at hxs
    obtain ⟨-, p', hp', rfl, hp₀, r', hr', -⟩ := hxs.next_of_append
    obtain ⟨m, hm, -⟩ := node_of_next hp'
    obtain ⟨k, hk, -⟩ := node_of_next hr'
    rw [wp_listRemove_search hhead hn hv hfind, if_pos hp₀, wp_unlink hm hk]
    exact ⟨rfl, removed_inner hfree hxs hm hk⟩

theorem listRemove_absent (hxs : Chain s.next NULL s.head xs) (hhead : s.head ≠ NULL)
    (habsent : ∀ q ∈ xs, s.value q ≠ some v) (hfuel : xs.length < fuel) :
    wp (listRemove freeNode fuel v) (fun ret s' ↦ ret = 0 ∧ s' = s) s := by
  have hfind : listFindLoop s.nodes v fuel s.head NULL = some (NULL, NULL) :=
    listFindLoop_absent hxs hfuel habsent
  obtain ⟨hfirst, -, n, hn⟩ := head_node hxs fun h ↦ hhead (by rwa [h] at hxs)
  have hv : n.value ≠ v := mt (value_iff hn).mpr (habsent _ (List.mem_of_mem_head? hfirst))
  rw [wp_listRemove_search hhead hn hv hfind, if_neg (not_not.mpr rfl)]
  exact wp_pure.mpr ⟨rfl, rfl⟩

/-- The first node with the value, if there is one, is taken out of the list and freed. -/
theorem listRemove_spec (hfree : ∀ nodes p q, q ≠ p → freeNode nodes p q = nodes q)
    (hxs : Chain s.next NULL s.head xs) (hhead : s.head ≠ NULL) (v : ℤ) :
    ∃ fuel ret s', listRemove freeNode fuel v s = some (ret, s') ∧
      (ret = 1 ↔ ∃ p ∈ xs, s.value p = some v) ∧
      (ret = 1 → ∃ l p r, xs = l ++ p :: r ∧ s.value p = some v ∧
        (∀ q ∈ l, s.value q ≠ some v) ∧ Removed s s' l p r) ∧
      (ret ≠ 1 → ret = 0 ∧ s' = s) := by
  refine ⟨xs.length + 1, ?_⟩
  rcases hfirst : xs.find? (fun q ↦ s.value q = some v) with _ | p
  · have habsent : ∀ q ∈ xs, s.value q ≠ some v := by simpa using hfirst
    obtain ⟨ret, s', hrun, rfl, rfl⟩ : wp (listRemove freeNode (xs.length + 1) v)
        (fun ret s' ↦ ret = 0 ∧ s' = s) s := listRemove_absent hxs hhead habsent (by omega)
    refine ⟨0, s', hrun, iff_of_false (by decide) fun h ↦ ?_, fun h ↦ ?_, fun _ ↦ ⟨rfl, rfl⟩⟩
    · obtain ⟨p, hp, hv⟩ := h
      exact habsent p hp hv
    · exact absurd h (by decide)
  · obtain ⟨hp, l, r, rfl, hl⟩ := List.find?_eq_some_iff_append.mp hfirst
    have hp' : s.value p = some v := by simpa using hp
    have hl' : ∀ q ∈ l, s.value q ≠ some v := by simpa using hl
    obtain ⟨ret, s', hrun, rfl, hremoved⟩ : wp (listRemove freeNode ((l ++ p :: r).length + 1) v)
        (fun ret s' ↦ ret = 1 ∧ Removed s s' l p r) s :=
      listRemove_found hfree hxs hp' hl' (by simp)
    exact ⟨1, s', hrun, iff_of_true rfl ⟨p, by simp, hp'⟩,
      fun _ ↦ ⟨l, p, r, rfl, hp', hl', hremoved⟩, fun h ↦ absurd rfl h⟩

def threeNodes : State where
  nodes p := if p = 1 then some ⟨5, 2⟩ else if p = 2 then some ⟨7, 3⟩
    else if p = 3 then some ⟨7, NULL⟩ else none
  head := 1
  freed := []

theorem listRemove_spec_seven :
    ∃ fuel ret s', listRemove (fun nodes p ↦ Function.update nodes p none) fuel 7 threeNodes =
        some (ret, s') ∧
      (ret = 1 ↔ ∃ p ∈ [1, 2, 3], threeNodes.value p = some 7) ∧
      (ret = 1 → ∃ l p r, [1, 2, 3] = l ++ p :: r ∧ threeNodes.value p = some 7 ∧
        (∀ q ∈ l, threeNodes.value q ≠ some 7) ∧ Removed threeNodes s' l p r) ∧
      (ret ≠ 1 → ret = 0 ∧ s' = threeNodes) :=
  listRemove_spec (fun _ _ _ h ↦ Function.update_of_ne h ..)
    (show Chain threeNodes.next NULL threeNodes.head [1, 2, 3] from
      ⟨rfl, by decide, 2, rfl, rfl, by decide, 3, rfl, rfl, by decide, NULL, rfl, rfl⟩)
    (by decide) 7

end CsoLabs.LinkedList
