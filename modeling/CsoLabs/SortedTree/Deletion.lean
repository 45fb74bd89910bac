import CsoLabs.SortedTree.Nodes

namespace CsoLabs.SortedTree

open Foundation

abbrev AddressTree := BinaryTree ℕ

def rootAddress : AddressTree → ℕ
  | .nil => NULL
  | .node x _ _ => x

def addresses (t : AddressTree) : List ℕ := SearchTree.inorder t

def Linked (nodes : ℕ → Option Tnode) : AddressTree → Prop
  | .nil => True
  | .node x l r => x ≠ NULL ∧
    (∃ n, nodes x = some n ∧ n.left = rootAddress l ∧ n.right = rootAddress r) ∧
    Linked nodes l ∧ Linked nodes r

def Heap.clear (h : Heap) (xs : List ℕ) : Heap :=
  ⟨fun x ↦ if x ∈ xs then none else h.nodes x, h.fresh⟩

variable {h h' : Heap} {nodes nodes' : ℕ → Option Tnode} {t l r : AddressTree}
  {c p q x fuel : ℕ} {n : Tnode} {xs : List ℕ}

theorem clear_mem (hx : x ∈ xs) : (h.clear xs).nodes x = none := if_pos hx

theorem clear_of_not_mem (hx : x ∉ xs) : (h.clear xs).nodes x = h.nodes x := if_neg hx

theorem addresses_node : addresses (.node x l r) = addresses l ++ x :: addresses r := rfl

theorem mem_addresses_node {y : ℕ} :
    y ∈ addresses (.node x l r) ↔ y ∈ addresses l ∨ y = x ∨ y ∈ addresses r := by
  rw [addresses_node, List.mem_append, List.mem_cons]

theorem Linked.allocated (ht : Linked nodes t) (hx : x ∈ addresses t) : ∃ n, nodes x = some n := by
  induction t with
  | nil => exact absurd hx List.not_mem_nil
  | node y l r ihl ihr =>
    obtain ⟨-, ⟨n, hn, -⟩, hl, hr⟩ := ht
    rcases mem_addresses_node.mp hx with hx | rfl | hx
    · exact ihl hl hx
    · exact ⟨n, hn⟩
    · exact ihr hr hx

theorem Linked.congr (ht : Linked nodes t) (hn : ∀ x ∈ addresses t, nodes' x = nodes x) :
    Linked nodes' t := by
  induction t with
  | nil => trivial
  | node x l r ihl ihr =>
    obtain ⟨hx, ⟨n, hnode, hlinks⟩, hl, hr⟩ := ht
    exact ⟨hx, ⟨n, (hn x (mem_addresses_node.mpr (.inr (.inl rfl)))).trans hnode, hlinks⟩,
      ihl hl fun y hy ↦ hn y (mem_addresses_node.mpr (.inl hy)),
      ihr hr fun y hy ↦ hn y (mem_addresses_node.mpr (.inr (.inr hy)))⟩

theorem Linked.root_eq_null (ht : Linked nodes t) : rootAddress t = NULL ↔ t = .nil := by
  cases t with
  | nil => simp [rootAddress]
  | node x l r => simpa [rootAddress] using ht.1

def Side (fuel : ℕ) (q c : ℕ) (f : Tnode → Tnode) (R : Heap → Prop) (h : Heap) : Prop :=
  if c ≠ NULL then wp (delTree fuel c) (fun _ h₁ ↦ ∃ m, h₁.nodes q = some m ∧
    R { h₁ with nodes := Function.update h₁.nodes q (some (f m)) }) h
  else R h

theorem delTree_turn {Q : Unit → Heap → Prop} (hq : q ≠ NULL) :
    wp (delTree (fuel + 1) q) Q h ↔ ∃ n, h.nodes q = some n ∧
      Side fuel q n.left (fun m ↦ { m with left := NULL }) (fun h₁ ↦ ∃ n₁, h₁.nodes q = some n₁ ∧
        Side fuel q n₁.right (fun m ↦ { m with right := NULL }) (fun h₂ ↦ ∃ n₂,
          h₂.nodes q = some n₂ ∧ Q () { h₂ with nodes := Function.update h₂.nodes q none }) h₁) h := by
  rw [delTree, if_neg hq]
  simp only [wp_bind, wp_readNode_iff, wp_onlyIf, writeNode, free, wp_modify, Side]

def Heap.afterSide (h : Heap) (q : ℕ) (n : Tnode) (t : AddressTree) : Heap :=
  ⟨Function.update (h.clear (addresses t)).nodes q (some n), h.fresh⟩

theorem afterSide_nil (hn : h.nodes q = some n) : h.afterSide q n .nil = h := by
  have hclear : (h.clear (addresses .nil)).nodes = h.nodes :=
    funext fun x ↦ clear_of_not_mem List.not_mem_nil
  rw [Heap.afterSide, hclear, ← hn, Function.update_eq_self]

/-- A side ends only if a tree hangs there that the node is not part of. -/
theorem side_inv {f : Tnode → Tnode} {R : Heap → Prop} (hn : h.nodes q = some n)
    (hf : c = NULL → f n = n)
    (hinv : ∀ Q : Unit → Heap → Prop, c ≠ NULL → wp (delTree fuel c) Q h → ∃ t,
      rootAddress t = c ∧ Linked h.nodes t ∧ (addresses t).Nodup ∧ Q () (h.clear (addresses t)))
    (hside : Side fuel q c f R h) :
    ∃ t, rootAddress t = c ∧ Linked h.nodes t ∧ (addresses t).Nodup ∧ q ∉ addresses t ∧
      R (h.afterSide q (f n) t) := by
  rw [Side] at hside
  by_cases hc : c = NULL
  · rw [if_neg (not_not.mpr hc)] at hside
    refine ⟨.nil, hc.symm, trivial, List.nodup_nil, List.not_mem_nil, ?_⟩
    rwa [hf hc, afterSide_nil hn]
  · rw [if_pos hc] at hside
    obtain ⟨t, hroot, ht, hnodup, m, hm, hR⟩ := hinv _ hc hside
    have hq : q ∉ addresses t := fun hq ↦ by
      rw [clear_mem hq] at hm
      cases hm
    rw [clear_of_not_mem hq, hn] at hm
    obtain rfl := Option.some.inj hm
    exact ⟨t, hroot, ht, hnodup, hq, hR⟩

theorem side_of_linked {f : Tnode → Tnode} {R : Heap → Prop} (hn : h.nodes q = some n)
    (hf : t = .nil → f n = n) (ht : Linked h.nodes t) (hq : q ∉ addresses t)
    (hdel : t ≠ .nil → wp (delTree fuel (rootAddress t)) (fun _ h' ↦ h' = h.clear (addresses t)) h)
    (hR : R (h.afterSide q (f n) t)) : Side fuel q (rootAddress t) f R h := by
  rw [Side]
  by_cases hnil : t = .nil
  · rw [if_neg (not_not.mpr (ht.root_eq_null.mpr hnil))]
    rw [hf hnil, hnil, afterSide_nil hn] at hR
    exact hR
  · rw [if_pos (mt ht.root_eq_null.mp hnil)]
    refine (hdel hnil).mono fun _ h₁ hh₁ ↦ ?_
    subst hh₁
    exact ⟨n, (clear_of_not_mem hq).trans hn, hR⟩

theorem afterSide_self : (h.afterSide q n t).nodes q = some n := Function.update_self ..

theorem afterSide_of_ne (hx : x ≠ q) : (h.afterSide q n t).nodes x = (h.clear (addresses t)).nodes x :=
  Function.update_of_ne hx ..

theorem free_afterSides {m : Tnode} :
    (⟨Function.update ((h.afterSide q n l).afterSide q m r).nodes q none, h.fresh⟩ : Heap) =
      h.clear (addresses (.node q l r)) := by
  refine congrArg (Heap.mk · h.fresh) (funext fun x ↦ ?_)
  by_cases hx : x = q
  · subst hx
    rw [Function.update_self, if_pos (mem_addresses_node.mpr (.inr (.inl rfl)))]
  · rw [Function.update_of_ne hx, afterSide_of_ne hx]
    by_cases hr : x ∈ addresses r
    · rw [clear_mem hr, if_pos (mem_addresses_node.mpr (.inr (.inr hr)))]
    · rw [clear_of_not_mem hr, afterSide_of_ne hx]
      by_cases hl : x ∈ addresses l
      · rw [clear_mem hl, if_pos (mem_addresses_node.mpr (.inl hl))]
      · rw [clear_of_not_mem hl, if_neg]
        intro hmem
        rcases mem_addresses_node.mp hmem with h | h | h
        · exact hl h
        · exact hx h
        · exact hr h

theorem Linked.of_afterSide (hr : Linked (h.afterSide q n l).nodes r) (hq : q ∉ addresses r) :
    (∀ x ∈ addresses r, x ∉ addresses l) ∧ Linked h.nodes r := by
  have hx : ∀ x ∈ addresses r, x ∉ addresses l := fun x hx hl ↦ by
    obtain ⟨m, hm⟩ := hr.allocated hx
    rw [afterSide_of_ne (ne_of_mem_of_not_mem hx hq), clear_mem hl] at hm
    cases hm
  refine ⟨hx, hr.congr fun x hmem ↦ ?_⟩
  rw [afterSide_of_ne (ne_of_mem_of_not_mem hmem hq), clear_of_not_mem (hx x hmem)]

/-- `del_tree` ends only on a tree, of which it gives every node back once. -/
theorem delTree_inv {Q : Unit → Heap → Prop} (hq : q ≠ NULL) (hdel : wp (delTree fuel q) Q h) :
    ∃ t, rootAddress t = q ∧ Linked h.nodes t ∧ (addresses t).Nodup ∧
      Q () (h.clear (addresses t)) := by
  induction fuel generalizing q h Q with
  | zero => exact absurd hdel wp_failure
  | succ fuel ih =>
    obtain ⟨n, hn, hside⟩ := (delTree_turn hq).mp hdel
    obtain ⟨l, hleft, hl, hlnodup, hql, n₁, hn₁, hside⟩ :=
      side_inv hn (fun h0 ↦ by rw [← h0]) (fun Q hc ↦ ih hc) hside
    rw [afterSide_self] at hn₁
    obtain rfl := Option.some.inj hn₁
    obtain ⟨r, hright, hr, hrnodup, hqr, n₂, -, hQ⟩ :=
      side_inv afterSide_self (fun h0 ↦ by rw [← h0]) (fun Q hc ↦ ih hc) hside
    obtain ⟨hdisj, hr⟩ := hr.of_afterSide hqr
    refine ⟨.node q l r, rfl, ⟨hq, ⟨n, hn, hleft.symm, hright.symm⟩, hl, hr⟩, ?_, ?_⟩
    · rw [addresses_node, List.nodup_append, List.nodup_cons]
      refine ⟨hlnodup, ⟨hqr, hrnodup⟩, fun x hx y hy he ↦ ?_⟩
      subst he
      rcases List.mem_cons.mp hy with rfl | hy
      · exact hql hx
      · exact hdisj x hy hx
    · rw [← free_afterSides]
      exact hQ

theorem delTree_linked (ht : Linked h.nodes t) (hne : t ≠ .nil) (hnodup : (addresses t).Nodup)
    (hfuel : t.numNodes < fuel) :
    wp (delTree fuel (rootAddress t)) (fun _ h' ↦ h' = h.clear (addresses t)) h := by
  induction t generalizing fuel h with
  | nil => exact absurd rfl hne
  | node q l r ihl ihr =>
    obtain ⟨fuel, rfl⟩ := Nat.exists_eq_succ_of_ne_zero (Nat.ne_of_gt (Nat.zero_lt_of_lt hfuel))
    obtain ⟨hq, ⟨⟨string, _, _⟩, hn, rfl, rfl⟩, hl, hr⟩ := ht
    rw [BinaryTree.numNodes] at hfuel
    rw [addresses_node, List.nodup_append, List.nodup_cons] at hnodup
    obtain ⟨hlnodup, ⟨hqr, hrnodup⟩, hdisj⟩ := hnodup
    have hql : q ∉ addresses l := fun hq ↦ hdisj q hq q List.mem_cons_self rfl
    have hr' : Linked (h.afterSide q ⟨string, NULL, rootAddress r⟩ l).nodes r := by
      refine hr.congr fun x hx ↦ ?_
      rw [afterSide_of_ne (ne_of_mem_of_not_mem hx hqr),
        clear_of_not_mem fun hl ↦ hdisj x hl x (List.mem_cons_of_mem q hx) rfl]
    refine (delTree_turn hq).mpr ⟨_, hn, side_of_linked hn (fun hnil ↦ ?_) hl hql
      (fun hnil ↦ ihl hl hnil hlnodup (by omega)) ⟨_, afterSide_self,
        side_of_linked afterSide_self (fun hnil ↦ ?_) hr' hqr
          (fun hnil ↦ ihr hr' hnil hrnodup (by omega)) ⟨_, afterSide_self, free_afterSides⟩⟩⟩
    · subst hnil
      rfl
    · subst hnil
      rfl

end CsoLabs.SortedTree
