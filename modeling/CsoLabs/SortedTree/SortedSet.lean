import CsoLabs.SortedTree.Nodes

namespace CsoLabs.SortedTree

open Foundation CInt CString SearchTree

variable {h h' : Heap} {nodes : ℕ → Option Tnode} {t l r : NodeTree} {x p fuel : ℕ}
  {s string : CString} {n : Tnode}

theorem wp_readNode {Q : Tnode → Heap → Prop} (hn : h.nodes p = some n) :
    wp (readNode p) Q h ↔ Q n h := by
  simp only [wp_readNode_iff, hn, Option.some.injEq, exists_eq_left']

theorem wp_hang {Q : ℤ → Heap → Prop} (f : ℕ → Tnode) :
    wp (do
      let newNode ← allocNode s
      writeNode x (f newNode)
      return 0) Q h ↔ Q 0 (h.hang x s (f h.fresh)) :=
  wp_of_eq rfl

theorem strings_node : strings (.node (x, s) l r) = .node s (strings l) (strings r) := rfl

/-- The recursion of `insert` descends as the search for the string does. -/
theorem insertRec_spec (T : TreeOk h t) (ht : t ≠ .nil) (hs : Sorted (strings t))
    (hfuel : t.numNodes < fuel) :
    wp (insertRec fuel (root t) s) (fun ret h' ↦
      ret = (if s ∈ SearchTree.inorder (strings t) then 1 else 0) ∧
        ∃ t', Grows h h' t t' ∧ strings t' = SearchTree.insert s (strings t)) h := by
  induction t generalizing fuel with
  | nil => exact absurd rfl ht
  | node a l r ihl ihr =>
    obtain ⟨x, string⟩ := a
    obtain ⟨fuel, rfl⟩ := Nat.exists_eq_succ_of_ne_zero (Nat.ne_of_gt (Nat.zero_lt_of_lt hfuel))
    obtain ⟨hx, hnode, -, -⟩ := T.isTree
    obtain ⟨hl, hr, -⟩ := T.subtrees
    have hsort := sorted_node.mp (strings_node ▸ hs)
    rw [BinaryTree.numNodes] at hfuel
    rw [insertRec, wp_bind]
    refine (wp_readNode hnode).mpr ?_
    simp only
    rw [strings_node] at hs ⊢
    by_cases hlt : s < string
    · rw [if_pos (strcmp_pos.mpr hlt), SearchTree.insert, if_pos hlt]
      simp only [mem_left hs hlt]
      by_cases hnil : l = .nil
      · subst hnil
        rw [if_pos (show root .nil = NULL from rfl)]
        exact (wp_hang fun p ↦ ⟨some string, p, root r⟩).mpr ⟨rfl, _, .hang_left T, rfl⟩
      · rw [if_neg (mt hl.isTree.root_eq_null.mp hnil)]
        refine (ihl hl hnil hsort.1 (by omega)).mono fun ret h' hret ↦ ?_
        obtain ⟨hret, t', G, hst⟩ := hret
        exact ⟨hret, _, G.left T, by rw [strings_node, hst]⟩
    · rw [if_neg (mt strcmp_pos.mp hlt), SearchTree.insert, if_neg hlt]
      by_cases hgt : string < s
      · rw [if_pos (strcmp_neg.mpr hgt), if_pos hgt]
        simp only [mem_right hs hgt]
        by_cases hnil : r = .nil
        · subst hnil
          rw [if_pos (show root .nil = NULL from rfl)]
          exact (wp_hang fun p ↦ ⟨some string, root l, p⟩).mpr ⟨rfl, _, .hang_right T, rfl⟩
        · rw [if_neg (mt hr.isTree.root_eq_null.mp hnil)]
          refine (ihr hr hnil hsort.2.1 (by omega)).mono fun ret h' hret ↦ ?_
          obtain ⟨hret, t', G, hst⟩ := hret
          exact ⟨hret, _, G.right T, by rw [strings_node, hst]⟩
      · obtain rfl : s = string := le_antisymm (not_lt.mp hgt) (not_lt.mp hlt)
        rw [if_neg (mt strcmp_neg.mp hgt), if_neg hgt]
        exact wp_pure.mpr ⟨by simp [SearchTree.inorder], _, .refl T, rfl⟩

structure Holds (h : Heap) (p : ℕ) (t : NodeTree) : Prop where
  ok : TreeOk h t
  root : root t = p
  sorted : Sorted (strings t)
  ne_nil : t ≠ .nil

/-- The memory then holds the tree that inserting into the tree of the strings gives, and no node
that was allocated outside the tree is touched. -/
theorem Holds.insert_strings {tree : ℕ} (H : Holds h tree t) :
    wp (insert tree s) (fun ret h' ↦
      ret = (if s ∈ SearchTree.inorder (strings t) then 1 else 0) ∧
        ∃ t', Holds h' tree t' ∧ Grows h h' t t' ∧
          strings t' = SearchTree.insert s (strings t)) h := by
  rw [SortedTree.insert, wp_bind, wp_get, ← H.root]
  refine (insertRec_spec H.ok H.ne_nil H.sorted
    (Nat.lt_succ_of_le H.ok.numNodes_le)).mono fun ret h' hret ↦ ?_
  obtain ⟨hret, t', G, hst⟩ := hret
  refine ⟨hret, t', ⟨G.tree, G.root, hst ▸ H.sorted.insert, ?_⟩, G, hst⟩
  rintro rfl
  exact mt H.ok.isTree.root_eq_null.mp H.ne_nil G.root.symm

theorem insert_empty {tree : ℕ} (hroot : h.nodes tree = some ⟨none, NULL, NULL⟩)
    (h0 : tree ≠ NULL) (hlt : tree < h.fresh) :
    wp (insert tree s) (fun ret h' ↦ ret = 0 ∧ Holds h' tree (.node (tree, s) .nil .nil) ∧
      h'.fresh = h.fresh ∧ ∀ x, x ≠ tree → h'.nodes x = h.nodes x) h := by
  rw [SortedTree.insert, wp_bind, wp_get, insertRec, wp_bind]
  refine (wp_readNode hroot).mpr ?_
  simp only
  rw [wp_bind, writeNode, wp_modify, wp_pure]
  refine ⟨rfl, ⟨⟨?_, ?_, ?_⟩, rfl, ?_, by simp⟩, rfl, fun x hx ↦ Function.update_of_ne hx ..⟩
  · exact ⟨h0, Function.update_self .., trivial, trivial⟩
  · simp [addrs, SearchTree.inorder]
  · simpa [addrs, SearchTree.inorder] using hlt
  · simp [Sorted, strings, BinaryTree.map, SearchTree.inorder]

/-- 0 for the first occurrence of each string, 1 for the others. -/
def expected (seen : List CString) : List CString → List ℤ
  | [] => []
  | s :: ss => (if s ∈ seen then 1 else 0) :: expected (s :: seen) ss

theorem length_expected (ss seen : List CString) : (expected seen ss).length = ss.length := by
  induction ss generalizing seen with
  | nil => rfl
  | cons s ss ih => simp only [expected, List.length_cons, ih]

theorem expected_getElem {ss seen : List CString} {i : ℕ} (hi : i < ss.length) :
    (expected seen ss)[i]? = some (if ss[i] ∈ seen ∨ ss[i] ∈ ss.take i then 1 else 0) := by
  induction ss generalizing seen i with
  | nil => exact absurd hi (Nat.not_lt_zero i)
  | cons s ss ih =>
    cases i with
    | zero => simp [expected]
    | succ i =>
      rw [expected, List.getElem?_cons_succ, ih (Nat.lt_of_succ_lt_succ hi)]
      simp only [List.getElem_cons_succ, List.take_succ_cons, List.mem_cons, or_left_comm, or_assoc]

theorem Holds.insertAll {tree : ℕ} {ss seen : List CString} (H : Holds h tree t)
    (hseen : ∀ u, u ∈ SearchTree.inorder (strings t) ↔ u ∈ seen) :
    wp (ss.mapM (SortedTree.insert tree)) (fun rets h' ↦ rets = expected seen ss ∧
      ∃ t', Holds h' tree t' ∧ strings t' = SearchTree.insertAll (strings t) ss ∧
        ∀ x ∉ addrs t, x < h.fresh → h'.nodes x = h.nodes x) h := by
  induction ss generalizing h t seen with
  | nil => exact wp_pure.mpr ⟨rfl, t, H, rfl, fun _ _ _ ↦ rfl⟩
  | cons s ss ih =>
    rw [List.mapM_cons]
    refine H.insert_strings.bind fun ret h₁ hret ↦ ?_
    obtain ⟨rfl, t₁, H₁, G, hst₁⟩ := hret
    have hseen₁ : ∀ u, u ∈ SearchTree.inorder (strings t₁) ↔ u ∈ s :: seen := fun u ↦ by
      rw [hst₁, mem_insert, hseen, List.mem_cons]
    refine (ih H₁ hseen₁).bind fun rets h₂ hrets ↦ ?_
    obtain ⟨rfl, t₂, H₂, hst₂, hframe⟩ := hrets
    refine wp_pure.mpr ⟨?_, t₂, H₂, ?_, fun x hx hlt ↦ ?_⟩
    · simp only [expected, hseen]
    · rw [hst₂, hst₁]
      rfl
    · have hx₁ : x ∉ addrs t₁ := fun hm ↦ (G.addrs x hm).elim hx hlt.ne
      rw [hframe x hx₁ (hlt.trans_le G.fresh), G.frame x hx hlt.ne]

theorem insertAll_fresh {tree : ℕ} {ss : List CString}
    (hroot : h.nodes tree = some ⟨none, NULL, NULL⟩) (h0 : tree ≠ NULL) (hlt : tree < h.fresh)
    (hne : ss ≠ []) :
    wp (ss.mapM (SortedTree.insert tree)) (fun rets h' ↦ rets = expected [] ss ∧
      ∃ t, Holds h' tree t ∧ strings t = SearchTree.insertAll .nil ss ∧
        ∀ x, x ≠ tree → x < h.fresh → h'.nodes x = h.nodes x) h := by
  obtain ⟨s, ss, rfl⟩ := List.exists_cons_of_ne_nil hne
  rw [List.mapM_cons]
  refine (insert_empty hroot h0 hlt).bind fun ret h₁ hret ↦ ?_
  obtain ⟨rfl, H₁, hfresh, hframe₁⟩ := hret
  have hseen : ∀ u, u ∈ SearchTree.inorder (strings (.node (tree, s) .nil .nil)) ↔ u ∈ [s] :=
      fun u ↦ by
    simp [strings, BinaryTree.map, SearchTree.inorder]
  refine (H₁.insertAll hseen).bind fun rets h₂ hrets ↦ ?_
  obtain ⟨rfl, t, H, hst, hframe⟩ := hrets
  refine wp_pure.mpr ⟨by simp [expected], t, H, hst, fun x hx hlt ↦ ?_⟩
  have haddrs : x ∉ addrs (.node (tree, s) .nil .nil) := by
    simpa [addrs, SearchTree.inorder] using hx
  rw [hframe x haddrs (hlt.trans_eq hfresh.symm), hframe₁ x hx]

def fill (result : Result) (i : ℕ) (ss : List CString) : Result :=
  result.take i ++ ss.map some ++ result.drop (i + ss.length)

variable {result : Result} {i : ℕ} {ss ss' : List CString}

theorem length_fill (hi : i + ss.length ≤ result.length) :
    (fill result i ss).length = result.length := by
  simp only [fill, List.length_append, List.length_take, List.length_map, List.length_drop]
  omega

theorem fill_nil : fill result i [] = result := by
  simp only [fill, List.map_nil, List.append_nil, List.length_nil, Nat.add_zero,
    List.take_append_drop]

theorem fill_append (hi : i ≤ result.length) :
    fill (fill result i ss) (i + ss.length) ss' = fill result i (ss ++ ss') := by
  have htake : (fill result i ss).take (i + ss.length) = result.take i ++ ss.map some :=
    List.take_left' (by simp [hi])
  have hdrop : (fill result i ss).drop (i + ss.length + ss'.length) =
      result.drop (i + (ss ++ ss').length) := by
    rw [fill, ← List.drop_drop, List.drop_left' (by simp [hi]), List.drop_drop, List.length_append,
      Nat.add_assoc]
  rw [fill, htake, hdrop, fill, List.map_append, List.append_assoc, List.append_assoc,
    List.append_assoc, List.append_assoc]

theorem store_eq_fill (hi : i < result.length) :
    result.store i (some s) = some (fill result i [s]) := by
  rw [Result.store, if_pos ⟨Int.natCast_nonneg i, Int.ofNat_lt.mpr hi⟩, Int.toNat_natCast,
    List.set_eq_take_append_cons_drop, if_pos hi]
  simp [fill]

theorem numNodes_eq_length (t : NodeTree) :
    t.numNodes = (SearchTree.inorder (strings t)).length := by
  rw [strings, inorder_map, List.length_map, length_inorder]

theorem inorderDo_node {max : ℤ} (hn : nodes x = some n) (hcur : (i : ℤ) < max) :
    inorderDo nodes (fuel + 1) x result i max =
      (if n.left ≠ NULL then inorderDo nodes fuel n.left result i max
        else some (result, (i : ℤ))).bind fun a ↦
      (a.1.store a.2 n.string).bind fun result ↦
      (int (a.2 + 1)).bind fun curPosition ↦
      if n.right ≠ NULL then inorderDo nodes fuel n.right result curPosition max
      else some (result, curPosition) := by
  rw [inorderDo, if_neg hcur.not_ge, hn]
  simp only [Option.bind_eq_bind, Option.bind_some]
  by_cases hleft : n.left ≠ NULL
  · rw [if_pos hleft, if_pos hleft]
  · rw [if_neg hleft, if_neg hleft, Option.bind_some]

theorem inorder_child {max : ℤ} (ht : IsTree nodes t)
    (hrec : t ≠ .nil → inorderDo nodes fuel (root t) result i max =
      some (fill result i (SearchTree.inorder (strings t)), ((i + t.numNodes : ℕ) : ℤ))) :
    (if root t ≠ NULL then inorderDo nodes fuel (root t) result i max
      else some (result, (i : ℤ))) =
      some (fill result i (SearchTree.inorder (strings t)), ((i + t.numNodes : ℕ) : ℤ)) := by
  refine ht.child_eq (fun hnil ↦ ?_) hrec
  subst hnil
  exact congrArg some (Prod.ext fill_nil.symm rfl)

theorem inorderDo_spec {max : ℤ} (ht : IsTree nodes t) (hne : t ≠ .nil) (hfuel : t.numNodes < fuel)
    (hlen : i + t.numNodes ≤ result.length) (hmax : i + t.numNodes ≤ max)
    (hint : max < 2147483648) :
    inorderDo nodes fuel (root t) result i max =
      some (fill result i (SearchTree.inorder (strings t)), ((i + t.numNodes : ℕ) : ℤ)) := by
  induction t generalizing fuel result i with
  | nil => exact absurd rfl hne
  | node a l r ihl ihr =>
    obtain ⟨x, s⟩ := a
    obtain ⟨fuel, rfl⟩ := Nat.exists_eq_succ_of_ne_zero (Nat.ne_of_gt (Nat.zero_lt_of_lt hfuel))
    obtain ⟨-, hnode, hl, hr⟩ := ht
    rw [BinaryTree.numNodes] at hfuel hlen hmax
    have hnl := numNodes_eq_length l
    have hlen₁ : (fill result i (SearchTree.inorder (strings l))).length = result.length :=
      length_fill (by omega)
    have hlen₂ : (fill (fill result i (SearchTree.inorder (strings l))) (i + l.numNodes) [s]).length =
        (fill result i (SearchTree.inorder (strings l))).length :=
      length_fill (by rw [hlen₁, List.length_singleton]; omega)
    have hfl : l.numNodes < fuel := by omega
    have hfr : r.numNodes < fuel := by omega
    have hleft := inorder_child hl fun hnil ↦ ihl hl hnil hfl
      (show i + l.numNodes ≤ result.length by omega) (by push_cast at hmax; omega)
    have hright := inorder_child hr fun hnil ↦ ihr (i := i + l.numNodes + 1) hr hnil hfr
      (show _ ≤
          (fill (fill result i (SearchTree.inorder (strings l))) (i + l.numNodes) [s]).length by
        omega) (by push_cast at hmax ⊢; omega)
    rw [root_node,
      inorderDo_node hnode (by push_cast at hmax; omega), hleft, Option.bind_some,
      store_eq_fill (by rw [hlen₁]; omega), Option.bind_some, int_of_bounds (by omega) (by omega),
      Option.bind_some, ← Nat.cast_succ, hright, hnl, fill_append (by omega)]
    have happ : fill (fill result i (SearchTree.inorder (strings l) ++ [s]))
        (i + (SearchTree.inorder (strings l) ++ [s]).length) (SearchTree.inorder (strings r)) = _ :=
      fill_append (by omega)
    rw [List.length_append, List.length_singleton, ← Nat.add_assoc] at happ
    rw [happ, strings_node, SearchTree.inorder, List.append_assoc, List.singleton_append,
      BinaryTree.numNodes, hnl]
    congr 3
    omega

theorem Holds.inorder {tree : ℕ} {max : ℤ} (H : Holds h tree t)
    (hlen : (SearchTree.inorder (strings t)).length ≤ result.length)
    (hmax : (SearchTree.inorder (strings t)).length ≤ max) (hint : max < 2147483648) :
    SortedTree.inorder h tree result max =
      some ((SearchTree.inorder (strings t)).map some ++
        result.drop (SearchTree.inorder (strings t)).length,
        ((SearchTree.inorder (strings t)).length : ℤ)) := by
  have hspec := inorderDo_spec (i := 0) H.ok.isTree H.ne_nil
    (Nat.lt_succ_of_le H.ok.numNodes_le) (by rwa [Nat.zero_add, numNodes_eq_length])
    (by rwa [Nat.cast_zero, zero_add, numNodes_eq_length]) hint
  rwa [H.root, Nat.zero_add, numNodes_eq_length, fill, List.take_zero, List.nil_append,
    Nat.zero_add] at hspec

/-- Strings inserted into a root that is still without one, and then traversed. -/
theorem insert_then_inorder {tree : ℕ} (hroot : h.nodes tree = some ⟨none, NULL, NULL⟩)
    (h0 : tree ≠ NULL) (hlt : tree < h.fresh) (hne : ss ≠ []) :
    ∃ rets h', ss.mapM (insert tree) h = some (rets, h') ∧ rets.length = ss.length ∧
      (∀ i (hi : i < ss.length), rets[i]? = some (if ss[i] ∈ ss.take i then 1 else 0)) ∧
      ∃ sorted : List CString, (sorted.Pairwise fun s u ↦ s.strcmp u < 0) ∧
        (∀ s, s ∈ sorted ↔ s ∈ ss) ∧ sorted.length = ss.dedup.length ∧
        ∀ (result : Result) (max : ℤ), ss.dedup.length ≤ result.length → ss.dedup.length ≤ max →
          max < 2147483648 → SortedTree.inorder h' tree result max =
            some (sorted.map some ++ result.drop sorted.length, (sorted.length : ℤ)) := by
  obtain ⟨rets, h', hrun, rfl, t, H, hst, -⟩ := insertAll_fresh hroot h0 hlt hne
  have hmem : ∀ u, u ∈ SearchTree.inorder (strings t) ↔ u ∈ ss := fun u ↦ by
    rw [hst, mem_insertAll]
    exact or_iff_right List.not_mem_nil
  have hlen : (SearchTree.inorder (strings t)).length = ss.dedup.length := by
    rw [hst, (inorder_insertAll_perm ss).length_eq]
  refine ⟨_, h', hrun, length_expected _ _, fun i hi ↦ ?_, _, H.sorted.imp strcmp_neg.mpr, hmem, hlen,
    fun result max hres hmax hint ↦ H.inorder (hlen ▸ hres) (hlen ▸ hmax) hint⟩
  rw [expected_getElem hi]
  simp

/-- What `init_tree` is meant to make. -/
def initTree : Heap := ⟨Function.update (fun _ ↦ none) 1 (some ⟨none, NULL, NULL⟩), 2⟩

theorem insert_then_inorder_duplicate :
    ∃ rets h', [strB, strA, strB].mapM (insert 1) initTree = some (rets, h') ∧ rets = [0, 0, 1] := by
  obtain ⟨rets, h', hrun, hlen, hrets, -⟩ := insert_then_inorder
    (show initTree.nodes 1 = some ⟨none, NULL, NULL⟩ from rfl) (by decide) (by decide)
    (show [strB, strA, strB] ≠ [] by simp)
  refine ⟨rets, h', hrun, List.ext_getElem hlen fun i hi _ ↦ ?_⟩
  have hi' : i < 3 := hi.trans_eq hlen
  have hret := hrets i hi'
  rw [List.getElem?_eq_getElem hi, Option.some.injEq] at hret
  rw [hret]
  match i, hi' with
  | 0, _ => rfl
  | 1, _ => rfl
  | 2, _ => rfl

end CsoLabs.SortedTree
