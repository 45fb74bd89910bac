import CsoLabs.Foundation.CStringOrder
import CsoLabs.Foundation.SearchTree
import CsoLabs.SortedTree.Model

namespace CsoLabs.SortedTree

open Foundation CInt SearchTree

abbrev NodeTree := BinaryTree (ℕ × CString)

def root : NodeTree → ℕ
  | .nil => NULL
  | .node (x, _) _ _ => x

def addrs (t : NodeTree) : List ℕ := (SearchTree.inorder t).map Prod.fst

def strings (t : NodeTree) : BinaryTree CString := t.map Prod.snd

def IsTree (nodes : ℕ → Option Tnode) : NodeTree → Prop
  | .nil => True
  | .node (x, s) l r => x ≠ NULL ∧ nodes x = some ⟨some s, root l, root r⟩ ∧ IsTree nodes l ∧
    IsTree nodes r

structure TreeOk (h : Heap) (t : NodeTree) : Prop where
  isTree : IsTree h.nodes t
  nodup : (addrs t).Nodup
  lt : ∀ x ∈ addrs t, x < h.fresh

variable {h h' : Heap} {nodes nodes' : ℕ → Option Tnode} {t l r : NodeTree} {x : ℕ} {s : CString}

theorem root_node : root (.node (x, s) l r) = x := rfl

theorem addrs_node : addrs (.node (x, s) l r) = addrs l ++ x :: addrs r := by
  simp only [addrs, SearchTree.inorder, List.map_append, List.map_cons]

theorem mem_addrs_node {y : ℕ} :
    y ∈ addrs (.node (x, s) l r) ↔ y ∈ addrs l ∨ y = x ∨ y ∈ addrs r := by
  rw [addrs_node, List.mem_append, List.mem_cons]

theorem length_addrs (t : NodeTree) : (addrs t).length = t.numNodes := by
  rw [addrs, List.length_map, length_inorder]

theorem IsTree.congr (ht : IsTree nodes t) (hn : ∀ x ∈ addrs t, nodes' x = nodes x) :
    IsTree nodes' t := by
  induction t with
  | nil => trivial
  | node a l r ihl ihr =>
    obtain ⟨x, s⟩ := a
    obtain ⟨hx, hnode, hl, hr⟩ := ht
    exact ⟨hx, (hn x (mem_addrs_node.mpr (.inr (.inl rfl)))).trans hnode,
      ihl hl fun y hy ↦ hn y (mem_addrs_node.mpr (.inl hy)),
      ihr hr fun y hy ↦ hn y (mem_addrs_node.mpr (.inr (.inr hy)))⟩

theorem IsTree.root_eq_null (ht : IsTree nodes t) : root t = NULL ↔ t = .nil := by
  cases t with
  | nil => simp [root]
  | node a l r =>
    obtain ⟨x, s⟩ := a
    simpa [root] using ht.1

theorem IsTree.child_eq {α : Type} {a b c : α} (ht : IsTree nodes t) (hnil : t = .nil → b = c)
    (hrec : t ≠ .nil → a = c) : (if root t ≠ NULL then a else b) = c := by
  by_cases h : t = .nil
  · rw [if_neg (not_not.mpr (ht.root_eq_null.mpr h)), hnil h]
  · rw [if_pos (mt ht.root_eq_null.mp h), hrec h]

theorem TreeOk.numNodes_le (T : TreeOk h t) : t.numNodes ≤ h.fresh := by
  have hsub : (addrs t).toFinset ⊆ Finset.range h.fresh := fun x hx ↦
    Finset.mem_range.mpr (T.lt x (List.mem_toFinset.mp hx))
  have := Finset.card_le_card hsub
  rwa [List.toFinset_card_of_nodup T.nodup, Finset.card_range, length_addrs] at this

theorem TreeOk.subtrees (T : TreeOk h (.node (x, s) l r)) :
    TreeOk h l ∧ TreeOk h r ∧ x ∉ addrs l ∧ x ∉ addrs r ∧ ∀ y ∈ addrs l, y ∉ addrs r := by
  obtain ⟨⟨-, -, hl, hr⟩, hnodup, hlt⟩ := T
  rw [addrs_node, List.nodup_append, List.nodup_cons] at hnodup
  obtain ⟨hnl, ⟨hxr, hnr⟩, hdisj⟩ := hnodup
  exact ⟨⟨hl, hnl, fun y hy ↦ hlt y (mem_addrs_node.mpr (.inl hy))⟩,
    ⟨hr, hnr, fun y hy ↦ hlt y (mem_addrs_node.mpr (.inr (.inr hy)))⟩,
    fun hx ↦ hdisj x hx x (by simp) rfl, hxr, fun y hy hy' ↦ hdisj y hy y (by simp [hy']) rfl⟩

/-- What an insertion below the root of `t` does: at most one new node, which may come to
hang below a node of `t`, and nothing else in memory changes. -/
structure Grows (h h' : Heap) (t t' : NodeTree) : Prop where
  tree : TreeOk h' t'
  root : root t' = root t
  addrs : ∀ x ∈ addrs t', x ∈ addrs t ∨ x = h.fresh
  frame : ∀ x ∉ SortedTree.addrs t, x ≠ h.fresh → h'.nodes x = h.nodes x
  fresh : h.fresh ≤ h'.fresh

variable {t' l' r' : NodeTree}

theorem Grows.refl (T : TreeOk h t) : Grows h h t t :=
  ⟨T, rfl, fun _ ↦ .inl, fun _ _ _ ↦ rfl, le_rfl⟩

theorem Grows.of_left (T : TreeOk h (.node (x, s) l r)) (hl' : TreeOk h' l')
    (hnode : h'.nodes x = some ⟨some s, SortedTree.root l', SortedTree.root r⟩)
    (haddrs : ∀ y ∈ SortedTree.addrs l', y ∈ SortedTree.addrs l ∨ y = h.fresh)
    (hframe : ∀ y ∉ SortedTree.addrs l, y ≠ x → y ≠ h.fresh → h'.nodes y = h.nodes y)
    (hfresh : h.fresh ≤ h'.fresh) : Grows h h' (.node (x, s) l r) (.node (x, s) l' r) := by
  obtain ⟨hl, hr, hxl, hxr, hdisj⟩ := T.subtrees
  have hxf : x < h.fresh := T.lt x (mem_addrs_node.mpr (.inr (.inl rfl)))
  refine ⟨⟨⟨T.isTree.1, hnode, hl'.isTree, hr.isTree.congr fun y hy ↦ ?_⟩, ?_, fun y hy ↦ ?_⟩, rfl,
    fun y hy ↦ ?_, fun y hy hyf ↦ ?_, hfresh⟩
  · exact hframe y (fun hy' ↦ hdisj y hy' hy) (fun he ↦ hxr (he ▸ hy)) (hr.lt y hy).ne
  · rw [addrs_node, List.nodup_append, List.nodup_cons]
    refine ⟨hl'.nodup, ⟨hxr, hr.nodup⟩, fun y hy z hz he ↦ ?_⟩
    subst he
    rcases haddrs y hy with hy | rfl
    · rcases List.mem_cons.mp hz with rfl | hz
      · exact hxl hy
      · exact hdisj y hy hz
    · rcases List.mem_cons.mp hz with hz | hz
      · exact hxf.ne hz.symm
      · exact (hr.lt _ hz).ne rfl
  · rcases mem_addrs_node.mp hy with hy | rfl | hy
    · exact hl'.lt y hy
    · exact hxf.trans_le hfresh
    · exact (hr.lt y hy).trans_le hfresh
  · rcases mem_addrs_node.mp hy with hy | hy
    · exact (haddrs y hy).imp_left fun hy ↦ mem_addrs_node.mpr (.inl hy)
    · exact .inl (mem_addrs_node.mpr (.inr hy))
  · exact hframe y (fun hy' ↦ hy (mem_addrs_node.mpr (.inl hy')))
      (fun he ↦ hy (mem_addrs_node.mpr (.inr (.inl he)))) hyf

theorem Grows.of_right (T : TreeOk h (.node (x, s) l r)) (hr' : TreeOk h' r')
    (hnode : h'.nodes x = some ⟨some s, SortedTree.root l, SortedTree.root r'⟩)
    (haddrs : ∀ y ∈ SortedTree.addrs r', y ∈ SortedTree.addrs r ∨ y = h.fresh)
    (hframe : ∀ y ∉ SortedTree.addrs r, y ≠ x → y ≠ h.fresh → h'.nodes y = h.nodes y)
    (hfresh : h.fresh ≤ h'.fresh) : Grows h h' (.node (x, s) l r) (.node (x, s) l r') := by
  obtain ⟨hl, hr, hxl, hxr, hdisj⟩ := T.subtrees
  have hxf : x < h.fresh := T.lt x (mem_addrs_node.mpr (.inr (.inl rfl)))
  refine ⟨⟨⟨T.isTree.1, hnode, hl.isTree.congr fun y hy ↦ ?_, hr'.isTree⟩, ?_, fun y hy ↦ ?_⟩, rfl,
    fun y hy ↦ ?_, fun y hy hyf ↦ ?_, hfresh⟩
  · exact hframe y (hdisj y hy) (fun he ↦ hxl (he ▸ hy)) (hl.lt y hy).ne
  · rw [addrs_node, List.nodup_append, List.nodup_cons]
    refine ⟨hl.nodup, ⟨fun hx ↦ (haddrs x hx).elim hxr hxf.ne, hr'.nodup⟩, fun y hy z hz he ↦ ?_⟩
    subst he
    rcases List.mem_cons.mp hz with rfl | hz
    · exact hxl hy
    · exact (haddrs y hz).elim (hdisj y hy) (hl.lt y hy).ne
  · rcases mem_addrs_node.mp hy with hy | rfl | hy
    · exact (hl.lt y hy).trans_le hfresh
    · exact hxf.trans_le hfresh
    · exact hr'.lt y hy
  · rcases mem_addrs_node.mp hy with hy | hy | hy
    · exact .inl (mem_addrs_node.mpr (.inl hy))
    · exact .inl (mem_addrs_node.mpr (.inr (.inl hy)))
    · exact (haddrs y hy).imp_left fun hy ↦ mem_addrs_node.mpr (.inr (.inr hy))
  · exact hframe y (fun hy' ↦ hy (mem_addrs_node.mpr (.inr (.inr hy'))))
      (fun he ↦ hy (mem_addrs_node.mpr (.inr (.inl he)))) hyf

theorem Grows.left (G : Grows h h' l l') (T : TreeOk h (.node (x, s) l r)) :
    Grows h h' (.node (x, s) l r) (.node (x, s) l' r) := by
  obtain ⟨-, -, hxl, -⟩ := T.subtrees
  refine .of_left T G.tree ?_ G.addrs (fun y hy _ ↦ G.frame y hy) G.fresh
  rw [G.frame x hxl (T.lt x (mem_addrs_node.mpr (.inr (.inl rfl)))).ne, T.isTree.2.1, G.root]

theorem Grows.right (G : Grows h h' r r') (T : TreeOk h (.node (x, s) l r)) :
    Grows h h' (.node (x, s) l r) (.node (x, s) l r') := by
  obtain ⟨-, -, -, hxr, -⟩ := T.subtrees
  refine .of_right T G.tree ?_ G.addrs (fun y hy _ ↦ G.frame y hy) G.fresh
  rw [G.frame x hxr (T.lt x (mem_addrs_node.mpr (.inr (.inl rfl)))).ne, T.isTree.2.1, G.root]

def Heap.hang (h : Heap) (x : ℕ) (s : CString) (n : Tnode) : Heap :=
  ⟨Function.update (Function.update h.nodes h.fresh (some ⟨some s, NULL, NULL⟩)) x (some n),
    h.fresh + 1⟩

variable {string : CString} {n : Tnode}

theorem wp_readNode_iff {Q : Tnode → Heap → Prop} :
    wp (readNode x) Q h ↔ ∃ n, h.nodes x = some n ∧ Q n h := by
  rw [readNode, wp_bind, wp_get, wp_lift]

theorem hang_frame {y : ℕ} (hx : y ≠ x) (hf : y ≠ h.fresh) : (h.hang x s n).nodes y = h.nodes y := by
  simp only [Heap.hang, Function.update_of_ne hx, Function.update_of_ne hf]

theorem hang_leaf (hx : x < h.fresh) : TreeOk (h.hang x s n) (.node (h.fresh, s) .nil .nil) := by
  refine ⟨⟨fun h0 ↦ ?_, ?_, trivial, trivial⟩, by simp [SortedTree.addrs, SearchTree.inorder], ?_⟩
  · rw [h0] at hx
    exact Nat.not_lt_zero x hx
  · simp only [Heap.hang, Function.update_of_ne hx.ne', Function.update_self]
    rfl
  · simp [SortedTree.addrs, SearchTree.inorder, Heap.hang]

theorem Grows.hang_left (T : TreeOk h (.node (x, string) .nil r)) :
    Grows h (h.hang x s ⟨some string, h.fresh, SortedTree.root r⟩) (.node (x, string) .nil r)
      (.node (x, string) (.node (h.fresh, s) .nil .nil) r) := by
  refine .of_left T (hang_leaf (T.lt x (mem_addrs_node.mpr (.inr (.inl rfl)))))
    (Function.update_self ..) (fun y hy ↦ ?_) (fun y _ ↦ hang_frame) (Nat.le_succ _)
  exact .inr (by simpa [SortedTree.addrs, SearchTree.inorder] using hy)

theorem Grows.hang_right (T : TreeOk h (.node (x, string) l .nil)) :
    Grows h (h.hang x s ⟨some string, SortedTree.root l, h.fresh⟩) (.node (x, string) l .nil)
      (.node (x, string) l (.node (h.fresh, s) .nil .nil)) := by
  refine .of_right T (hang_leaf (T.lt x (mem_addrs_node.mpr (.inr (.inl rfl)))))
    (Function.update_self ..) (fun y hy ↦ ?_) (fun y _ ↦ hang_frame) (Nat.le_succ _)
  exact .inr (by simpa [SortedTree.addrs, SearchTree.inorder] using hy)

end CsoLabs.SortedTree
