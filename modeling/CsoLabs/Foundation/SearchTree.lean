import Mathlib.Data.Tree.Basic
import Mathlib.Tactic

namespace CsoLabs.Foundation.SearchTree

open BinaryTree

variable {α β : Type*}

def inorder : BinaryTree α → List α
  | .nil => []
  | .node a l r => inorder l ++ a :: inorder r

def preorder : BinaryTree α → List α
  | .nil => []
  | .node a l r => a :: (preorder l ++ preorder r)

def rightSpine : BinaryTree α → List α
  | .nil => []
  | .node a _ r => a :: rightSpine r

theorem mem_of_mem_rightSpine {x : α} {t : BinaryTree α} (h : x ∈ rightSpine t) :
    x ∈ inorder t := by
  induction t with
  | nil => exact absurd h List.not_mem_nil
  | node a l r _ ihr =>
    rcases List.mem_cons.mp h with rfl | h
    · exact List.mem_append_right _ List.mem_cons_self
    · exact List.mem_append_right _ (List.mem_cons_of_mem a (ihr h))

theorem preorder_perm (t : BinaryTree α) : (preorder t).Perm (inorder t) := by
  induction t with
  | nil => exact .nil
  | node a l r ihl ihr => exact ((ihl.append ihr).cons a).trans List.perm_middle.symm

theorem inorder_map (f : α → β) (t : BinaryTree α) : inorder (t.map f) = (inorder t).map f := by
  induction t with
  | nil => rfl
  | node a l r ihl ihr =>
    simp only [BinaryTree.map, inorder, ihl, ihr, List.map_append, List.map_cons]

theorem length_inorder (t : BinaryTree α) : (inorder t).length = t.numNodes := by
  induction t with
  | nil => rfl
  | node a l r ihl ihr =>
    simp only [inorder, List.length_append, List.length_cons, ihl, ihr, numNodes]
    omega

variable [LinearOrder α] {t l r : BinaryTree α} {a x y : α}

def insert (x : α) : BinaryTree α → BinaryTree α
  | .nil => .node x .nil .nil
  | .node a l r =>
    if x < a then .node a (insert x l) r
    else if a < x then .node a l (insert x r)
    else .node a l r

def Sorted (t : BinaryTree α) : Prop := (inorder t).Pairwise (· < ·)

theorem sorted_node : Sorted (.node a l r) ↔ Sorted l ∧ Sorted r ∧ (∀ y ∈ inorder l, y < a) ∧
    ∀ y ∈ inorder r, a < y := by
  rw [Sorted, inorder, List.pairwise_append, List.pairwise_cons]
  constructor
  · intro h
    obtain ⟨hl, ⟨hr, hrs⟩, hc⟩ := h
    exact ⟨hl, hrs, fun y hy ↦ hc y hy a (by simp), hr⟩
  · intro h
    obtain ⟨hl, hr, hla, har⟩ := h
    refine ⟨hl, ⟨har, hr⟩, fun y hy z hz ↦ ?_⟩
    rcases List.mem_cons.mp hz with rfl | hz
    · exact hla y hy
    · exact (hla y hy).trans (har z hz)

theorem mem_insert : y ∈ inorder (insert x t) ↔ y = x ∨ y ∈ inorder t := by
  induction t with
  | nil => simp [insert, inorder]
  | node a l r ihl ihr =>
    rw [insert]
    split_ifs with h₁ h₂
    · simp only [inorder, List.mem_append, List.mem_cons, ihl, or_assoc]
    · simp only [inorder, List.mem_append, List.mem_cons, ihr]
      rw [@or_left_comm (y = a), or_left_comm]
    · obtain rfl : x = a := le_antisymm (not_lt.mp h₂) (not_lt.mp h₁)
      simp only [inorder, List.mem_append, List.mem_cons]
      rw [or_left_comm, or_self_left]

theorem Sorted.insert (h : Sorted t) : Sorted (insert x t) := by
  induction t with
  | nil => simp [SearchTree.insert, Sorted, inorder]
  | node a l r ihl ihr =>
    obtain ⟨hl, hr, hla, har⟩ := sorted_node.mp h
    rw [SearchTree.insert]
    split_ifs with h₁ h₂
    · refine sorted_node.mpr ⟨ihl hl, hr, fun y hy ↦ ?_, har⟩
      rcases mem_insert.mp hy with rfl | hy
      · exact h₁
      · exact hla y hy
    · refine sorted_node.mpr ⟨hl, ihr hr, hla, fun y hy ↦ ?_⟩
      rcases mem_insert.mp hy with rfl | hy
      · exact h₂
      · exact har y hy
    · exact h

theorem mem_left (h : Sorted (.node a l r)) (hx : x < a) :
    x ∈ inorder (.node a l r) ↔ x ∈ inorder l := by
  obtain ⟨-, -, -, har⟩ := sorted_node.mp h
  simp only [inorder, List.mem_append, List.mem_cons]
  refine ⟨fun hm ↦ ?_, .inl⟩
  rcases hm with hm | rfl | hm
  · exact hm
  · exact absurd hx (lt_irrefl _)
  · exact absurd (har x hm) hx.asymm

theorem mem_right (h : Sorted (.node a l r)) (hx : a < x) :
    x ∈ inorder (.node a l r) ↔ x ∈ inorder r := by
  obtain ⟨-, -, hla, -⟩ := sorted_node.mp h
  simp only [inorder, List.mem_append, List.mem_cons]
  refine ⟨fun hm ↦ ?_, fun hm ↦ .inr (.inr hm)⟩
  rcases hm with hm | rfl | hm
  · exact absurd (hla x hm) hx.asymm
  · exact absurd hx (lt_irrefl _)
  · exact hm

def insertAll (t : BinaryTree α) (xs : List α) : BinaryTree α :=
  xs.foldl (fun t x ↦ SearchTree.insert x t) t

variable {xs : List α}

theorem insertAll_concat : insertAll t (xs ++ [x]) = SearchTree.insert x (insertAll t xs) :=
  List.foldl_concat ..

theorem Sorted.insertAll (h : Sorted t) : Sorted (insertAll t xs) := by
  induction xs generalizing t with
  | nil => exact h
  | cons x xs ih => exact ih h.insert

theorem sorted_nil : Sorted (.nil : BinaryTree α) := List.Pairwise.nil

theorem mem_insertAll : y ∈ inorder (insertAll t xs) ↔ y ∈ inorder t ∨ y ∈ xs := by
  induction xs generalizing t with
  | nil => exact ⟨.inl, fun h ↦ h.resolve_right List.not_mem_nil⟩
  | cons x xs ih =>
    refine ih.trans ?_
    rw [mem_insert, List.mem_cons, or_assoc, or_left_comm]

theorem inorder_insertAll_perm (xs : List α) :
    (inorder (insertAll .nil xs)).Perm xs.dedup := by
  have hsorted : Sorted (insertAll .nil xs) := sorted_nil.insertAll
  refine (List.perm_ext_iff_of_nodup (hsorted.imp fun hlt ↦ hlt.ne) xs.nodup_dedup).mpr fun x ↦ ?_
  rw [mem_insertAll, List.mem_dedup]
  exact or_iff_right List.not_mem_nil

theorem insertAll_left (h : ∀ x ∈ xs, x < a) :
    insertAll (.node a l r) xs = .node a (insertAll l xs) r := by
  induction xs generalizing l with
  | nil => rfl
  | cons x xs ih =>
    have hx : SearchTree.insert x (.node a l r) = .node a (SearchTree.insert x l) r :=
      if_pos (h x List.mem_cons_self)
    rw [insertAll, List.foldl_cons, hx]
    exact ih fun y hy ↦ h y (List.mem_cons_of_mem x hy)

theorem insertAll_right (h : ∀ x ∈ xs, a < x) :
    insertAll (.node a l r) xs = .node a l (insertAll r xs) := by
  induction xs generalizing r with
  | nil => rfl
  | cons x xs ih =>
    have hax := h x List.mem_cons_self
    have hx : SearchTree.insert x (.node a l r) = .node a l (SearchTree.insert x r) := by
      rw [SearchTree.insert, if_neg hax.asymm, if_pos hax]
    rw [insertAll, List.foldl_cons, hx]
    exact ih fun y hy ↦ h y (List.mem_cons_of_mem x hy)

/-- A search tree is rebuilt from its keys in preorder: behind the root come the keys of the left
side, which are all smaller, and then those of the right one. -/
theorem insertAll_preorder (h : Sorted t) : insertAll .nil (preorder t) = t := by
  induction t with
  | nil => rfl
  | node a l r ihl ihr =>
    obtain ⟨hl, hr, hla, har⟩ := sorted_node.mp h
    have hleft : insertAll (.node a .nil .nil) (preorder l) = .node a l .nil := by
      rw [insertAll_left fun x hx ↦ hla x ((preorder_perm l).mem_iff.mp hx), ihl hl]
    have hright : insertAll (.node a l .nil) (preorder r) = .node a l r := by
      rw [insertAll_right fun x hx ↦ har x ((preorder_perm r).mem_iff.mp hx), ihr hr]
    rw [preorder, insertAll, List.foldl_cons, List.foldl_append]
    exact (congrArg (insertAll · (preorder r)) hleft).trans hright

theorem mem_rightSpine_insert (h : Sorted t) : y ∈ rightSpine (SearchTree.insert x t) ↔
    y ∈ rightSpine t ∨ y = x ∧ ∀ z ∈ inorder t, z < x := by
  induction t with
  | nil => simp [SearchTree.insert, rightSpine, inorder]
  | node a l r ihl ihr =>
    obtain ⟨-, hr, hla, -⟩ := sorted_node.mp h
    have ha : a ∈ inorder (.node a l r) := by simp [inorder]
    rw [SearchTree.insert]
    split_ifs with h₁ h₂
    · rw [or_iff_left fun hall ↦ (hall.2 a ha).asymm h₁, rightSpine, rightSpine]
    · have hall : (∀ z ∈ inorder (.node a l r), z < x) ↔ ∀ z ∈ inorder r, z < x := by
        refine ⟨fun hz z hzr ↦ hz z (by simp [inorder, hzr]), fun hz z hm ↦ ?_⟩
        rw [inorder, List.mem_append, List.mem_cons] at hm
        rcases hm with hm | rfl | hm
        · exact (hla z hm).trans h₂
        · exact h₂
        · exact hz z hm
      rw [rightSpine, rightSpine, List.mem_cons, List.mem_cons, ihr hr, hall, or_assoc]
    · rw [or_iff_left]
      intro hx
      exact h₂ (hx.2 a ha)

/-- The keys on the right spine are those that were greater than all before them. -/
theorem mem_rightSpine_insertAll : y ∈ rightSpine (insertAll .nil xs) ↔
    ∃ before after, xs = before ++ y :: after ∧ ∀ z ∈ before, z < y := by
  induction xs using List.reverseRecOn with
  | nil => simp [insertAll, rightSpine]
  | append_singleton xs x ih =>
    have hmem : ∀ z, z ∈ inorder (insertAll .nil xs) ↔ z ∈ xs := fun z ↦
      mem_insertAll.trans (or_iff_right List.not_mem_nil)
    simp only [insertAll_concat, mem_rightSpine_insert sorted_nil.insertAll, ih, hmem]
    constructor
    · intro h
      rcases h with ⟨before, after, rfl, hlt⟩ | ⟨rfl, hlt⟩
      · exact ⟨before, after ++ [x], by simp, hlt⟩
      · exact ⟨xs, [], rfl, hlt⟩
    · intro h
      obtain ⟨before, after, heq, hlt⟩ := h
      rcases List.eq_nil_or_concat' after with rfl | ⟨after, z, rfl⟩
      · obtain ⟨rfl, hx⟩ := List.append_inj' heq rfl
        obtain rfl := List.singleton_inj.mp hx
        exact .inr ⟨rfl, hlt⟩
      · rw [← List.cons_append, ← List.append_assoc] at heq
        obtain ⟨rfl, -⟩ := List.append_inj' heq rfl
        exact .inl ⟨before, after, rfl, hlt⟩

end CsoLabs.Foundation.SearchTree
