import CsoLabs.SortedTree.SortedSet

namespace CsoLabs.SortedTree

open Foundation CInt CString SearchTree

variable {h : Heap} {nodes : ℕ → Option Tnode} {t l r : NodeTree} {result : Result}
  {ss ss' : List CString} {x i m fuel tree : ℕ} {s : CString} {n : Tnode}

/-- The array and the next index after as many of the strings as there is room for have been
stored from index `i` on. -/
def stored (result : Result) (i : ℕ) (ss : List CString) : Result × ℕ :=
  (fill result i (ss.take (result.length - i)), i + min (result.length - i) ss.length)

theorem stored_nil : stored result i [] = (result, i) := by
  rw [stored, List.take_nil, fill_nil, List.length_nil, Nat.min_zero, Nat.add_zero]

theorem stored_full (hi : result.length ≤ i) : stored result i ss = (result, i) := by
  rw [stored, Nat.sub_eq_zero_of_le hi, List.take_zero, fill_nil, Nat.zero_min, Nat.add_zero]

theorem stored_of_room (h : i + ss.length ≤ result.length) :
    stored result i ss = (fill result i ss, i + ss.length) := by
  rw [stored, List.take_of_length_le (by omega), Nat.min_eq_right (by omega)]

theorem stored_concat (h : i + ss.length < result.length) :
    stored result i (ss ++ [s]) = (fill result i (ss ++ [s]), i + (ss.length + 1)) := by
  have hlen : (ss ++ [s]).length = ss.length + 1 := List.length_append
  rw [stored_of_room (by rw [hlen]; exact h), hlen]

theorem stored_room (hi : i ≤ result.length) (ss : List CString) :
    (stored result i ss).1.length = result.length ∧
      (stored result i ss).2 ≤ (stored result i ss).1.length := by
  have hlen : (stored result i ss).1.length = result.length :=
    length_fill (by rw [List.length_take]; omega)
  refine ⟨hlen, ?_⟩
  rw [hlen, stored]
  omega

theorem store_eq_stored (hi : i < result.length) :
    result.store i (some s) = some (stored result i [s]).1 ∧ (stored result i [s]).2 = i + 1 := by
  have htake : [s].take (result.length - i) = [s] :=
    List.take_of_length_le (by rw [List.length_singleton]; omega)
  refine ⟨by rw [store_eq_fill hi, stored, htake], ?_⟩
  rw [stored, List.length_singleton, Nat.min_eq_right (by omega)]

theorem stored_append (hi : i ≤ result.length) :
    stored (stored result i ss).1 (stored result i ss).2 ss' = stored result i (ss ++ ss') := by
  have hlen : (fill result i (ss.take (result.length - i))).length = result.length :=
    (stored_room hi ss).1
  have htake : ss'.take (result.length - (i + min (result.length - i) ss.length)) =
      ss'.take (result.length - i - ss.length) := by
    congr 1
    omega
  have happ : fill (fill result i (ss.take (result.length - i)))
      (i + (ss.take (result.length - i)).length) (ss'.take (result.length - i - ss.length)) = _ :=
    fill_append hi
  rw [List.length_take] at happ
  refine Prod.ext ?_ ?_
  · simp only [stored]
    rw [hlen, htake, happ, List.take_append]
  · simp only [stored]
    rw [hlen, List.length_append]
    omega

theorem child_stored {a : Option (Result × ℤ)} (ht : IsTree nodes t) (hnil : t = .nil → ss = [])
    (hrec : t ≠ .nil → a = some ((stored result i ss).1, ((stored result i ss).2 : ℤ))) :
    (if root t ≠ NULL then a else some (result, (i : ℤ))) =
      some ((stored result i ss).1, ((stored result i ss).2 : ℤ)) :=
  ht.child_eq (fun h ↦ by rw [hnil h, stored_nil]) hrec

theorem preorderDo_full {p : ℕ} {max : ℤ} (hi : max ≤ i) :
    preorderDo nodes (fuel + 1) p result i max = some (result, (i : ℤ)) := if_pos hi

theorem preorderDo_node (hn : nodes x = some ⟨some s, root l, root r⟩) (hm : result.length = m)
    (hi : i < m) (hint : m < 2147483648) :
    preorderDo nodes (fuel + 1) x result i m =
      (if root l ≠ NULL then preorderDo nodes fuel (root l) (stored result i [s]).1
          (stored result i [s]).2 m
        else some ((stored result i [s]).1, ((stored result i [s]).2 : ℤ))).bind fun a ↦
      if root r ≠ NULL then preorderDo nodes fuel (root r) a.1 a.2 m else some a := by
  obtain ⟨hstore, hnext⟩ := store_eq_stored (s := s) (hi.trans_eq hm.symm)
  rw [preorderDo, if_neg (by omega), hn]
  simp only [Option.bind_eq_bind, Option.bind_some]
  rw [hstore, Option.bind_some, int_of_bounds (by omega) (by omega), Option.bind_some, hnext,
    Nat.cast_add_one]
  by_cases hleft : root l ≠ NULL
  · rw [if_pos hleft, if_pos hleft]
  · rw [if_neg hleft, if_neg hleft, Option.bind_some]

theorem preorderDo_spec (ht : IsTree nodes t) (hne : t ≠ .nil) (hfuel : t.numNodes < fuel)
    (hm : result.length = m) (hi : i ≤ m) (hint : m < 2147483648) :
    preorderDo nodes fuel (root t) result i m =
      some ((stored result i (SearchTree.preorder (strings t))).1,
        ((stored result i (SearchTree.preorder (strings t))).2 : ℤ)) := by
  induction t generalizing fuel result i with
  | nil => exact absurd rfl hne
  | node a l r ihl ihr =>
    obtain ⟨x, s⟩ := a
    obtain ⟨fuel, rfl⟩ := Nat.exists_eq_succ_of_ne_zero (Nat.ne_of_gt (Nat.zero_lt_of_lt hfuel))
    rcases hi.eq_or_lt with rfl | hi'
    · rw [stored_full hm.le]
      exact preorderDo_full le_rfl
    obtain ⟨-, hnode, hl, hr⟩ := ht
    rw [BinaryTree.numNodes] at hfuel
    have hir : i ≤ result.length := hi.trans_eq hm.symm
    obtain ⟨hlen₁, hle₁⟩ := stored_room hir [s]
    obtain ⟨hlen₂, hle₂⟩ := stored_room hle₁ (SearchTree.preorder (strings l))
    have hleft := child_stored hl (fun hnil ↦ by rw [hnil]; rfl) fun hnil ↦
      ihl hl hnil (show _ < fuel by omega) (hlen₁.trans hm) (hle₁.trans_eq (hlen₁.trans hm))
    have hright := child_stored hr (fun hnil ↦ by rw [hnil]; rfl) fun hnil ↦
      ihr hr hnil (show _ < fuel by omega) ((hlen₂.trans hlen₁).trans hm)
        (hle₂.trans_eq ((hlen₂.trans hlen₁).trans hm))
    rw [root_node, preorderDo_node hnode hm hi' hint, hleft,
      Option.bind_some, hright, stored_append hle₁, stored_append hir]
    rfl

/-- `inorder_do` checks for room before it goes to the left, and stores behind that. So it stays
in the array only if the left side of every node it comes to leaves room. -/
def Fits {α : Type} : BinaryTree α → ℕ → Prop
  | .nil, _ => True
  | .node _ l r, room => room = 0 ∨ l.numNodes < room ∧ Fits r (room - (l.numNodes + 1))

theorem fits_of_le {α : Type} {t : BinaryTree α} {room : ℕ} (h : t.numNodes ≤ room) :
    Fits t room := by
  induction t generalizing room with
  | nil => trivial
  | node a l r ihl ihr =>
    rw [BinaryTree.numNodes] at h
    exact .inr ⟨by omega, ihr (by omega)⟩

theorem inorderDo_full {p : ℕ} {max : ℤ} (hi : max ≤ i) :
    inorderDo nodes (fuel + 1) p result i max = some (result, (i : ℤ)) := if_pos hi

theorem store_eq_none (hi : result.length ≤ i) (string : Option CString) :
    result.store i string = none := if_neg (by omega)

theorem inorderDo_room (ht : IsTree nodes (.node (x, s) l r)) (hfuel : l.numNodes < fuel)
    (hm : result.length = m) (hint : m < 2147483648) (hroom : i + l.numNodes < m) :
    inorderDo nodes (fuel + 1) x result i m =
      if root r ≠ NULL then inorderDo nodes fuel (root r)
          (stored result i (SearchTree.inorder (strings l) ++ [s])).1
          (stored result i (SearchTree.inorder (strings l) ++ [s])).2 m
        else some ((stored result i (SearchTree.inorder (strings l) ++ [s])).1,
          ((stored result i (SearchTree.inorder (strings l) ++ [s])).2 : ℤ)) := by
  obtain ⟨-, hnode, hl, -⟩ := ht
  have hnl := numNodes_eq_length l
  have hleft := inorder_child hl fun hnil ↦ inorderDo_spec hl hnil hfuel
    (show i + l.numNodes ≤ result.length by omega)
    (show ((i : ℤ) + l.numNodes) ≤ (m : ℤ) by omega) (by omega)
  have hlen : (fill result i (SearchTree.inorder (strings l))).length = result.length :=
    length_fill (by omega)
  have hfill : fill (fill result i (SearchTree.inorder (strings l))) (i + l.numNodes) [s] =
      fill result i (SearchTree.inorder (strings l) ++ [s]) := by
    rw [hnl]
    exact fill_append (by omega)
  have hstored : stored result i (SearchTree.inorder (strings l) ++ [s]) =
      (fill result i (SearchTree.inorder (strings l) ++ [s]), i + (l.numNodes + 1)) := by
    rw [stored_concat (by omega), hnl]
  rw [inorderDo_node hnode (by omega), hleft, Option.bind_some, store_eq_fill (by rw [hlen]; omega),
    Option.bind_some, int_of_bounds (by omega) (by omega), Option.bind_some, hfill, hstored]
  rfl

theorem inorderDo_fits (ht : IsTree nodes t) (hne : t ≠ .nil) (hfuel : t.numNodes < fuel)
    (hm : result.length = m) (hi : i ≤ m) (hint : m < 2147483648) (hfits : Fits t (m - i)) :
    inorderDo nodes fuel (root t) result i m =
      some ((stored result i (SearchTree.inorder (strings t))).1,
        ((stored result i (SearchTree.inorder (strings t))).2 : ℤ)) := by
  induction t generalizing fuel result i with
  | nil => exact absurd rfl hne
  | node a l r ihl ihr =>
    obtain ⟨x, s⟩ := a
    obtain ⟨fuel, rfl⟩ := Nat.exists_eq_succ_of_ne_zero (Nat.ne_of_gt (Nat.zero_lt_of_lt hfuel))
    rcases hi.eq_or_lt with rfl | hi'
    · rw [stored_full hm.le]
      exact inorderDo_full le_rfl
    obtain ⟨hroom, hfits⟩ := hfits.resolve_left (by omega)
    rw [BinaryTree.numNodes] at hfuel
    have hir : i ≤ result.length := hi.trans_eq hm.symm
    have hnl := numNodes_eq_length l
    obtain ⟨hlen, hle⟩ := stored_room hir (SearchTree.inorder (strings l) ++ [s])
    have hnext : (stored result i (SearchTree.inorder (strings l) ++ [s])).2 =
        i + (l.numNodes + 1) := by
      rw [stored_concat (by omega), hnl]
    have hright := child_stored ht.2.2.2 (fun hnil ↦ by rw [hnil]; rfl) fun hnil ↦
      ihr ht.2.2.2 hnil (show _ < fuel by omega) (hlen.trans hm) (hle.trans_eq (hlen.trans hm))
        (by rwa [hnext, ← Nat.sub_sub])
    rw [root_node,
      inorderDo_room ht (by omega) hm hint (by omega), hright, stored_append hir, strings_node,
      SearchTree.inorder, List.append_assoc, List.singleton_append]

theorem inorderDo_overrun (ht : IsTree nodes t) (hne : t ≠ .nil) (hfuel : t.numNodes < fuel)
    (hm : result.length = m) (hi : i ≤ m) (hint : m < 2147483648) (hfits : ¬ Fits t (m - i)) :
    inorderDo nodes fuel (root t) result i m = none := by
  induction t generalizing fuel result i with
  | nil => exact absurd rfl hne
  | node a l r ihl ihr =>
    obtain ⟨x, s⟩ := a
    obtain ⟨fuel, rfl⟩ := Nat.exists_eq_succ_of_ne_zero (Nat.ne_of_gt (Nat.zero_lt_of_lt hfuel))
    rw [Fits, not_or, not_and] at hfits
    rw [BinaryTree.numNodes] at hfuel
    have hir : i ≤ result.length := hi.trans_eq hm.symm
    have hnl := numNodes_eq_length l
    by_cases hroom : l.numNodes < m - i
    · have hr : r ≠ .nil := by
        intro hnil
        subst hnil
        exact hfits.2 hroom trivial
      obtain ⟨hlen, hle⟩ := stored_room hir (SearchTree.inorder (strings l) ++ [s])
      have hnext : (stored result i (SearchTree.inorder (strings l) ++ [s])).2 =
          i + (l.numNodes + 1) := by
        rw [stored_concat (by omega), hnl]
      rw [root_node,
        inorderDo_room ht (by omega) hm hint (by omega),
        if_pos (mt ht.2.2.2.root_eq_null.mp hr)]
      exact ihr ht.2.2.2 hr (by omega) (hlen.trans hm) (hle.trans_eq (hlen.trans hm))
        (by rw [hnext, ← Nat.sub_sub]; exact hfits.2 hroom)
    · have hl : l ≠ .nil := by
        intro hnil
        subst hnil
        exact hroom (Nat.pos_of_ne_zero hfits.1)
      rw [root_node, inorderDo_node ht.2.1 (by omega),
        if_pos (mt ht.2.2.1.root_eq_null.mp hl)]
      by_cases hleft : Fits l (m - i)
      · rw [inorderDo_fits ht.2.2.1 hl (by omega) hm hi hint hleft, Option.bind_some,
          store_eq_none, Option.bind_none]
        rw [(stored_room hir _).1, stored]
        omega
      · rw [ihl ht.2.2.1 hl (by omega) hm hi hleft, Option.bind_none]

theorem fits_strings {room : ℕ} : Fits (strings t) room ↔ Fits t room := by
  induction t generalizing room with
  | nil => exact Iff.rfl
  | node a l r ihl ihr =>
    have hnum : (strings l).numNodes = l.numNodes := by rw [numNodes_eq_length, length_inorder]
    rw [strings_node, Fits, Fits, hnum, ihr]

/-- There is room for all, or the array is full just when a key of the right spine is stored. -/
theorem fits_iff {α : Type} [LinearOrder α] {t : BinaryTree α} {room : ℕ} (ht : Sorted t) :
    Fits t room ↔ room = 0 ∨ t.numNodes ≤ room ∨
      ∃ u ∈ rightSpine t, (SearchTree.inorder t).countP (· ≤ u) = room := by
  induction t generalizing room with
  | nil => simp [Fits]
  | node a l r ihl ihr =>
    obtain ⟨-, hr, hla, har⟩ := sorted_node.mp ht
    have hcount : ∀ u, a ≤ u → (SearchTree.inorder (.node a l r)).countP (· ≤ u) =
        l.numNodes + 1 + (SearchTree.inorder r).countP (· ≤ u) := by
      intro u hu
      have hleft : (SearchTree.inorder l).countP (· ≤ u) = l.numNodes := by
        rw [← length_inorder, List.countP_eq_length]
        exact fun y hy ↦ decide_eq_true ((hla y hy).le.trans hu)
      rw [SearchTree.inorder, List.countP_append, List.countP_cons, if_pos (decide_eq_true hu),
        hleft]
      omega
    have hzero : (SearchTree.inorder r).countP (· ≤ a) = 0 :=
      List.countP_eq_zero.mpr fun y hy ↦ by simpa using har y hy
    have hspine : ∀ u ∈ rightSpine r, a ≤ u := fun u hu ↦ (har u (mem_of_mem_rightSpine hu)).le
    rw [Fits, ihr hr, BinaryTree.numNodes]
    constructor
    · intro h
      rcases h with h0 | ⟨hroom, hlast | hle | ⟨u, hu, hlast⟩⟩
      · exact .inl h0
      · exact .inr (.inr ⟨a, List.mem_cons_self, by rw [hcount a le_rfl, hzero]; omega⟩)
      · exact .inr (.inl (by omega))
      · exact .inr (.inr ⟨u, List.mem_cons_of_mem a hu, by rw [hcount u (hspine u hu)]; omega⟩)
    · intro h
      rcases h with h0 | hle | ⟨u, hu, hlast⟩
      · exact .inl h0
      · exact .inr ⟨by omega, .inr (.inl (by omega))⟩
      · rcases List.mem_cons.mp hu with rfl | hu
        · rw [hcount u le_rfl, hzero] at hlast
          exact .inr ⟨by omega, .inl (by omega)⟩
        · rw [hcount u (hspine u hu)] at hlast
          exact .inr ⟨by omega, .inr (.inr ⟨u, hu, by omega⟩)⟩

theorem Holds.preorder (H : Holds h tree t) (hm : result.length = m) (hint : m < 2147483648) :
    SortedTree.preorder h tree result m =
      some ((stored result 0 (SearchTree.preorder (strings t))).1,
        ((stored result 0 (SearchTree.preorder (strings t))).2 : ℤ)) := by
  rw [SortedTree.preorder, ← H.root]
  exact_mod_cast preorderDo_spec H.ok.isTree H.ne_nil (Nat.lt_succ_of_le H.ok.numNodes_le) hm
    (Nat.zero_le m) hint

theorem Holds.inorder_fits (H : Holds h tree t) (hm : result.length = m) (hint : m < 2147483648)
    (hfits : Fits t m) : SortedTree.inorder h tree result m =
      some ((stored result 0 (SearchTree.inorder (strings t))).1,
        ((stored result 0 (SearchTree.inorder (strings t))).2 : ℤ)) := by
  rw [SortedTree.inorder, ← H.root]
  exact_mod_cast inorderDo_fits H.ok.isTree H.ne_nil (Nat.lt_succ_of_le H.ok.numNodes_le) hm
    (Nat.zero_le m) hint hfits

theorem Holds.inorder_overrun (H : Holds h tree t) (hm : result.length = m)
    (hint : m < 2147483648) (hfits : ¬ Fits t m) : SortedTree.inorder h tree result m = none := by
  rw [SortedTree.inorder, ← H.root]
  exact_mod_cast inorderDo_overrun H.ok.isTree H.ne_nil (Nat.lt_succ_of_le H.ok.numNodes_le) hm
    (Nat.zero_le m) hint hfits

/-- After the strings have been inserted, both traversals store the first `resultMax` strings of
the full order in an array of that size, and return how many they are. -/
def TraversalsExact (h : Heap) (tree : ℕ) (ss : List CString) (resultMax : ℕ) : Prop :=
  ∃ rets h', ss.mapM (insert tree) h = some (rets, h') ∧
    ∀ result : Result, result.length = resultMax →
      preorder h' tree result resultMax =
        some (fill result 0 ((SearchTree.preorder (SearchTree.insertAll .nil ss)).take resultMax),
          ((min resultMax ss.dedup.length : ℕ) : ℤ)) ∧
      inorder h' tree result resultMax =
        some (fill result 0 ((SearchTree.inorder (SearchTree.insertAll .nil ss)).take resultMax),
          ((min resultMax ss.dedup.length : ℕ) : ℤ))

theorem stored_zero (hm : result.length = m) :
    stored result 0 ss = (fill result 0 (ss.take m), min m ss.length) := by
  rw [stored, hm, Nat.sub_zero, Nat.zero_add]

theorem traversalsExact_iff_fits (hroot : h.nodes tree = some ⟨none, NULL, NULL⟩)
    (h0 : tree ≠ NULL) (hlt : tree < h.fresh) (hne : ss ≠ []) (hint : m < 2147483648) :
    TraversalsExact h tree ss m ↔ Fits (SearchTree.insertAll .nil ss) m := by
  obtain ⟨rets, h', hrun, -, t, H, hst, -⟩ := insertAll_fresh hroot h0 hlt hne
  have hlen := (inorder_insertAll_perm ss).length_eq
  have hlen' := (preorder_perm (SearchTree.insertAll .nil ss)).length_eq.trans hlen
  rw [← hst, fits_strings]
  constructor
  · intro hexact
    by_contra hfits
    obtain ⟨rets', h'', hrun', hexact⟩ := hexact
    obtain ⟨-, rfl⟩ := Prod.mk.inj (Option.some.inj (hrun.symm.trans hrun'))
    have hlist := (hexact (List.replicate m none) List.length_replicate).2
    rw [H.inorder_overrun List.length_replicate hint hfits] at hlist
    cases hlist
  · intro hfits
    refine ⟨rets, h', hrun, fun result hm ↦ ⟨?_, ?_⟩⟩
    · rw [H.preorder hm hint, stored_zero hm, hst, hlen']
    · rw [H.inorder_fits hm hint hfits, stored_zero hm, hst, hlen]

/-- A root without a string is stored and counted like any other. -/
theorem preorder_empty (hroot : h.nodes tree = some ⟨none, NULL, NULL⟩)
    (hm : result.length = m) (hpos : 0 < m) :
    preorder h tree result m = some (result.set 0 none, 1) := by
  have hstore : result.store 0 none = some (result.set 0 none) := if_pos ⟨le_rfl, by omega⟩
  rw [preorder, preorderDo, if_neg (by omega), hroot]
  simp only [Option.bind_eq_bind, Option.bind_some]
  rw [hstore, Option.bind_some, int_of_bounds (by omega) (by omega), Option.bind_some]
  rfl

theorem traversalsExact_nil_iff (hroot : h.nodes tree = some ⟨none, NULL, NULL⟩)
    (hint : m < 2147483648) : TraversalsExact h tree [] m ↔ m = 0 := by
  have hrun : ([] : List CString).mapM (insert tree) h = some ([], h) := rfl
  constructor
  · intro hexact
    by_contra hm
    obtain ⟨rets, h', hrun', hexact⟩ := hexact
    obtain ⟨-, rfl⟩ := Prod.mk.inj (Option.some.inj (hrun.symm.trans hrun'))
    have hlist := (hexact (List.replicate m none) List.length_replicate).1
    rw [preorder_empty hroot List.length_replicate (Nat.pos_of_ne_zero hm)] at hlist
    have hcount := (Prod.mk.inj (Option.some.inj hlist)).2
    simp at hcount
  · intro hzero
    subst hzero
    refine ⟨[], h, hrun, fun result hm ↦ ⟨?_, ?_⟩⟩
    · exact (preorderDo_full le_rfl).trans (by rw [Nat.zero_min]; simp [fill_nil])
    · exact (inorderDo_full le_rfl).trans (by rw [Nat.zero_min]; simp [fill_nil])

/-- `inorder` overruns the array unless there is room for all strings or the array is full just
when a string has been stored that was greater than all inserted before it. -/
theorem traversalsExact_iff {tree : ℕ} {ss : List CString} {resultMax : ℕ}
    (hroot : h.nodes tree = some ⟨none, NULL, NULL⟩) (h0 : tree ≠ NULL) (hlt : tree < h.fresh)
    (hint : resultMax < 2 ^ 31) :
    TraversalsExact h tree ss resultMax ↔ resultMax = 0 ∨ ss ≠ [] ∧
      (ss.dedup.length ≤ resultMax ∨ ∃ before u after, ss = before ++ u :: after ∧
        (∀ v ∈ before, v < u) ∧ ss.dedup.countP (· ≤ u) = resultMax) := by
  by_cases hne : ss = []
  · subst hne
    rw [traversalsExact_nil_iff hroot hint]
    simp
  · have hperm := inorder_insertAll_perm ss
    rw [traversalsExact_iff_fits hroot h0 hlt hne hint, fits_iff sorted_nil.insertAll,
      ← length_inorder, hperm.length_eq, and_iff_right hne]
    refine or_congr_right (or_congr_right ⟨fun hlast ↦ ?_, fun hlast ↦ ?_⟩)
    · obtain ⟨u, hu, hcount⟩ := hlast
      obtain ⟨before, after, hss, hbefore⟩ := mem_rightSpine_insertAll.mp hu
      exact ⟨before, u, after, hss, hbefore, (hperm.countP_eq _).symm.trans hcount⟩
    · obtain ⟨before, u, after, hss, hbefore, hcount⟩ := hlast
      exact ⟨u, mem_rightSpine_insertAll.mpr ⟨before, after, hss, hbefore⟩,
        (hperm.countP_eq _).trans hcount⟩

theorem traversalsExact_iff_initTree : TraversalsExact initTree 1 [strA, strB] 1 ↔
    1 = 0 ∨ [strA, strB] ≠ [] ∧ ([strA, strB].dedup.length ≤ 1 ∨
      ∃ before u after, [strA, strB] = before ++ u :: after ∧ (∀ v ∈ before, v < u) ∧
        [strA, strB].dedup.countP (· ≤ u) = 1) :=
  traversalsExact_iff rfl (by decide) (by decide) (by decide)

theorem not_traversalsExact : ¬ TraversalsExact initTree 1 [strB, strA] 1 := by
  rw [traversalsExact_iff_fits rfl (by decide) (by decide) (by simp) (by decide)]
  have hlt : strA < strB := strcmp_neg.mp (by decide)
  have htree : SearchTree.insertAll .nil [strB, strA] =
      .node strB (.node strA .nil .nil) .nil :=
    insertAll_left (show ∀ x ∈ [strA], x < strB by simpa using hlt)
  rw [htree]
  intro hfits
  rcases hfits with h0 | ⟨hroom, -⟩
  · exact absurd h0 (by decide)
  · exact absurd hroom (by decide)

theorem expected_nodup {seen : List CString} (hnodup : ss.Nodup) (hseen : ∀ s ∈ ss, s ∉ seen) :
    expected seen ss = List.replicate ss.length 0 := by
  induction ss generalizing seen with
  | nil => rfl
  | cons s ss ih =>
    obtain ⟨hs, hnodup⟩ := List.nodup_cons.mp hnodup
    have hrest : ∀ u ∈ ss, u ∉ s :: seen := fun u hu hm ↦ by
      rcases List.mem_cons.mp hm with rfl | hm
      · exact hs hu
      · exact hseen u (List.mem_cons_of_mem s hu) hm
    rw [expected, if_neg (hseen s List.mem_cons_self), ih hnodup hrest, List.length_cons,
      List.replicate_succ]

theorem preorder_ne_nil (ht : t ≠ .nil) : SearchTree.preorder (strings t) ≠ [] := by
  cases t with
  | nil => exact absurd rfl ht
  | node a l r => exact List.cons_ne_nil _ _

/-- The strings that `preorder` stores rebuild the tree in any memory with another fresh root, and
nothing that was in that memory before is changed. -/
theorem preorder_rebuilds {tree : ℕ} {ss : List CString}
    (hroot : h.nodes tree = some ⟨none, NULL, NULL⟩) (h0 : tree ≠ NULL) (hlt : tree < h.fresh)
    (hne : ss ≠ []) :
    ∃ rets h₁ t, ss.mapM (insert tree) h = some (rets, h₁) ∧ Holds h₁ tree t ∧
      ∀ result : Result, t.numNodes ≤ result.length → result.length < 2 ^ 31 →
      ∃ seq : List CString, preorder h₁ tree result result.length =
          some (seq.map some ++ result.drop seq.length, (seq.length : ℤ)) ∧
        ∀ (h₂ : Heap) (tree₂ : ℕ), h₂.nodes tree₂ = some ⟨none, NULL, NULL⟩ → tree₂ ≠ NULL →
          tree₂ < h₂.fresh → ∃ rets₂ h₃ t₂, seq.mapM (insert tree₂) h₂ = some (rets₂, h₃) ∧
            rets₂ = List.replicate seq.length 0 ∧ Holds h₃ tree₂ t₂ ∧ strings t₂ = strings t ∧
            ∀ x, x ≠ tree₂ → x < h₂.fresh → h₃.nodes x = h₂.nodes x := by
  obtain ⟨rets, h₁, hrun, -, t, H, -⟩ := insertAll_fresh hroot h0 hlt hne
  refine ⟨rets, h₁, t, hrun, H, fun result hroom hint ↦
    ⟨SearchTree.preorder (strings t), ?_, fun h₂ tree₂ hroot₂ h0₂ hlt₂ ↦ ?_⟩⟩
  · have hlen : (SearchTree.preorder (strings t)).length ≤ result.length := by
      rwa [(preorder_perm _).length_eq, ← numNodes_eq_length]
    rw [H.preorder rfl hint, stored_of_room (by omega), fill, List.take_zero, List.nil_append,
      Nat.zero_add]
  · have hnodup : (SearchTree.preorder (strings t)).Nodup :=
      (preorder_perm _).nodup_iff.mpr (H.sorted.imp fun hlt ↦ hlt.ne)
    have hne₂ := preorder_ne_nil H.ne_nil
    obtain ⟨rets₂, h₃, hrun₂, rfl, t₂, H₂, hst₂, hframe⟩ := insertAll_fresh hroot₂ h0₂ hlt₂ hne₂
    exact ⟨_, h₃, t₂, hrun₂, expected_nodup hnodup fun _ _ ↦ List.not_mem_nil, H₂,
      hst₂.trans (insertAll_preorder H.sorted), hframe⟩

theorem preorder_rebuilds_two :
    ∃ rets h₁ t, [strB, strA].mapM (insert 1) initTree = some (rets, h₁) ∧ Holds h₁ 1 t ∧
      ∀ result : Result, t.numNodes ≤ result.length → result.length < 2 ^ 31 →
      ∃ seq : List CString, preorder h₁ 1 result result.length =
          some (seq.map some ++ result.drop seq.length, (seq.length : ℤ)) ∧
        ∀ (h₂ : Heap) (tree₂ : ℕ), h₂.nodes tree₂ = some ⟨none, NULL, NULL⟩ → tree₂ ≠ NULL →
          tree₂ < h₂.fresh → ∃ rets₂ h₃ t₂, seq.mapM (insert tree₂) h₂ = some (rets₂, h₃) ∧
            rets₂ = List.replicate seq.length 0 ∧ Holds h₃ tree₂ t₂ ∧ strings t₂ = strings t ∧
            ∀ x, x ≠ tree₂ → x < h₂.fresh → h₃.nodes x = h₂.nodes x :=
  preorder_rebuilds rfl (by decide) (by decide) (by simp)

end CsoLabs.SortedTree
