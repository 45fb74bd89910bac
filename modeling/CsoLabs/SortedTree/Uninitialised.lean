import CsoLabs.SortedTree.Deletion
import CsoLabs.SortedTree.Traversals

namespace CsoLabs.SortedTree

open Foundation CInt CString

/-- A tree from `init_tree` to `del_tree`, which may take `fuel` calls inside each other. Returns
what the inserts and the traversal return. -/
def wholeRun (garbage : Garbage) (traverse : Heap → ℕ → Result → ℤ → Option (Result × ℤ))
    (ss : List CString) (result : Result) (fuel : ℕ) : Prog (List ℤ × Result × ℤ) := do
  let tree ← initTreeFrom garbage
  let rets ← ss.mapM (insertFrom garbage tree)
  let h ← get
  let out ← liftM (traverse h tree result result.length)
  delTree fuel tree
  return (rets, out)

variable {garbage garbage' : Garbage} {h h' : Heap} {p q x y fuel : ℕ} {s : CString}
  {n m : Tnode}

theorem wp_malloc {Q : ℕ → Heap → Prop} : wp (malloc garbage) Q h ↔
    Q h.fresh ⟨Function.update h.nodes h.fresh (some (garbage h.fresh)), h.fresh + 1⟩ :=
  wp_of_eq rfl

/-- `alloc_node` writes every field, so nothing of what was in the block is left. -/
theorem allocNodeFrom_eq : allocNodeFrom garbage = allocNode := by
  funext s h
  have hrun : wp (allocNodeFrom garbage s) (fun p h' ↦ allocNode s h = some (p, h')) h := by
    simp only [allocNodeFrom, wp_bind, wp_malloc, wp_pure, wp_readNode_iff, writeNode, wp_modify,
      Function.update_self, Option.some.injEq, exists_eq_left', Function.update_idem]
    rfl
  obtain ⟨p, h', hrun, halloc⟩ := hrun
  rw [hrun, halloc]

theorem insertRecFrom_eq : insertRecFrom garbage = insertRec := by
  funext fuel
  induction fuel with
  | zero => rfl
  | succ fuel ih =>
    funext tree s
    rw [insertRecFrom, insertRec, allocNodeFrom_eq, ih]

theorem insertFrom_eq : insertFrom garbage = insert := by
  funext tree s
  rw [insertFrom, insert, insertRecFrom_eq]

def freshRoot (tree left right : ℕ) : Heap :=
  ⟨Function.update (fun _ ↦ none) tree (some ⟨none, left, right⟩), tree + 1⟩

variable {traverse : Heap → ℕ → Result → ℤ → Option (Result × ℤ)} {ss : List CString}
  {result : Result} {fresh left right : ℕ}

theorem wp_wholeRun {Q : List ℤ × Result × ℤ → Heap → Prop} :
    wp (wholeRun garbage traverse ss result fuel) Q ⟨fun _ ↦ none, fresh⟩ ↔
      wp (ss.mapM (insert fresh)) (fun rets h ↦ ∃ out,
        traverse h fresh result result.length = some out ∧
          wp (delTree fuel fresh) (fun _ h' ↦ Q (rets, out) h') h)
        (freshRoot fresh (garbage fresh).left (garbage fresh).right) := by
  simp only [wholeRun, initTreeFrom, wp_bind, wp_malloc, wp_readNode_iff, writeNode, wp_modify,
    Function.update_self, Option.some.injEq, exists_eq_left', Function.update_idem, wp_pure,
    insertFrom_eq, wp_get, wp_lift]
  rfl

theorem rootAddress_map (t : NodeTree) : rootAddress (t.map Prod.fst) = root t := by
  cases t with
  | nil => rfl
  | node a l r => rfl

theorem addresses_map (t : NodeTree) : addresses (t.map Prod.fst) = addrs t :=
  SearchTree.inorder_map ..

theorem IsTree.linked {nodes : ℕ → Option Tnode} {t : NodeTree} (ht : IsTree nodes t) :
    Linked nodes (t.map Prod.fst) := by
  induction t with
  | nil => trivial
  | node a l r ihl ihr =>
    obtain ⟨x, s⟩ := a
    obtain ⟨hx, hn, hl, hr⟩ := ht
    exact ⟨hx, ⟨_, hn, (rootAddress_map l).symm, (rootAddress_map r).symm⟩, ihl hl, ihr hr⟩

theorem Holds.delTree {tree : ℕ} {t : NodeTree} (H : Holds h tree t) :
    ∃ fuel, wp (delTree fuel tree) (fun _ h' ↦ h' = h.clear (addrs t)) h := by
  have hdel := delTree_linked H.ok.isTree.linked (t := t.map Prod.fst)
    (fun hnil ↦ H.ne_nil ?_) (by rw [addresses_map]; exact H.ok.nodup) (Nat.lt_succ_self _)
  · rw [rootAddress_map, addresses_map, H.root] at hdel
    exact ⟨_, hdel⟩
  · cases t with
    | nil => rfl
    | node a l r => cases hnil

theorem wholeRun_done (htraverse : traverse = inorder ∨ traverse = preorder) (h0 : fresh ≠ NULL)
    (hne : ss ≠ []) (hroom : ss.dedup.length ≤ result.length) (hint : result.length < 2147483648) :
    ∃ fuel out h, ∀ garbage : Garbage, (garbage fresh).left = NULL → (garbage fresh).right = NULL →
      wholeRun garbage traverse ss result fuel ⟨fun _ ↦ none, fresh⟩ = some (out, h) := by
  have hroot : (freshRoot fresh NULL NULL).nodes fresh = some ⟨none, NULL, NULL⟩ := by
    simp [freshRoot]
  obtain ⟨rets, h₁, hrun, -, t, H, hst, -⟩ := insertAll_fresh hroot h0 (Nat.lt_succ_self _) hne
  obtain ⟨fuel, u, h₂, hdel, -⟩ := H.delTree
  have hfits : Fits t result.length := by
    apply fits_of_le
    rwa [numNodes_eq_length, hst, (SearchTree.inorder_insertAll_perm ss).length_eq]
  obtain ⟨out, hout⟩ : ∃ out, traverse h₁ fresh result result.length = some out := by
    rcases htraverse with rfl | rfl
    · exact ⟨_, H.inorder_fits rfl hint hfits⟩
    · exact ⟨_, H.preorder rfl hint⟩
  refine ⟨fuel, (rets, out), h₂, fun garbage hleft hright ↦ ?_⟩
  have hwp : wp (wholeRun garbage traverse ss result fuel)
      (fun out' h' ↦ out' = (rets, out) ∧ h' = h₂) ⟨fun _ ↦ none, fresh⟩ := by
    rw [wp_wholeRun, hleft, hright, wp_of_eq hrun]
    exact ⟨out, hout, u, h₂, hdel, rfl, rfl⟩
  obtain ⟨out', h', hrun', rfl, rfl⟩ := hwp
  exact hrun'

inductive Inserted (s : CString) (h : Heap) : Heap → Prop
  | same : Inserted s h h
  | string {y : ℕ} {n : Tnode} : h.nodes y = some n →
      Inserted s h ⟨Function.update h.nodes y (some { n with string := some s }), h.fresh⟩
  | left {y : ℕ} {n : Tnode} : h.nodes y = some n → n.left = NULL →
      Inserted s h (h.hang y s { n with left := h.fresh })
  | right {y : ℕ} {n : Tnode} : h.nodes y = some n → n.right = NULL →
      Inserted s h (h.hang y s { n with right := h.fresh })

theorem insertRec_inserted {Q : ℤ → Heap → Prop} (hrun : wp (insertRec fuel q s) Q h) :
    ∃ ret h', Inserted s h h' ∧ Q ret h' := by
  induction fuel generalizing q with
  | zero => exact absurd hrun wp_failure
  | succ fuel ih =>
    rw [insertRec, wp_bind, wp_readNode_iff] at hrun
    obtain ⟨⟨string, l, r⟩, hn, hrun⟩ := hrun
    cases string with
    | none =>
      simp only [wp_bind, writeNode, wp_modify, wp_pure] at hrun
      exact ⟨0, _, .string hn, hrun⟩
    | some string =>
      simp only at hrun
      split_ifs at hrun with hpos hleft hneg hright
      · exact ⟨0, _, .left hn hleft, (wp_hang fun p ↦ ⟨some string, p, r⟩).mp hrun⟩
      · exact ih hrun
      · exact ⟨0, _, .right hn hright, (wp_hang fun p ↦ ⟨some string, l, p⟩).mp hrun⟩
      · exact ih hrun
      · exact ⟨1, h, .same, wp_pure.mp hrun⟩

def degree : Option Tnode → ℕ
  | none => 0
  | some n => (if n.left = NULL then 0 else 1) + if n.right = NULL then 0 else 1

/-- Every node but the root hangs below an older one, and there are too many links for a tree:
at least as many as nodes. -/
structure Overlinked (p : ℕ) (h : Heap) : Prop where
  allocated : ∀ x, (∃ n, h.nodes x = some n) ↔ p ≤ x ∧ x < h.fresh
  parent : ∀ x, p < x → x < h.fresh → ∃ y n, y < x ∧ h.nodes y = some n ∧ (n.left = x ∨ n.right = x)
  links : h.fresh ≤ p + ∑ x ∈ Finset.Ico p h.fresh, degree (h.nodes x)

theorem Overlinked.update_string (O : Overlinked p h) (hn : h.nodes y = some n) :
    Overlinked p ⟨Function.update h.nodes y (some { n with string := some s }), h.fresh⟩ := by
  refine ⟨fun x ↦ ?_, fun x hpx hx ↦ ?_, O.links.trans_eq ?_⟩
  · rw [← O.allocated]
    by_cases hxy : x = y
    · subst hxy
      simp [hn]
    · simp only [Function.update_of_ne hxy]
  · obtain ⟨z, k, hz, hk, hlink⟩ := O.parent x hpx hx
    by_cases hzy : z = y
    · subst hzy
      obtain rfl := Option.some.inj (hn.symm.trans hk)
      exact ⟨z, _, hz, Function.update_self .., hlink⟩
    · exact ⟨z, k, hz, (Function.update_of_ne hzy ..).trans hk, hlink⟩
  · refine congrArg (p + ·) (Finset.sum_congr rfl fun x _ ↦ ?_)
    by_cases hxy : x = y
    · subst hxy
      simp only [Function.update_self, hn]
      rfl
    · simp only [Function.update_of_ne hxy]

theorem Overlinked.hang (O : Overlinked p h) (hn : h.nodes y = some n)
    (hdeg : degree (some n) < degree (some m)) (hlink : m.left = h.fresh ∨ m.right = h.fresh)
    (hkeep : ∀ x, x ≠ NULL → n.left = x ∨ n.right = x → m.left = x ∨ m.right = x) :
    Overlinked p (h.hang y s m) := by
  obtain ⟨hpy, hy⟩ := (O.allocated y).mp ⟨n, hn⟩
  have hself : (h.hang y s m).nodes y = some m := Function.update_self ..
  have hleaf : (h.hang y s m).nodes h.fresh = some ⟨some s, NULL, NULL⟩ := by
    simp only [Heap.hang, Function.update_of_ne hy.ne', Function.update_self]
  refine ⟨fun x ↦ ?_, fun x hpx hx ↦ ?_, ?_⟩
  · rw [show (h.hang y s m).fresh = h.fresh + 1 from rfl]
    by_cases hxy : x = y
    · subst hxy
      exact iff_of_true ⟨m, hself⟩ ⟨hpy, hy.trans (Nat.lt_succ_self _)⟩
    · by_cases hxf : x = h.fresh
      · subst hxf
        exact iff_of_true ⟨_, hleaf⟩ ⟨hpy.trans hy.le, Nat.lt_succ_self _⟩
      · rw [hang_frame hxy hxf, O.allocated]
        omega
  · rcases (Nat.le_of_lt_succ hx).eq_or_lt with rfl | hx
    · exact ⟨y, m, hy, hself, hlink⟩
    · obtain ⟨z, k, hz, hk, hlink'⟩ := O.parent x hpx hx
      by_cases hzy : z = y
      · subst hzy
        obtain rfl := Option.some.inj (hn.symm.trans hk)
        exact ⟨z, m, hz, hself, hkeep x (Nat.ne_of_gt (Nat.zero_lt_of_lt hpx)) hlink'⟩
      · exact ⟨z, k, hz, (hang_frame hzy (hz.trans hx).ne).trans hk, hlink'⟩
  · have hmore : ∑ x ∈ Finset.Ico p h.fresh, degree (h.nodes x) <
        ∑ x ∈ Finset.Ico p h.fresh, degree ((h.hang y s m).nodes x) := by
      refine Finset.sum_lt_sum (fun x hx ↦ ?_) ⟨y, Finset.mem_Ico.mpr ⟨hpy, hy⟩, ?_⟩
      · by_cases hxy : x = y
        · subst hxy
          rw [hself, hn]
          exact hdeg.le
        · rw [hang_frame hxy (Finset.mem_Ico.mp hx).2.ne]
      · rwa [hself, hn]
    have hlinks := O.links
    rw [show (h.hang y s m).fresh = h.fresh + 1 from rfl, Finset.sum_Ico_succ_top (hpy.trans hy.le)]
    omega

theorem Overlinked.inserted (O : Overlinked p h) (hi : Inserted s h h') : Overlinked p h' := by
  cases hi with
  | same => exact O
  | string hn => exact O.update_string hn
  | left hn hnull =>
    have hfresh : h.fresh ≠ NULL := Nat.ne_of_gt (Nat.zero_lt_of_lt ((O.allocated _).mp ⟨_, hn⟩).2)
    refine O.hang hn (by simp [degree, hnull, hfresh]) (.inl rfl) fun x hx hlink ↦ ?_
    exact .inr (hlink.resolve_left fun h ↦ hx (h.symm.trans hnull))
  | right hn hnull =>
    have hfresh : h.fresh ≠ NULL := Nat.ne_of_gt (Nat.zero_lt_of_lt ((O.allocated _).mp ⟨_, hn⟩).2)
    refine O.hang hn (by simp [degree, hnull, hfresh]) (.inr rfl) fun x hx hlink ↦ ?_
    exact .inl (hlink.resolve_right fun h ↦ hx (h.symm.trans hnull))

theorem Overlinked.insertAll (O : Overlinked p h) {Q : List ℤ → Heap → Prop}
    (hrun : wp (ss.mapM (insert q)) Q h) : ∃ rets h', Overlinked p h' ∧ Q rets h' := by
  induction ss generalizing h Q with
  | nil => exact ⟨[], h, O, wp_pure.mp hrun⟩
  | cons s ss ih =>
    rw [List.mapM_cons, wp_bind, insert, wp_bind, wp_get] at hrun
    obtain ⟨ret, h₁, hi, hrun⟩ := insertRec_inserted hrun
    rw [wp_bind] at hrun
    obtain ⟨rets, h₂, O₂, hrun⟩ := ih (O.inserted hi) hrun
    exact ⟨_, h₂, O₂, wp_pure.mp hrun⟩

theorem overlinked_freshRoot (h0 : fresh ≠ NULL) (hgarbage : left ≠ NULL ∨ right ≠ NULL) :
    Overlinked fresh (freshRoot fresh left right) := by
  have hself : (freshRoot fresh left right).nodes fresh = some ⟨none, left, right⟩ := by
    simp [freshRoot]
  have hother : ∀ x, x ≠ fresh → (freshRoot fresh left right).nodes x = none := fun x hx ↦ by
    simp [freshRoot, hx]
  refine ⟨fun x ↦ ?_, fun x hpx hx ↦ ?_, ?_⟩
  · rw [show (freshRoot fresh left right).fresh = fresh + 1 from rfl]
    by_cases hx : x = fresh
    · subst hx
      exact iff_of_true ⟨_, hself⟩ ⟨le_rfl, Nat.lt_succ_self _⟩
    · refine iff_of_false (fun hn ↦ ?_) (by omega)
      obtain ⟨n, hn⟩ := hn
      rw [hother x hx] at hn
      cases hn
  · exact absurd (Nat.le_of_lt_succ hx) hpx.not_ge
  · rw [show (freshRoot fresh left right).fresh = fresh + 1 from rfl, Nat.Ico_succ_singleton,
      Finset.sum_singleton, hself, degree]
    rcases hgarbage with hl | hr
    · simp only [if_neg hl]
      omega
    · simp only [if_neg hr]
      omega

variable {t : AddressTree}

theorem rootAddress_mem (hne : rootAddress t ≠ NULL) : rootAddress t ∈ addresses t := by
  cases t with
  | nil => exact absurd rfl hne
  | node x l r => exact mem_addresses_node.mpr (.inr (.inl rfl))

theorem Linked.child_mem (ht : Linked h.nodes t) (hy : y ∈ addresses t) (hn : h.nodes y = some n)
    (hx : x ≠ NULL) (hlink : n.left = x ∨ n.right = x) : x ∈ addresses t := by
  induction t with
  | nil => exact absurd hy List.not_mem_nil
  | node a l r ihl ihr =>
    obtain ⟨-, ⟨m, hm, hleft, hright⟩, hl, hr⟩ := ht
    rcases mem_addresses_node.mp hy with hy | rfl | hy
    · exact mem_addresses_node.mpr (.inl (ihl hl hy))
    · obtain rfl := Option.some.inj (hn.symm.trans hm)
      rcases hlink with rfl | rfl
      · rw [hleft] at hx ⊢
        exact mem_addresses_node.mpr (.inl (rootAddress_mem hx))
      · rw [hright] at hx ⊢
        exact mem_addresses_node.mpr (.inr (.inr (rootAddress_mem hx)))
    · exact mem_addresses_node.mpr (.inr (.inr (ihr hr hy)))

theorem Linked.sum_degree (ht : Linked h.nodes t) :
    ((addresses t).map fun x ↦ degree (h.nodes x)).sum + (if rootAddress t = NULL then 0 else 1) =
      (addresses t).length := by
  induction t with
  | nil => rfl
  | node a l r ihl ihr =>
    obtain ⟨ha, ⟨m, hm, hleft, hright⟩, hl, hr⟩ := ht
    have hsuml := ihl hl
    have hsumr := ihr hr
    rw [addresses_node, List.map_append, List.map_cons, List.sum_append, List.sum_cons, hm, degree,
      hleft, hright, List.length_append, List.length_cons,
      show rootAddress (.node a l r) = a from rfl, if_neg ha]
    omega

theorem Overlinked.mem_addresses (O : Overlinked p h) (h0 : p ≠ NULL) (ht : Linked h.nodes t)
    (hroot : rootAddress t = p) : x ∈ addresses t ↔ p ≤ x ∧ x < h.fresh := by
  refine ⟨fun hx ↦ (O.allocated x).mp (ht.allocated hx), ?_⟩
  induction x using Nat.strong_induction_on with
  | _ x ih =>
    intro hx
    obtain ⟨hpx, hx⟩ := hx
    rcases hpx.eq_or_lt with rfl | hpx
    · rw [← hroot] at h0 ⊢
      exact rootAddress_mem h0
    · obtain ⟨y, n, hy, hn, hlink⟩ := O.parent x hpx hx
      have hmem := ih y hy ((O.allocated y).mp ⟨n, hn⟩)
      exact ht.child_mem hmem hn (Nat.ne_of_gt (Nat.zero_lt_of_lt hpx)) hlink

/-- With so many links `del_tree` does not end, or it comes to a node that is not allocated, or to
one a second time, when it is given back. -/
theorem Overlinked.not_delTree (O : Overlinked p h) (h0 : p ≠ NULL) {Q : Unit → Heap → Prop} :
    ¬ wp (delTree fuel p) Q h := by
  intro hdel
  obtain ⟨t, hroot, ht, hnodup, -⟩ := delTree_inv h0 hdel
  have hset : (addresses t).toFinset = Finset.Ico p h.fresh := by
    ext x
    rw [List.mem_toFinset, Finset.mem_Ico, O.mem_addresses h0 ht hroot]
  have hsum := ht.sum_degree
  rw [← List.sum_toFinset _ hnodup, ← List.toFinset_card_of_nodup hnodup, hset, Nat.card_Ico,
    hroot, if_neg h0] at hsum
  have hlinks := O.links
  omega

theorem wholeRun_fails (h0 : fresh ≠ NULL)
    (hgarbage : (garbage fresh).left ≠ NULL ∨ (garbage fresh).right ≠ NULL) :
    wholeRun garbage traverse ss result fuel ⟨fun _ ↦ none, fresh⟩ = none := by
  rw [Option.eq_none_iff_forall_ne_some]
  intro ⟨out, h'⟩ hrun
  have hwp : wp (wholeRun garbage traverse ss result fuel) (fun _ _ ↦ True) ⟨fun _ ↦ none, fresh⟩ :=
    ⟨out, h', hrun, trivial⟩
  obtain ⟨rets, h₁, O, -, -, hdel⟩ :=
    (overlinked_freshRoot h0 hgarbage).insertAll (wp_wholeRun.mp hwp)
  exact O.not_delTree h0 hdel

/-- With both contents of the memory the run ends, on nodes of this tree alone, and returns the
same. -/
def Independent (garbage garbage' : Garbage) (fresh : ℕ)
    (traverse : Heap → ℕ → Result → ℤ → Option (Result × ℤ)) (ss : List CString)
    (result : Result) : Prop :=
  ∃ fuel out h h', wholeRun garbage traverse ss result fuel ⟨fun _ ↦ none, fresh⟩ = some (out, h) ∧
    wholeRun garbage' traverse ss result fuel ⟨fun _ ↦ none, fresh⟩ = some (out, h')

/-- `init_tree` leaves the root's children to what was in the memory. -/
theorem independent_iff (garbage garbage' : Garbage) {fresh : ℕ}
    {traverse : Heap → ℕ → Result → ℤ → Option (Result × ℤ)} {ss : List CString} {result : Result}
    (htraverse : traverse = inorder ∨ traverse = preorder) (h0 : fresh ≠ NULL) (hne : ss ≠ [])
    (hroom : ss.dedup.length ≤ result.length) (hint : result.length < 2 ^ 31) :
    Independent garbage garbage' fresh traverse ss result ↔
      ((garbage fresh).left = NULL ∧ (garbage fresh).right = NULL) ∧
        (garbage' fresh).left = NULL ∧ (garbage' fresh).right = NULL := by
  constructor
  · intro hind
    obtain ⟨fuel, out, h, h', hrun, hrun'⟩ := hind
    constructor
    · by_contra hgarbage
      rw [wholeRun_fails h0 (not_and_or.mp hgarbage)] at hrun
      cases hrun
    · by_contra hgarbage
      rw [wholeRun_fails h0 (not_and_or.mp hgarbage)] at hrun'
      cases hrun'
  · intro hnull
    obtain ⟨⟨hleft, hright⟩, hleft', hright'⟩ := hnull
    obtain ⟨fuel, out, h, hrun⟩ := wholeRun_done htraverse h0 hne hroom hint
    exact ⟨fuel, out, h, h, hrun garbage hleft hright, hrun garbage' hleft' hright'⟩

/-- Two strings, with both traversals: only what the root's children hold matters. -/
theorem independent_iff_two :
    Independent (fun _ ↦ ⟨none, NULL, NULL⟩) (fun _ ↦ ⟨some strA, NULL, NULL⟩) 1 preorder
      [strB, strA] [none, none] ∧
    ¬ Independent (fun _ ↦ ⟨none, NULL, NULL⟩) (fun _ ↦ ⟨none, 5, NULL⟩) 1 inorder
      [strB, strA] [none, none] := by
  constructor
  · exact (independent_iff _ _ (.inr rfl) (by decide) (by simp) (by decide) (by decide)).mpr
      ⟨⟨rfl, rfl⟩, rfl, rfl⟩
  · intro hind
    have hnull := (independent_iff _ _ (.inl rfl) (by decide) (by simp) (by decide)
      (by decide)).mp hind
    exact absurd hnull.2.1 (by decide)

theorem not_independent :
    ¬ Independent (fun _ ↦ ⟨none, NULL, NULL⟩) (fun _ ↦ ⟨none, 5, NULL⟩) 1 inorder [strA] [none] := by
  intro hind
  obtain ⟨fuel, out, h, h', -, hrun'⟩ := hind
  rw [wholeRun_fails (by decide) (.inl (by decide))] at hrun'
  cases hrun'

end CsoLabs.SortedTree
