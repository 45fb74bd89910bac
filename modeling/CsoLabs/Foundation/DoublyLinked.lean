import Mathlib.Tactic

namespace CsoLabs.Foundation

variable {α : Type*} {next prev next' prev' : α → α} {null head p e x : α} {xs ys l r : List α}

/-- `xs` is chained both ways between the predecessor `p` and the successor `e`. -/
def Seg (next prev : α → α) : α → List α → α → Prop
  | _, [], _ => True
  | p, x :: xs, e => prev x = p ∧ next x = xs.headD e ∧ Seg next prev x xs e

structure DList (next prev : α → α) (null head : α) (xs : List α) : Prop where
  head_eq : head = xs.headD null
  seg : Seg next prev null xs null
  nodup : xs.Nodup
  null_notMem : null ∉ xs

theorem headD_append (xs ys : List α) (e : α) : (xs ++ ys).headD e = xs.headD (ys.headD e) := by
  cases xs <;> rfl

theorem seg_append :
    Seg next prev p (xs ++ ys) e ↔
      Seg next prev p xs (ys.headD e) ∧ Seg next prev (xs.getLastD p) ys e := by
  induction xs generalizing p with
  | nil => simp [Seg]
  | cons x xs ih =>
    rw [List.cons_append, Seg, Seg, ih, headD_append, List.getLastD_cons]
    tauto

theorem Seg.congr (h : Seg next prev p xs e) (hn : ∀ x ∈ xs, next' x = next x)
    (hp : ∀ x ∈ xs, prev' x = prev x) : Seg next' prev' p xs e := by
  induction xs generalizing p with
  | nil => trivial
  | cons x xs ih =>
    obtain ⟨h₁, h₂, h₃⟩ := h
    refine ⟨?_, ?_, ih h₃ (fun y hy ↦ hn y (by simp [hy])) (fun y hy ↦ hp y (by simp [hy]))⟩
    · rw [hp x (by simp), h₁]
    · rw [hn x (by simp), h₂]

theorem Seg.relinkEnd [DecidableEq α] (h : Seg next prev p xs e) (hd : xs.Nodup) {e' : α}
    (hn : ∀ x ∈ xs, next' x = if x = xs.getLastD p then e' else next x)
    (hp : ∀ x ∈ xs, prev' x = prev x) : Seg next' prev' p xs e' := by
  rcases List.eq_nil_or_concat' xs with rfl | ⟨l, x, rfl⟩
  · trivial
  · rw [seg_append] at h ⊢
    refine ⟨h.1.congr (fun y hy ↦ ?_) (fun y hy ↦ hp y (by simp [hy])), ?_, ?_, trivial⟩
    · have hyx : y ≠ x := by
        rintro rfl
        exact (List.nodup_append.mp hd).2.2 y hy y (by simp) rfl
      rw [hn y (by simp [hy]), if_neg (by simpa using hyx)]
    · rw [hp x (by simp), h.2.1]
    · rw [hn x (by simp), if_pos (by simp)]; rfl

theorem Seg.relinkStart [DecidableEq α] (h : Seg next prev p xs e) (hd : xs.Nodup) {p' : α}
    (hn : ∀ x ∈ xs, next' x = next x)
    (hp : ∀ x ∈ xs, prev' x = if x = xs.headD e then p' else prev x) :
    Seg next' prev' p' xs e := by
  cases xs with
  | nil => trivial
  | cons x xs =>
    obtain ⟨_, h₂, h₃⟩ := h
    refine ⟨by rw [hp x (by simp), if_pos (by simp)], by rw [hn x (by simp), h₂],
      h₃.congr (fun y hy ↦ hn y (by simp [hy])) (fun y hy ↦ ?_)⟩
    have hyx : y ≠ x := by
      rintro rfl
      exact (List.nodup_cons.mp hd).1 hy
    rw [hp y (by simp [hy]), if_neg (by simpa using hyx)]

namespace DList

theorem of_nil : DList next prev null null [] := ⟨rfl, trivial, List.nodup_nil, by simp⟩

theorem next_eq (h : DList next prev null head (l ++ x :: r)) : next x = r.headD null :=
  (seg_append.mp h.seg).2.2.1

theorem prev_eq (h : DList next prev null head (l ++ x :: r)) : prev x = l.getLastD null :=
  (seg_append.mp h.seg).2.1

theorem congr (h : DList next prev null head xs) (hn : ∀ x ∈ xs, next' x = next x)
    (hp : ∀ x ∈ xs, prev' x = prev x) : DList next' prev' null head xs :=
  ⟨h.head_eq, h.seg.congr hn hp, h.nodup, h.null_notMem⟩

theorem next_mem (h : DList next prev null head xs) (hx : x ∈ xs) :
    next x = null ∨ next x ∈ xs := by
  obtain ⟨l, r, rfl⟩ := List.append_of_mem hx
  rw [h.next_eq]
  cases r <;> simp

theorem prev_mem (h : DList next prev null head xs) (hx : x ∈ xs) :
    prev x = null ∨ prev x ∈ xs := by
  obtain ⟨l, r, rfl⟩ := List.append_of_mem hx
  rw [h.prev_eq]
  rcases List.eq_nil_or_concat' l with rfl | ⟨l, y, rfl⟩ <;> simp

theorem prev_head (h : DList next prev null head xs) (hne : head ≠ null) : prev head = null := by
  cases xs with
  | nil => exact absurd h.head_eq hne
  | cons x xs => exact h.head_eq ▸ h.prev_eq (l := [])

theorem prev_next (h : DList next prev null head xs) (hx : x ∈ xs) (hne : next x ≠ null) :
    prev (next x) = x := by
  obtain ⟨l, r, rfl⟩ := List.append_of_mem hx
  have hn := h.next_eq
  cases r with
  | nil => exact absurd hn hne
  | cons y r =>
    rw [show l ++ x :: y :: r = (l ++ [x]) ++ y :: r by simp] at h
    rw [hn, List.headD_cons, h.prev_eq]
    simp

theorem unique (h : DList next prev null head xs) (h' : DList next prev null head ys) :
    xs = ys := by
  have aux : ∀ (xs ys : List α) (p p' : α), null ∉ xs → null ∉ ys →
      Seg next prev p xs null → Seg next prev p' ys null →
      xs.headD null = ys.headD null → xs = ys := by
    intro xs
    induction xs with
    | nil =>
      rintro (_ | ⟨y, ys⟩) p p' _ hy _ _ he
      · rfl
      · simp only [List.headD_nil, List.headD_cons] at he
        exact absurd (by simp [he]) hy
    | cons x xs ih =>
      rintro (_ | ⟨y, ys⟩) p p' hx hy hxs hys he
      · simp only [List.headD_nil, List.headD_cons] at he
        exact absurd (by simp [he]) hx
      · simp only [List.headD_cons] at he
        subst he
        rw [ih ys x x (fun h ↦ hx (by simp [h])) (fun h ↦ hy (by simp [h])) hxs.2.2 hys.2.2
          (hxs.2.1.symm.trans hys.2.1)]
  exact aux xs ys null null h.null_notMem h'.null_notMem h.seg h'.seg
    (h.head_eq.symm.trans h'.head_eq)

/-- Unlinking a node makes its neighbours neighbours of each other. -/
theorem remove [DecidableEq α] (h : DList next prev null head (l ++ x :: r))
    (hn : ∀ y ∈ l ++ r, next' y = if y = prev x then next x else next y)
    (hp : ∀ y ∈ l ++ r, prev' y = if y = next x then prev x else prev y) :
    DList next' prev' null (if x = head then next x else head) (l ++ r) := by
  have hd := h.nodup
  have hnull := h.null_notMem
  rw [h.next_eq, h.prev_eq] at hn hp
  rw [h.next_eq]
  obtain ⟨hl, -, -, hr⟩ := seg_append.mp h.seg
  obtain ⟨hdl, hdr, hdlr⟩ := List.nodup_append.mp hd
  obtain ⟨hxr, hdr⟩ := List.nodup_cons.mp hdr
  simp only [List.mem_append, List.mem_cons, not_or] at hnull
  have hdisj : ∀ y ∈ l, y ∉ r := fun y hy hy' ↦ hdlr y hy y (by simp [hy']) rfl
  refine ⟨?_, seg_append.mpr ⟨hl.relinkEnd hdl (fun y hy ↦ ?_) (fun y hy ↦ ?_),
    hr.relinkStart hdr (fun y hy ↦ ?_) (fun y hy ↦ ?_)⟩, ?_, ?_⟩
  · rw [headD_append, h.head_eq, headD_append]
    cases l with
    | nil => simp
    | cons y l =>
      have : x ≠ y := fun hxy ↦ hdlr y (by simp) x (by simp) hxy.symm
      simp [this]
  · exact hn y (by simp [hy])
  · rw [hp y (by simp [hy]), if_neg]
    rintro rfl
    cases r with
    | nil => exact hnull.1 hy
    | cons z r => exact hdisj _ hy (by simp)
  · rw [hn y (by simp [hy]), if_neg]
    rintro rfl
    rcases List.eq_nil_or_concat' l with rfl | ⟨l, z, rfl⟩
    · exact hnull.2.2 hy
    · exact hdisj _ (by simp) hy
  · exact hp y (by simp [hy])
  · exact List.nodup_append.mpr ⟨hdl, hdr, fun y hy z hz hyz ↦ hdisj y hy (hyz ▸ hz)⟩
  · simp [hnull]

theorem insert [DecidableEq α] (h : DList next prev null head (l ++ r)) (hx : x ∉ l ++ r)
    (hx0 : x ≠ null)
    (hxn : next' x = r.headD null) (hxp : prev' x = l.getLastD null)
    (hn : ∀ y ∈ l ++ r, next' y = if y = l.getLastD null then x else next y)
    (hp : ∀ y ∈ l ++ r, prev' y = if y = r.headD null then x else prev y) :
    DList next' prev' null (l.headD x) (l ++ x :: r) := by
  have hnull := h.null_notMem
  obtain ⟨hl, hr⟩ := seg_append.mp h.seg
  obtain ⟨hdl, hdr, hdlr⟩ := List.nodup_append.mp h.nodup
  have hdisj : ∀ y ∈ l, y ∉ r := fun y hy hy' ↦ hdlr y hy y hy' rfl
  simp only [List.mem_append, not_or] at hnull hx
  refine ⟨by simp, seg_append.mpr ⟨hl.relinkEnd hdl (fun y hy ↦ ?_)
    (fun y hy ↦ ?_), hxp, hxn, hr.relinkStart hdr (fun y hy ↦ ?_) (fun y hy ↦ ?_)⟩, ?_, ?_⟩
  · exact hn y (by simp [hy])
  · rw [hp y (by simp [hy]), if_neg]
    rintro rfl
    cases r with
    | nil => exact hnull.1 hy
    | cons z r => exact hdisj _ hy (by simp)
  · rw [hn y (by simp [hy]), if_neg]
    rintro rfl
    rcases List.eq_nil_or_concat' l with rfl | ⟨l, z, rfl⟩
    · exact hnull.2 hy
    · exact hdisj _ (by simp) hy
  · exact hp y (by simp [hy])
  · refine List.nodup_append.mpr ⟨hdl, List.nodup_cons.mpr ⟨hx.2, hdr⟩, fun y hy z hz hyz ↦ ?_⟩
    subst hyz
    rcases List.mem_cons.mp hz with rfl | hz
    · exact hx.1 hy
    · exact hdisj _ hy hz
  · simp [hnull, hx0.symm]

end DList
end CsoLabs.Foundation
