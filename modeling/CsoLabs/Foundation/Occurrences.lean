import Mathlib.Tactic

namespace CsoLabs.Foundation.Occurrences

variable {α : Type*}

def OccursAt (pat doc : List α) (i : ℕ) : Prop := pat <+: doc.drop i

theorem OccursAt.length_le {pat doc : List α} {i : ℕ} (h : OccursAt pat doc i)
    (hp : pat ≠ []) : i + pat.length ≤ doc.length := by
  have hl := List.IsPrefix.length_le h
  have hpos := List.length_pos_iff.mpr hp
  rw [List.length_drop] at hl
  omega

theorem occursAt_suffix {pat doc : List α} (h : pat <:+ doc) :
    OccursAt pat doc (doc.length - pat.length) := by
  rw [OccursAt, ← List.suffix_iff_eq_drop.mp h]

theorem suffix_of_occursAt {pat doc : List α} {i : ℕ} (h : OccursAt pat doc i)
    (hi : i + pat.length = doc.length) : pat <:+ doc := by
  have hd := List.IsPrefix.eq_of_length h (by rw [List.length_drop]; omega)
  rw [hd]
  exact List.drop_suffix i doc

variable [DecidableEq α]

instance (pat doc : List α) : DecidablePred (OccursAt pat doc) :=
  fun _ ↦ inferInstanceAs (Decidable (_ <+: _))

def occurrences (pat doc : List α) : List ℕ :=
  (List.range doc.length).filter (fun i ↦ OccursAt pat doc i)

def first : List ℕ → ℤ
  | [] => -1
  | i :: _ => i

def record (r : ℤ × ℤ) (i : ℕ) : ℤ × ℤ := (r.1 + 1, if r.2 = -1 then (i : ℤ) else r.2)

theorem mem_occurrences {pat doc : List α} (hp : pat ≠ []) {i : ℕ} :
    i ∈ occurrences pat doc ↔ OccursAt pat doc i := by
  simp only [occurrences, List.mem_filter, List.mem_range, decide_eq_true_eq]
  constructor
  · exact fun h ↦ h.2
  · intro h
    have hl := h.length_le hp
    have hpos := List.length_pos_iff.mpr hp
    exact ⟨by omega, h⟩

theorem occurrences_sorted (pat doc : List α) : (occurrences pat doc).Pairwise (· < ·) :=
  List.pairwise_lt_range.sublist List.filter_sublist

theorem length_occurrences (pat doc : List α) :
    (occurrences pat doc).length = ((Finset.range doc.length).filter (OccursAt pat doc)).card := by
  rfl

theorem first_occurrences {pat doc : List α} (hp : pat ≠ []) :
    (first (occurrences pat doc) = -1 ∧ ∀ i, ¬ OccursAt pat doc i) ∨
      ∃ i : ℕ, first (occurrences pat doc) = i ∧ OccursAt pat doc i ∧
        ∀ j, OccursAt pat doc j → i ≤ j := by
  have hs := occurrences_sorted pat doc
  have hm := @mem_occurrences _ _ pat doc hp
  cases ho : occurrences pat doc with
  | nil => exact Or.inl ⟨rfl, fun i hi ↦ by simpa [ho] using hm.mpr hi⟩
  | cons i l =>
    rw [ho] at hs hm
    refine Or.inr ⟨i, rfl, hm.mp List.mem_cons_self, fun j hj ↦ ?_⟩
    rcases List.mem_cons.mp (hm.mpr hj) with rfl | hj
    · exact le_rfl
    · exact (List.rel_of_pairwise_cons hs hj).le

theorem foldl_record (l : List ℕ) (count : ℤ) (f : ℤ) :
    l.foldl record (count, f) = (count + l.length, if f = -1 then first l else f) := by
  induction l generalizing count f with
  | nil => by_cases hf : f = -1 <;> simp [first, hf]
  | cons i l ih =>
    rw [List.foldl_cons, record, ih]
    have hi : (i : ℤ) ≠ -1 := by omega
    refine Prod.ext (by push_cast [List.length_cons]; ring) ?_
    by_cases hf : f = -1 <;> simp [first, hf, hi]

theorem filter_range_congr {p : ℕ → Bool} {n k : ℕ} (hn : ∀ i, p i → i < n)
    (hk : ∀ i, p i → i < k) : (List.range n).filter p = (List.range k).filter p := by
  wlog hle : n ≤ k generalizing n k
  · exact (this hk hn (by omega)).symm
  obtain ⟨d, rfl⟩ := Nat.exists_eq_add_of_le hle
  rw [List.range_add, List.filter_append]
  refine (List.append_right_eq_self.mpr (List.filter_eq_nil_iff.mpr ?_)).symm
  intro i hi
  obtain ⟨j, _, rfl⟩ := List.mem_map.mp hi
  intro hp
  have := hn _ hp
  omega

/-- A scan may stop anywhere past the last occurrence. -/
theorem occurrences_eq_range {pat doc : List α} (hp : pat ≠ []) {n : ℕ}
    (hn : ∀ i, OccursAt pat doc i → i < n) :
    occurrences pat doc = (List.range n).filter (fun i ↦ OccursAt pat doc i) := by
  have hpos := List.length_pos_iff.mpr hp
  refine filter_range_congr (fun i hi ↦ ?_) (fun i hi ↦ hn i (by simpa using hi))
  have := OccursAt.length_le (by simpa using hi) hp
  omega

theorem occurrences_eq_nil {pat doc : List α} (hl : doc.length < pat.length) :
    occurrences pat doc = [] := by
  have hp : pat ≠ [] := by rintro rfl; simp at hl
  rw [occurrences, List.filter_eq_nil_iff]
  intro i _
  simp only [decide_eq_true_eq]
  intro ho
  have := ho.length_le hp
  omega

end CsoLabs.Foundation.Occurrences
