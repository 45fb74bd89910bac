import Mathlib.Data.List.TakeWhile
import Mathlib.Tactic

namespace CsoLabs.Foundation.Fields

variable {α : Type*} [DecidableEq α]

/-- The maximal runs without the delimiter, apart from the empty ones. -/
def fields (d : α) (s : List α) : List (List α) := (s.splitOnP (· = d)).filter (· ≠ [])

def word (d : α) (s : List α) : List α := s.takeWhile (· ≠ d)
def after (d : α) (s : List α) : List α := s.dropWhile (· ≠ d)
def gap (d : α) (s : List α) : List α := (after d s).takeWhile (· = d)
def rest (d : α) (s : List α) : List α := (after d s).dropWhile (· = d)

variable {d c : α} {s w : List α}

@[simp]
theorem fields_nil : fields d [] = [] := rfl

@[simp]
theorem fields_delim : fields d (d :: s) = fields d s := by
  simp [fields, List.splitOnP_cons_eq_if_modifyHead]

theorem word_append_after : word d s ++ after d s = s := List.takeWhile_append_dropWhile

theorem gap_append_rest : gap d s ++ rest d s = after d s := List.takeWhile_append_dropWhile

theorem ne_of_mem_word (h : c ∈ word d s) : c ≠ d := by
  simpa using List.mem_takeWhile_imp h

theorem eq_of_mem_gap (h : c ∈ gap d s) : c = d := by
  simpa using List.mem_takeWhile_imp h

theorem after_head (h : after d s = c :: w) : c = d := by
  have hhead := List.head?_dropWhile_not (fun c ↦ decide (c ≠ d)) s
  rw [show s.dropWhile (fun c ↦ decide (c ≠ d)) = c :: w from h] at hhead
  simpa using hhead

theorem rest_head (h : rest d s = c :: w) : c ≠ d := by
  have hhead := List.head?_dropWhile_not (fun c ↦ decide (c = d)) (after d s)
  rw [show (after d s).dropWhile (fun c ↦ decide (c = d)) = c :: w from h] at hhead
  simpa using hhead

theorem word_ne_nil (h : c ≠ d) : word d (c :: s) ≠ [] := by
  simp [word, h]

theorem length_rest_lt (h : rest d s ≠ []) : (rest d s).length < s.length := by
  have hlen := congrArg List.length (word_append_after (d := d) (s := s))
  have hlen' := congrArg List.length (gap_append_rest (d := d) (s := s))
  rw [List.length_append] at hlen hlen'
  cases hafter : after d s with
  | nil => exact absurd (by rw [rest, hafter]; rfl) h
  | cons c w =>
    have hgap : gap d s = c :: w.takeWhile (· = d) := by
      simp [gap, hafter, after_head hafter]
    rw [hgap, List.length_cons] at hlen'
    omega

theorem fields_word (hw : w ≠ []) (hd : ∀ c ∈ w, c ≠ d) (hs : ∀ c s', s = c :: s' → c = d) :
    fields d (w ++ s) = w :: fields d s := by
  have hp : ∀ c ∈ w, decide (c = d) = false := fun c hc ↦ decide_eq_false (hd c hc)
  cases s with
  | nil => simp [fields, List.splitOnP_eq_singleton hp, hw]
  | cons c s =>
    obtain rfl := hs c s rfl
    rw [fields_delim, fields, List.splitOnP_append_cons_of_forall_mem hp c (by simp)]
    simp [fields, hw]

theorem fields_gap (hw : ∀ c ∈ w, c = d) : fields d (w ++ s) = fields d s := by
  induction w with
  | nil => rfl
  | cons c w ih =>
    obtain rfl := hw c (by simp)
    rw [List.cons_append, fields_delim, ih fun c hc ↦ hw c (by simp [hc])]

theorem fields_after : fields d (after d s) = fields d (rest d s) := by
  rw [← gap_append_rest]
  exact fields_gap fun c hc ↦ eq_of_mem_gap hc

/-- The first field is the word in front, unless that is empty. -/
theorem fields_eq (h : word d s ≠ []) : fields d s = word d s :: fields d (rest d s) := by
  conv_lhs => rw [← word_append_after (d := d) (s := s)]
  rw [fields_word h (fun c hc ↦ ne_of_mem_word hc) fun c s' hs ↦ after_head hs, fields_after]

theorem fields_eq_of_word_eq_nil (h : word d s = []) : fields d s = fields d (rest d s) := by
  have happ := word_append_after (d := d) (s := s)
  rw [h, List.nil_append] at happ
  rw [← fields_after, happ]

theorem fields_flatten (d : α) (s : List α) : (fields d s).flatten = s.filter (· ≠ d) := by
  have hsplit : (s.splitOnP (· = d)).flatten = s.filter (· ≠ d) := by
    induction s with
    | nil => rfl
    | cons c s ih =>
      rw [List.splitOnP_cons_eq_if_modifyHead]
      by_cases hc : c = d
      · simpa [hc] using ih
      · obtain ⟨x, xs, hxs⟩ := List.exists_cons_of_ne_nil (List.splitOnP_ne_nil (· = d) s)
        rw [hxs] at ih ⊢
        simp only [hc, decide_false, Bool.false_eq_true, if_false, List.modifyHead_cons,
          List.flatten_cons, List.cons_append]
        rw [← List.flatten_cons, ih]
        simp [hc]
  rw [fields, List.flatten_filter_ne_nil, hsplit]

end CsoLabs.Foundation.Fields
