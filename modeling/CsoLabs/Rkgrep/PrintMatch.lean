import CsoLabs.Foundation.CInt
import CsoLabs.Foundation.CString
import CsoLabs.Foundation.Occurrences

namespace CsoLabs.Rkgrep

open Foundation CInt Occurrences

def REDCOLOR : List Int8 := [0x1B, 91, 51, 49, 109]
def NORMALCOLOR : List Int8 := [0x1B, 91, 48, 109]
def newline : Int8 := 10

def startSentence (doc : CString) : ℕ → Option ℕ
  | 0 => some 0
  | start + 1 => do
    let c ← doc.read start
    if c ≠ newline then startSentence doc start else some (start + 1)

def printFrom (doc : CString) : ℕ → ℕ → Option (List Int8)
  | 0, _ => some []
  | n + 1, j => do
    let c ← doc.read j
    let out ← printFrom doc n (j + 1)
    return c :: out

/-- The loop that prints the match, over the chars of the document from `pos` and of the pattern,
their NULs included. Returns `i` and the output. -/
def printPattern (pos : ℤ) : List Int8 → List Int8 → ℤ → Option (ℤ × List Int8)
  | c :: doc, p :: pattern, i => do
    let _ ← int (i + pos)
    if c = p then
      let i ← int (i + 1)
      let (i, out) ← printPattern pos doc pattern i
      return (i, c :: out)
    else return (i, [])
  | _, _, _ => none

def printRest (pos : ℤ) : List Int8 → ℤ → Option (List Int8)
  | c :: doc, i => do
    let _ ← int (i + pos)
    if c ≠ newline ∧ c ≠ 0 then
      let i ← int (i + 1)
      let out ← printRest pos doc i
      return c :: out
    else return []
  | [], _ => none

def printMatchedSentence (pos : ℤ) (pattern doc : CString) : Option (List Int8) :=
  if pos < 0 then some [] else do
    let start ← startSentence doc pos.toNat
    let sentence ← printFrom doc (pos.toNat - start) start
    let (i, found) ← printPattern pos ((doc.chars ++ [0]).drop pos.toNat) (pattern.chars ++ [0]) 0
    let rest ← printRest pos ((doc.chars ++ [0]).drop (i + pos).toNat) i
    return sentence ++ REDCOLOR ++ found ++ NORMALCOLOR ++ rest ++ [newline]

structure LineStart (doc : List Int8) (pos s : ℕ) : Prop where
  le : s ≤ pos
  start : s = 0 ∨ doc[s - 1]? = some newline
  inside : ∀ k, s ≤ k → k < pos → doc[k]? ≠ some newline

/-- The first newline or the end of the document from `stop` on is at `e`. -/
structure LineEnd (doc : List Int8) (stop e : ℕ) : Prop where
  le : stop ≤ e
  ending : e = doc.length ∨ doc[e]? = some newline
  inside : ∀ k, stop ≤ k → k < e → doc[k]? ≠ some newline

def slice (doc : List Int8) (s e : ℕ) : List Int8 := (doc.drop s).take (e - s)

def PrintsLine (pos : ℕ) (pattern doc : CString) : Prop :=
  ∃ s e, LineStart doc.chars pos s ∧ LineEnd doc.chars (pos + pattern.chars.length) e ∧
    printMatchedSentence pos pattern doc = some (slice doc.chars s pos ++ REDCOLOR ++
      pattern.chars ++ NORMALCOLOR ++ slice doc.chars (pos + pattern.chars.length) e ++ [newline])

variable {doc : CString} {pos : ℕ} {s e : ℕ}

theorem startSentence_spec (h : pos ≤ doc.chars.length) :
    ∃ s, startSentence doc pos = some s ∧ LineStart doc.chars pos s := by
  induction pos with
  | zero => exact ⟨0, rfl, le_rfl, Or.inl rfl, fun k _ hk ↦ by omega⟩
  | succ n ih =>
    obtain ⟨s, hs, hstart⟩ := ih (by omega)
    have hread := CString.read_lt (s := doc) (i := n) (by omega)
    have hget : doc.chars[n]? = some doc.chars[n] := List.getElem?_eq_getElem (by omega)
    rw [startSentence]
    simp only [hread, Option.bind_eq_bind, Option.bind_some]
    by_cases hn : doc.chars[n] = newline
    · refine ⟨n + 1, by simp [hn], le_rfl, Or.inr ?_, fun k hk hk' ↦ by omega⟩
      rw [Nat.add_sub_cancel, hget, hn]
    · refine ⟨s, by simp [hn, hs], hstart.le.trans n.le_succ, hstart.start, fun k hk hk' ↦ ?_⟩
      rcases Nat.lt_or_eq_of_le (Nat.le_of_lt_succ hk') with hlt | rfl
      · exact hstart.inside k hk hlt
      · rw [hget]
        exact fun h ↦ hn (Option.some.inj h)

theorem printFrom_spec {n j : ℕ} (h : j + n ≤ doc.chars.length) :
    printFrom doc n j = some ((doc.chars.drop j).take n) := by
  induction n generalizing j with
  | zero => rfl
  | succ n ih =>
    have hj : j < doc.chars.length := by omega
    have hdrop := List.drop_eq_getElem_cons hj
    rw [printFrom, CString.read_lt hj, ih (by omega), hdrop]
    rfl

theorem printPattern_cons {c : Int8} {d p : List Int8} {i pos : ℕ} (h : i + pos + 1 < 2147483648) :
    printPattern pos (c :: d) (c :: p) i =
      (printPattern pos d p (i + 1 : ℕ)).map fun r ↦ (r.1, c :: r.2) := by
  rw [printPattern, if_pos rfl, int_of_bounds (by omega) (by omega),
    int_of_bounds (by omega) (by omega), Option.map_eq_bind]
  rfl

theorem printPattern_append {w d p : List Int8} {i pos : ℕ} (h : i + pos + w.length < 2147483648) :
    printPattern pos (w ++ d) (w ++ p) i =
      (printPattern pos d p (i + w.length : ℕ)).map fun r ↦ (r.1, w ++ r.2) := by
  induction w generalizing i with
  | nil => simp
  | cons c w ih =>
    rw [List.length_cons] at h ⊢
    have hi : i + 1 + w.length = i + (w.length + 1) := by omega
    rw [List.cons_append, List.cons_append, printPattern_cons (by omega), ih (by omega),
      Option.map_map, hi]
    rfl

theorem printPattern_overflow {w d p : List Int8} {i pos : ℕ}
    (h : 2147483648 ≤ i + pos + w.length) : printPattern pos (w ++ d) (w ++ p) i = none := by
  induction w generalizing i with
  | nil =>
    rw [List.length_nil] at h
    have hread : int ((i : ℤ) + pos) = none := int_eq_none (by omega)
    cases d <;> cases p <;> simp [printPattern, hread]
  | cons c w ih =>
    rw [List.length_cons] at h
    have hrec := ih (i := i + 1) (by omega)
    push_cast at hrec
    rw [List.cons_append, List.cons_append, printPattern, if_pos rfl]
    cases int ((i : ℤ) + pos) with
    | none => rfl
    | some _ =>
      cases hnext : int ((i : ℤ) + 1) with
      | none => rfl
      | some j =>
        obtain ⟨-, rfl⟩ := checked_eq_some.mp hnext
        simp [hrec]

theorem printPattern_stop {c : Int8} {d p : List Int8} {i pos : ℕ} (hc : c ≠ 0)
    (h : i + pos < 2147483648) : printPattern pos (c :: d) (0 :: p) i = some ((i : ℤ), []) := by
  rw [printPattern, if_neg hc, int_of_bounds (by omega) (by omega)]
  rfl

theorem printPattern_match (pos : ℕ) (w d : List Int8) {b : Int8} (hb : b ≠ 0) :
    printPattern pos (w ++ b :: d) (w ++ [0]) (0 : ℕ) =
      if pos + w.length < 2147483648 then some ((w.length : ℤ), w) else none := by
  split_ifs with hfit
  · rw [printPattern_append (by omega), Nat.zero_add, printPattern_stop hb (by omega),
      Option.map_some, List.append_nil]
  · exact printPattern_overflow (by omega)

theorem printPattern_nul (pos : ℕ) (w : List Int8) :
    printPattern pos (w ++ [0]) (w ++ [0]) (0 : ℕ) = none := by
  by_cases hfit : 0 + pos + w.length < 2147483648
  · rw [printPattern_append hfit, printPattern, if_pos rfl]
    cases int (((0 + w.length : ℕ) : ℤ) + pos) with
    | none => rfl
    | some _ => cases int (((0 + w.length : ℕ) : ℤ) + 1) <;> rfl
  · exact printPattern_overflow (by omega)

theorem printRest_eq {w d : List Int8} {c : Int8} (i pos : ℕ)
    (hw : ∀ b ∈ w, b ≠ newline ∧ b ≠ 0) (hc : c = newline ∨ c = 0) : printRest pos (w ++ c :: d) i =
      if i + pos + w.length < 2147483648 then some w else none := by
  induction w generalizing i with
  | nil =>
    have hstop : ¬(c ≠ newline ∧ c ≠ 0) := fun ⟨hnl, h0⟩ ↦ hc.elim hnl h0
    rw [List.nil_append, printRest, if_neg hstop, List.length_nil, Nat.add_zero]
    by_cases h : i + pos < 2147483648
    · rw [int_of_bounds (by omega) (by omega), if_pos h]
      rfl
    · rw [int_eq_none (by omega), if_neg h]
      rfl
  | cons b w ih =>
    have hrec := ih (i := i + 1) fun b hb ↦ hw b (by simp [hb])
    push_cast at hrec
    rw [List.cons_append, printRest, if_pos (hw b (by simp)), List.length_cons]
    by_cases h : i + pos + (w.length + 1) < 2147483648
    · rw [int_of_bounds (by omega) (by omega), int_of_bounds (by omega) (by omega)]
      simp [hrec, show i + 1 + pos + w.length < 2147483648 by omega, h]
    · rw [if_neg h]
      rw [if_neg (by omega)] at hrec
      cases int ((i : ℤ) + pos) with
      | none => rfl
      | some _ =>
        cases hnext : int ((i : ℤ) + 1) with
        | none => rfl
        | some j =>
          obtain ⟨-, rfl⟩ := checked_eq_some.mp hnext
          simp [hrec]

theorem exists_lineEnd {back : List Int8} (hback : ∀ c ∈ back, c ≠ 0) : ∃ w c d,
    back ++ [0] = w ++ c :: d ∧ (∀ b ∈ w, b ≠ newline ∧ b ≠ 0) ∧ (c = newline ∨ c = 0) := by
  induction back with
  | nil => exact ⟨[], 0, [], rfl, by simp, Or.inr rfl⟩
  | cons b back ih =>
    by_cases hb : b = newline
    · exact ⟨[], b, back ++ [0], rfl, by simp, Or.inl hb⟩
    · obtain ⟨w, c, d, hsplit, hw, hc⟩ := ih fun c hc ↦ hback c (by simp [hc])
      refine ⟨b :: w, c, d, by simp [hsplit], fun a ha ↦ ?_, hc⟩
      rcases List.mem_cons.mp ha with rfl | ha
      · exact ⟨hb, hback _ (by simp)⟩
      · exact hw a ha

theorem lineEnd_of_split {u w d : List Int8} {c : Int8}
    (h : doc.chars ++ [0] = u ++ (w ++ c :: d)) (hw : ∀ b ∈ w, b ≠ newline ∧ b ≠ 0)
    (hc : c = newline ∨ c = 0) : LineEnd doc.chars u.length (u.length + w.length) := by
  have hlen := congrArg List.length h
  simp only [List.length_append, List.length_cons, List.length_nil] at hlen
  have hget : ∀ k, k < doc.chars.length → doc.chars[k]? = (u ++ (w ++ c :: d))[k]? := fun k hk ↦ by
    rw [← h, List.getElem?_append_left hk]
  refine ⟨Nat.le_add_right .., ?_, fun k hk hk' hnl ↦ ?_⟩
  · rcases Nat.lt_or_ge (u.length + w.length) doc.chars.length with hlt | hge
    · have hat : doc.chars[u.length + w.length]? = some c := by simp [hget _ hlt]
      rcases hc with rfl | rfl
      · exact Or.inr hat
      · exact absurd rfl (doc.nonNul 0 (List.mem_of_getElem? hat))
    · exact Or.inl (by omega)
  · rw [hget k (by omega), List.getElem?_append_right hk,
      List.getElem?_append_left (by omega)] at hnl
    exact (hw newline (List.mem_of_getElem? hnl)).1 rfl

theorem LineEnd.le_of_ending {doc : List Int8} {stop e e' : ℕ} (h : LineEnd doc stop e)
    (hle : stop ≤ e') (he : e' = doc.length ∨ doc[e']? = some newline) : e ≤ e' := by
  by_contra hlt
  rcases he with rfl | he
  · rcases h.ending with rfl | hnl
    · exact hlt le_rfl
    · have := (List.getElem?_eq_some_iff.mp hnl).1
      omega
  · exact h.inside e' hle (by omega) he

theorem printMatchedSentence_eq {pattern : CString} {back w d : List Int8} {c : Int8}
    (hpos : pos ≤ doc.chars.length) (hdrop : doc.chars.drop pos = pattern.chars ++ back)
    (hne : back ≠ []) (hsplit : back ++ [0] = w ++ c :: d)
    (hw : ∀ b ∈ w, b ≠ newline ∧ b ≠ 0) (hc : c = newline ∨ c = 0) {s : ℕ}
    (hs : startSentence doc pos = some s) (hle : s ≤ pos) :
    printMatchedSentence pos pattern doc =
      if pos + pattern.chars.length + w.length < 2147483648 then
        some (slice doc.chars s pos ++ REDCOLOR ++ pattern.chars ++ NORMALCOLOR ++ w ++ [newline])
      else none := by
  obtain ⟨b, back', rfl⟩ := List.exists_cons_of_ne_nil hne
  have hb : b ≠ 0 := by
    refine doc.nonNul b (List.mem_of_mem_drop (i := pos) ?_)
    rw [hdrop]
    simp
  have hahead : (doc.chars ++ [0]).drop pos = pattern.chars ++ (b :: back' ++ [0]) := by
    rw [List.drop_append_of_le_length hpos, hdrop, List.append_assoc]
  have hbehind : (doc.chars ++ [0]).drop (pos + pattern.chars.length) = b :: back' ++ [0] := by
    rw [← List.drop_drop, hahead, List.drop_left]
  have hprint : printFrom doc (pos - s) s = some (slice doc.chars s pos) :=
    printFrom_spec (by omega)
  have hfound := printPattern_match pos pattern.chars (back' ++ [0]) hb
  have hrest := printRest_eq (d := d) pattern.chars.length pos hw hc
  have hi : ((pattern.chars.length : ℤ) + pos).toNat = pos + pattern.chars.length := by omega
  have hcomm : pattern.chars.length + pos = pos + pattern.chars.length := Nat.add_comm ..
  rw [printMatchedSentence, if_neg (by omega)]
  simp only [Int.toNat_natCast, hs, Option.bind_eq_bind, Option.bind_some, hprint, hahead]
  rw [List.cons_append] at hbehind hsplit ⊢
  rw [Nat.cast_zero] at hfound
  rw [hfound]
  by_cases hfit : pos + pattern.chars.length < 2147483648
  · rw [if_pos hfit, Option.bind_some]
    simp only [hi, hbehind, hsplit, hrest, hcomm]
    split_ifs with hend <;> rfl
  · rw [if_neg hfit, if_neg (by omega)]
    rfl

theorem printMatchedSentence_end {pattern : CString} (hpos : pos ≤ doc.chars.length)
    (hdrop : doc.chars.drop pos = pattern.chars) : printMatchedSentence pos pattern doc = none := by
  obtain ⟨s, hs, hstart⟩ := startSentence_spec hpos
  have hprint : printFrom doc (pos - s) s = some (slice doc.chars s pos) :=
    printFrom_spec (by have := hstart.le; omega)
  have hnul := printPattern_nul pos pattern.chars
  rw [Nat.cast_zero] at hnul
  rw [printMatchedSentence, if_neg (by omega)]
  simp only [Int.toNat_natCast, hs, Option.bind_eq_bind, Option.bind_some, hprint,
    List.drop_append_of_le_length hpos, hdrop, hnul, Option.bind_none]

theorem printMatchedSentence_line {pattern : CString}
    (hocc : OccursAt pattern.chars doc.chars pos)
    (hlt : pos + pattern.chars.length < doc.chars.length) :
    ∃ s e, LineStart doc.chars pos s ∧ LineEnd doc.chars (pos + pattern.chars.length) e ∧
      printMatchedSentence pos pattern doc =
        if e < 2147483648 then
          some (slice doc.chars s pos ++ REDCOLOR ++ pattern.chars ++ NORMALCOLOR ++
            slice doc.chars (pos + pattern.chars.length) e ++ [newline])
        else none := by
  obtain ⟨back, hback⟩ := hocc
  have hpos : pos ≤ doc.chars.length := by omega
  have hdrop : doc.chars.drop (pos + pattern.chars.length) = back := by
    rw [← List.drop_drop, ← hback, List.drop_left]
  have hne : back ≠ [] := by
    rw [← hdrop, ne_eq, List.drop_eq_nil_iff]
    omega
  have hback' : ∀ c ∈ back, c ≠ 0 := fun c hc ↦
    doc.nonNul c (List.mem_of_mem_drop (hdrop ▸ hc))
  obtain ⟨s, hs, hstart⟩ := startSentence_spec hpos
  obtain ⟨w, c, d, hsplit, hw, hc⟩ := exists_lineEnd hback'
  have hdoc : doc.chars ++ [0] =
      doc.chars.take (pos + pattern.chars.length) ++ (w ++ c :: d) := by
    rw [← hsplit, ← List.append_assoc, ← hdrop, List.take_append_drop]
  have hend := lineEnd_of_split hdoc hw hc
  rw [List.length_take_of_le hlt.le] at hend
  have hslice : slice doc.chars (pos + pattern.chars.length)
      (pos + pattern.chars.length + w.length) = w := by
    have hwlen := congrArg List.length hsplit
    simp only [List.length_append, List.length_cons, List.length_nil] at hwlen
    have htake : (back ++ [0]).take w.length = back.take w.length :=
      List.take_append_of_le_length (by omega)
    rw [slice, hdrop, Nat.add_sub_cancel_left, ← htake, hsplit, List.take_left]
  refine ⟨s, _, hstart, hend, ?_⟩
  rw [hslice]
  exact printMatchedSentence_eq hpos hback.symm hne hsplit hw hc hs hstart.le

/-- The line is printed unless the match ends the document, where the loop over the match runs past
both NULs, or the line ends behind the largest `int`. -/
theorem printsLine_iff {pattern doc : CString} {pos : ℕ} (hp : pattern.chars ≠ [])
    (hocc : OccursAt pattern.chars doc.chars pos) :
    PrintsLine pos pattern doc ↔ pos + pattern.chars.length < doc.chars.length ∧
      ∃ e, pos + pattern.chars.length ≤ e ∧ e < 2147483648 ∧
        (e = doc.chars.length ∨ doc.chars[e]? = some newline) := by
  have hlen := hocc.length_le hp
  by_cases hlt : pos + pattern.chars.length < doc.chars.length
  · obtain ⟨s, e, hstart, hend, hout⟩ := printMatchedSentence_line hocc hlt
    constructor
    · rintro ⟨s', e', -, -, hout'⟩
      refine ⟨hlt, e, hend.le, ?_, hend.ending⟩
      by_contra hfit
      rw [hout, if_neg hfit] at hout'
      cases hout'
    · rintro ⟨-, e', hle, hfit, he'⟩
      have hleast := hend.le_of_ending hle he'
      refine ⟨s, e, hstart, hend, ?_⟩
      rw [hout, if_pos (by omega)]
  · have hdrop : doc.chars.drop pos = pattern.chars := by
      refine (hocc.eq_of_length ?_).symm
      rw [List.length_drop]
      omega
    refine iff_of_false ?_ fun h ↦ hlt h.1
    rintro ⟨s, e, -, -, hout⟩
    rw [printMatchedSentence_end (by omega) hdrop] at hout
    cases hout

theorem printsLine_iff_strA : strA.chars ≠ [] ∧ OccursAt strA.chars (manyA 2).chars 0 ∧
    (PrintsLine 0 strA (manyA 2) ↔ 0 + strA.chars.length < (manyA 2).chars.length ∧
      ∃ e, 0 + strA.chars.length ≤ e ∧ e < 2147483648 ∧
        (e = (manyA 2).chars.length ∨ (manyA 2).chars[e]? = some newline)) :=
  ⟨by decide, by decide, printsLine_iff (by decide) (by decide)⟩

theorem match_at_end_reads_past_nul : ¬∀ (pos : ℕ) (pattern doc : CString), pattern.chars ≠ [] →
    OccursAt pattern.chars doc.chars pos → PrintsLine pos pattern doc := by
  intro h
  obtain ⟨s, e, -, -, hout⟩ := h 0 strA strA (by decide) (by decide)
  have hnone : printMatchedSentence (0 : ℕ) strA strA = none := rfl
  rw [hnone] at hout
  cases hout

end CsoLabs.Rkgrep
