import CsoLabs.StringToken.Model

namespace CsoLabs.StringToken

open Foundation Fields

variable {d : Int8} {pre s tail : List Int8} {p : ℕ} {str saveptr : Option ℕ}

/-- The string after the delimiters behind its first word have been overwritten. -/
def cut (d : Int8) (s : List Int8) : List Int8 := word d s ++ List.replicate (gap d s).length 0

theorem skipToken_spec (hs : ∀ c ∈ s, c ≠ 0) (p : ℕ) :
    skipToken d (s ++ 0 :: tail) p =
      some (p + (word d s).length, decide (after d s = [] ∧ d ≠ 0)) := by
  induction s generalizing p with
  | nil =>
    by_cases hd : d = 0
    · simp [skipToken, word, after, hd]
    · simp [skipToken, word, after, hd, Ne.symm hd]
  | cons c s ih =>
    have hc := hs c (by simp)
    rw [List.cons_append, skipToken]
    by_cases hcd : c = d
    · simp [word, after, hcd]
    · have hword : word d (c :: s) = c :: word d s := by simp [word, hcd]
      have hafter : after d (c :: s) = after d s := by simp [after, hcd]
      rw [if_pos hcd, if_neg hc, ih (fun e he ↦ hs e (by simp [he])), hword, hafter,
        List.length_cons]
      congr 2
      omega

theorem clearDelims_spec (pre : List Int8) (hs : ∀ c ∈ s, c ≠ 0) :
    clearDelims d (s ++ 0 :: tail) pre.length (pre ++ s ++ 0 :: tail) =
      some (pre.length + (s.takeWhile (· = d)).length,
        decide (d = 0 ∧ s.dropWhile (· = d) = []),
        pre ++ List.replicate (s.takeWhile (· = d)).length 0 ++ s.dropWhile (· = d) ++
          0 :: tail) := by
  induction s generalizing pre with
  | nil =>
    by_cases hd : d = 0
    · simp [clearDelims, hd]
    · simp [clearDelims, hd, Ne.symm hd]
  | cons c s ih =>
    have hc := hs c (by simp)
    rw [List.cons_append, clearDelims]
    by_cases hcd : c = d
    · have hset : (pre ++ c :: s ++ 0 :: tail).set pre.length 0 =
          (pre ++ [0]) ++ s ++ 0 :: tail := by
        simp
      have hrec := ih (pre ++ [0]) fun e he ↦ hs e (by simp [he])
      rw [List.length_append, List.length_singleton] at hrec
      rw [if_pos hcd, if_neg hc, hset, hrec]
      simp only [hcd, decide_true, List.takeWhile_cons_of_pos, List.dropWhile_cons_of_pos,
        List.length_cons, List.replicate_succ, List.append_assoc, List.singleton_append]
      congr 2
      omega
    · simp [hcd]

/-- One call: the word at the pointer is cut off, and the pointer moves on to the rest. -/
theorem stringToken_spec (hs : ∀ c ∈ s, c ≠ 0) (hptr : str.or saveptr = some pre.length) :
    stringToken (pre ++ s ++ 0 :: tail) str d saveptr =
      some (some pre.length, pre ++ cut d s ++ rest d s ++ 0 :: tail,
        if rest d s = [] then none else some (pre.length + (cut d s).length)) := by
  have hdrop : (pre ++ s ++ 0 :: tail).drop pre.length = s ++ 0 :: tail := by simp
  have hafter : ∀ c ∈ after d s, c ≠ 0 := fun c hc ↦ hs c ((List.dropWhile_suffix _).subset hc)
  rw [stringToken, hptr]
  simp only [hdrop, skipToken_spec hs, Option.bind_eq_bind, Option.bind_some]
  by_cases hdone : after d s = [] ∧ d ≠ 0
  · have hgap : gap d s = [] := by rw [gap, hdone.1]; rfl
    have hrest : rest d s = [] := by rw [rest, hdone.1]; rfl
    have hcut : cut d s = s := by
      have hword := word_append_after (d := d) (s := s)
      rw [hdone.1, List.append_nil] at hword
      simp [cut, hgap, hword]
    simp [hdone, hrest, hcut]
  · have hbuf : pre ++ s ++ 0 :: tail = (pre ++ word d s) ++ after d s ++ 0 :: tail := by
      rw [List.append_assoc pre (word d s), word_append_after]
    have hlen : pre.length + (word d s).length = (pre ++ word d s).length := by simp
    have hdrop' : ((pre ++ word d s) ++ after d s ++ 0 :: tail).drop (pre ++ word d s).length =
        after d s ++ 0 :: tail := by
      rw [List.append_assoc _ (after d s), List.drop_left]
    have hcut : pre.length + (cut d s).length = (pre ++ word d s).length + (gap d s).length := by
      simp [cut, Nat.add_assoc]
    have hclear : clearDelims d (after d s ++ 0 :: tail) (pre ++ word d s).length
        ((pre ++ word d s) ++ after d s ++ 0 :: tail) =
          some (pre.length + (cut d s).length, decide (d = 0 ∧ rest d s = []),
            pre ++ cut d s ++ rest d s ++ 0 :: tail) := by
      rw [clearDelims_spec _ hafter, hcut, cut, List.append_assoc pre]
      rfl
    have hread : (pre ++ cut d s ++ rest d s ++ 0 :: tail)[pre.length + (cut d s).length]? =
        (rest d s ++ 0 :: tail)[0]? := by
      rw [← List.length_append, List.append_assoc _ (rest d s), List.getElem?_append_right le_rfl,
        Nat.sub_self]
    rw [decide_eq_false hdone, hbuf, hlen, hdrop', hclear]
    simp only [Bool.false_eq_true, if_false, Option.bind_some, hread]
    cases hrest : rest d s with
    | nil => by_cases hd : d = 0 <;> simp [hd]
    | cons c r =>
      have hc : c ≠ 0 := hafter c ((List.dropWhile_suffix _).subset (hrest ▸ List.mem_cons_self))
      simp [hc]

theorem readString_append (hs : ∀ c ∈ s, c ≠ 0) : readString (s ++ 0 :: tail) = some s := by
  induction s with
  | nil => simp [readString]
  | cons c s ih =>
    have hrec := ih fun e he ↦ hs e (by simp [he])
    simp [readString, hs c (by simp), hrec]

theorem length_cut_add (d : Int8) (s : List Int8) :
    (cut d s).length + (rest d s).length = s.length := by
  have hlen := congrArg List.length (word_append_after (d := d) (s := s))
  have hlen' := congrArg List.length (gap_append_rest (d := d) (s := s))
  rw [List.length_append] at hlen hlen'
  rw [cut, List.length_append, List.length_replicate]
  omega

theorem readString_cut (d : Int8) (pre tail : List Int8) (hs : ∀ c ∈ s, c ≠ 0) :
    readString ((pre ++ cut d s ++ rest d s ++ 0 :: tail).drop pre.length) = some (word d s) := by
  have hword : ∀ c ∈ word d s, c ≠ 0 := fun c hc ↦ hs c ((List.takeWhile_prefix _).subset hc)
  have hend : ∃ tail', List.replicate (gap d s).length 0 ++ rest d s ++ 0 :: tail = 0 :: tail' := by
    cases hgap : gap d s with
    | cons c g => exact ⟨_, rfl⟩
    | nil =>
      cases hrest : rest d s with
      | nil => exact ⟨tail, rfl⟩
      | cons c r =>
        have hafter := gap_append_rest (d := d) (s := s)
        rw [hgap, hrest, List.nil_append] at hafter
        exact absurd (after_head hafter.symm) (rest_head hrest)
  obtain ⟨tail', htail⟩ := hend
  have hdrop : (pre ++ cut d s ++ rest d s ++ 0 :: tail).drop pre.length =
      word d s ++ 0 :: tail' := by
    rw [List.append_assoc, List.append_assoc, List.drop_left, cut, List.append_assoc,
      ← List.append_assoc (List.replicate _ _), htail]
  rw [hdrop, readString_append hword]

def Changed (d c c' : Int8) : Prop := c' = c ∨ c = d ∧ c' = 0

theorem changed_refl (s : List Int8) : List.Forall₂ (Changed d) s s :=
  List.forall₂_same.mpr fun _ _ ↦ Or.inl rfl

theorem changed_gap {g : List Int8} (h : ∀ c ∈ g, c = d) :
    List.Forall₂ (Changed d) g (List.replicate g.length 0) := by
  induction g with
  | nil => exact .nil
  | cons c g ih =>
    exact .cons (Or.inr ⟨h c (by simp), rfl⟩) (ih fun e he ↦ h e (by simp [he]))

theorem changed_cut {s' : List Int8} (h : List.Forall₂ (Changed d) (rest d s) s') :
    List.Forall₂ (Changed d) s (cut d s ++ s') := by
  have hsplit : s = word d s ++ gap d s ++ rest d s := by
    rw [List.append_assoc, gap_append_rest, word_append_after]
  have hcut := List.rel_append (changed_refl (d := d) (word d s))
    (changed_gap (g := gap d s) fun c hc ↦ eq_of_mem_gap hc)
  conv_lhs => rw [hsplit]
  exact List.rel_append hcut h

structure Tokenised (d : Int8) (pre s : List Int8) (str saveptr : Option ℕ) (ts : List Token)
    (s' : List Int8) : Prop where
  returns : ∀ tail calls, s.length + 2 ≤ calls →
    tokenLoop d calls (pre ++ s ++ 0 :: tail) str saveptr = some (ts, pre ++ s' ++ 0 :: tail)
  strings : ts.map Token.string = word d s :: fields d (rest d s)
  length_le : ts.length ≤ s.length + 1
  increasing : ts.Pairwise (·.offset < ·.offset)
  bounds : ∀ t ∈ ts, pre.length ≤ t.offset ∧ t.offset ≤ pre.length + s.length
  changed : List.Forall₂ (Changed d) s s'

theorem tokenised_last (hs : ∀ c ∈ s, c ≠ 0) (hptr : str.or saveptr = some pre.length)
    (hrest : rest d s = []) :
    Tokenised d pre s str saveptr [⟨pre.length, word d s⟩] (cut d s) where
  returns tail calls hcalls := by
    obtain ⟨calls, rfl⟩ : ∃ k, calls = k + 2 := ⟨calls - 2, by omega⟩
    have hread := readString_cut d pre tail hs
    have hnull : ∀ buf, tokenLoop d (calls + 1) buf none none = some ([], buf) := fun _ ↦ rfl
    rw [tokenLoop, stringToken_spec hs hptr]
    simp only [hrest, if_true, List.append_nil] at hread ⊢
    simp only [Option.bind_eq_bind, Option.bind_some, hread, hnull]
    rfl
  strings := by simp [hrest]
  length_le := by simp
  increasing := by simp
  bounds := by simp
  changed := by
    have h : List.Forall₂ (Changed d) s (cut d s ++ []) := changed_cut (by rw [hrest]; exact .nil)
    rwa [List.append_nil] at h

theorem Tokenised.cons {ts : List Token} {s' : List Int8} (hs : ∀ c ∈ s, c ≠ 0)
    (hptr : str.or saveptr = some pre.length) (hrest : rest d s ≠ [])
    (h : Tokenised d (pre ++ cut d s) (rest d s) none (some (pre.length + (cut d s).length)) ts
      s') :
    Tokenised d pre s str saveptr (⟨pre.length, word d s⟩ :: ts) (cut d s ++ s') := by
  have hlen := length_cut_add d s
  have hlt := length_rest_lt hrest
  have hfields : word d (rest d s) :: fields d (rest d (rest d s)) = fields d (rest d s) := by
    obtain ⟨c, r, hr⟩ := List.exists_cons_of_ne_nil hrest
    exact (fields_eq (hr ▸ word_ne_nil (rest_head hr))).symm
  refine ⟨?_, ?_, ?_, ?_, ?_, changed_cut h.changed⟩
  · intro tail calls hcalls
    obtain ⟨calls, rfl⟩ : ∃ k, calls = k + 1 := ⟨calls - 1, by omega⟩
    have hread := readString_cut d pre tail hs
    have hrec := h.returns tail calls (by omega)
    rw [tokenLoop, stringToken_spec hs hptr]
    simp only [hrest, if_false, Option.bind_eq_bind, Option.bind_some, hread, hrec]
    rw [List.append_assoc pre]
    rfl
  · rw [List.map_cons, h.strings, hfields]
  · have := h.length_le
    rw [List.length_cons]
    omega
  · refine .cons (fun t ht ↦ ?_) h.increasing
    have := (h.bounds t ht).1
    rw [List.length_append] at this
    show pre.length < t.offset
    omega
  · intro t ht
    rcases List.mem_cons.mp ht with rfl | ht
    · exact ⟨le_rfl, Nat.le_add_right ..⟩
    · have := h.bounds t ht
      rw [List.length_append] at this
      omega

theorem exists_tokenised (hs : ∀ c ∈ s, c ≠ 0) (hptr : str.or saveptr = some pre.length) :
    ∃ ts s', Tokenised d pre s str saveptr ts s' := by
  induction hn : s.length using Nat.strong_induction_on generalizing s pre str saveptr with
  | _ n ih =>
    by_cases hrest : rest d s = []
    · exact ⟨_, _, tokenised_last hs hptr hrest⟩
    · have hs' : ∀ c ∈ rest d s, c ≠ 0 := fun c hc ↦ hs c
        ((List.dropWhile_suffix _).subset ((List.dropWhile_suffix _).subset hc))
      obtain ⟨ts, s', h⟩ : ∃ ts s', Tokenised d (pre ++ cut d s) (rest d s) none
          (some (pre.length + (cut d s).length)) ts s' :=
        ih (rest d s).length (hn ▸ length_rest_lt hrest) hs' (by simp) rfl
      exact ⟨_, _, h.cons hs hptr hrest⟩

theorem tokens_spec (s : CString) (d : Int8) (saveptr : Option ℕ) : ∃ ts s',
    Tokenised d [] s.chars (some 0) saveptr ts s' ∧
      ∀ tail, tokens (s.chars ++ 0 :: tail) d saveptr = some (ts, s' ++ 0 :: tail) := by
  obtain ⟨ts, s', h⟩ : ∃ ts s', Tokenised d [] s.chars (some 0) saveptr ts s' :=
    exists_tokenised s.nonNul rfl
  refine ⟨ts, s', h, fun tail ↦ ?_⟩
  have hlen : s.chars.length + 2 ≤ (s.chars ++ 0 :: tail).length + 1 := by
    rw [List.length_append, List.length_cons]
    omega
  exact h.returns tail _ hlen

def YieldsFields (s : CString) (d : Int8) : Prop :=
  ∀ tail saveptr, ∃ ts buf, tokens (s.chars ++ 0 :: tail) d saveptr = some (ts, buf) ∧
    ts.map Token.string = fields d s.chars

theorem yieldsFields_iff_word (s : CString) (d : Int8) :
    YieldsFields s d ↔ word d s.chars ≠ [] := by
  constructor
  · intro h hword
    obtain ⟨ts, s', hts, htokens⟩ := tokens_spec s d none
    obtain ⟨us, buf, hus, hfields⟩ := h [] none
    obtain ⟨rfl, -⟩ := Prod.mk.inj (Option.some.inj (hus.symm.trans (htokens [])))
    rw [hts.strings, hword] at hfields
    have hmem : [] ∈ fields d s.chars := hfields ▸ List.mem_cons_self
    simp [fields] at hmem
  · intro hword tail saveptr
    obtain ⟨ts, s', hts, htokens⟩ := tokens_spec s d saveptr
    exact ⟨ts, _, htokens tail, by rw [hts.strings, fields_eq hword]⟩

/-- The first call does not skip delimiters: a string that is empty or starts with one yields an
empty token. Behind the first token they are skipped. -/
theorem yieldsFields_iff (s : CString) (d : Int8) :
    YieldsFields s d ↔ s.chars ≠ [] ∧ s.chars.head? ≠ some d := by
  rw [yieldsFields_iff_word]
  cases s.chars with
  | nil => simp [word]
  | cons c t => by_cases hc : c = d <;> simp [word, hc]

theorem leading_delim_yields_empty_token :
    ¬∀ (s : CString) (d : Int8), d ≠ 0 → YieldsFields s d := by
  intro h
  obtain ⟨ts, buf, htokens, hfields⟩ := h ⟨[59, 97], by simp⟩ 59 (by decide) [] none
  have hrun : tokens [59, 97, 0] 59 none = some ([⟨0, []⟩, ⟨1, [97]⟩], [0, 97, 0]) := rfl
  obtain ⟨rfl, -⟩ := Prod.mk.inj (Option.some.inj (hrun.symm.trans htokens))
  have hfields' : fields (59 : Int8) [59, 97] = [[97]] := by
    rw [fields_delim]
    exact fields_eq (s := [97]) (by decide)
  exact absurd (hfields.trans hfields') (by decide)

/-- Only the bytes up to the first NUL matter (with an empty `tail` there are no others, and an
access to one would fail), and the delimiter may be NUL. -/
theorem tokens_bounded (s : CString) (d : Int8) (saveptr : Option ℕ) : ∃ ts s',
    (∀ tail, tokens (s.chars ++ 0 :: tail) d saveptr = some (ts, s' ++ 0 :: tail)) ∧
    ts.length ≤ s.chars.length + 1 ∧
    List.Forall₂ (Changed d) s.chars s' ∧
    ts.Pairwise (·.offset < ·.offset) ∧ (∀ t ∈ ts, t.offset ≤ s.chars.length) ∧
    (ts.map Token.string).flatten = s.chars.filter (· ≠ d) := by
  obtain ⟨ts, s', hts, htokens⟩ := tokens_spec s d saveptr
  refine ⟨ts, s', htokens, hts.length_le, hts.changed, hts.increasing, fun t ht ↦ ?_, ?_⟩
  · simpa using (hts.bounds t ht).2
  · have hflatten : (word d s.chars :: fields d (rest d s.chars)).flatten =
        (fields d s.chars).flatten := by
      by_cases hword : word d s.chars = []
      · rw [hword, fields_eq_of_word_eq_nil hword, List.flatten_cons, List.nil_append]
      · rw [fields_eq hword]
    rw [hts.strings, hflatten, fields_flatten]

end CsoLabs.StringToken
