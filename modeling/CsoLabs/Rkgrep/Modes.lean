import Mathlib.Data.List.DropRight
import Mathlib.Data.Nat.Digits.Lemmas
import CsoLabs.Foundation.Parts
import CsoLabs.Rkgrep.BloomSafety
import CsoLabs.Rkgrep.NaiveMatch
import CsoLabs.Rkgrep.Program

namespace CsoLabs.Rkgrep

open Foundation CInt CString Occurrences Parts

variable {doc pattern fname : CString} {pos i : ℕ} {ms : List ℕ} {ps : List CString}
  {search : ℕ → CString → Option (ℤ × ℤ)} {options options' : List (Option CString)}
  {args : List CString} {files : CString → Option OpenFile} {ind : ℕ → ℤ} {f : OpenFile}

/-- The line around a match, with the match in red. -/
def matchedLine (doc pattern : CString) (pos : ℕ) : List Int8 :=
  (doc.chars.take pos).rtakeWhile (· ≠ newline) ++ REDCOLOR ++ pattern.chars ++ NORMALCOLOR ++
    (doc.chars.drop (pos + pattern.chars.length)).takeWhile (· ≠ newline) ++ [newline]

theorem rtakeWhile_line {u v : List Int8} (hv : ∀ c ∈ v, c ≠ newline) :
    (u ++ newline :: v).rtakeWhile (· ≠ newline) = v := by
  rw [List.rtakeWhile, List.reverse_append, List.reverse_cons, List.append_assoc,
    List.takeWhile_append_of_pos]
  · simp
  · intro c hc
    simpa using hv c (List.mem_reverse.mp hc)

theorem mem_slice {doc : List Int8} {s e : ℕ} {c : Int8} (hc : c ∈ slice doc s e) :
    ∃ k, s ≤ k ∧ k < e ∧ doc[k]? = some c := by
  obtain ⟨k, hk, hget⟩ := List.getElem_of_mem hc
  have hlen : k < e - s := lt_of_lt_of_le hk (by simp [slice])
  refine ⟨s + k, by omega, by omega, ?_⟩
  rw [← List.getElem?_drop, ← hget, ← List.getElem?_take_of_lt hlen]
  exact List.getElem?_eq_getElem hk

theorem take_append_slice {doc : List Int8} {s : ℕ} (h : s ≤ pos) :
    doc.take s ++ slice doc s pos = doc.take pos := by
  rw [slice, ← List.drop_take]
  conv_rhs => rw [← List.take_append_drop s (doc.take pos), List.take_take, min_eq_left h]

theorem LineStart.slice_eq {doc : List Int8} {s : ℕ} (h : LineStart doc pos s) :
    slice doc s pos = (doc.take pos).rtakeWhile (· ≠ newline) := by
  have hinside : ∀ c ∈ slice doc s pos, c ≠ newline := by
    intro c hc hnl
    obtain ⟨k, hk, hk', hget⟩ := mem_slice hc
    exact h.inside k hk hk' (hnl ▸ hget)
  rw [← take_append_slice h.le]
  cases s with
  | zero =>
    rw [List.take_zero, List.nil_append]
    apply (List.rtakeWhile_eq_self_iff.mpr _).symm
    simpa using hinside
  | succ k =>
    have hnl : doc[k]? = some newline := by simpa using h.start
    rw [List.take_add_one, hnl, Option.toList_some, List.append_assoc, List.singleton_append,
      rtakeWhile_line hinside]

theorem LineEnd.slice_eq {doc : List Int8} {stop e : ℕ} (h : LineEnd doc stop e) :
    slice doc stop e = (doc.drop stop).takeWhile (· ≠ newline) := by
  have hinside : ∀ c ∈ slice doc stop e, decide (c ≠ newline) = true := by
    intro c hc
    rw [decide_eq_true_eq]
    intro hnl
    obtain ⟨k, hk, hk', hget⟩ := mem_slice hc
    exact h.inside k hk hk' (hnl ▸ hget)
  have hsplit : doc.drop stop = slice doc stop e ++ doc.drop e := by
    have hle := h.le
    conv_lhs => rw [← List.take_append_drop (e - stop) (doc.drop stop), List.drop_drop]
    rw [slice, show stop + (e - stop) = e by omega]
  rw [hsplit, List.takeWhile_append_of_pos hinside]
  rcases h.ending with rfl | hnl
  · simp
  · obtain ⟨he, hget⟩ := List.getElem?_eq_some_iff.mp hnl
    rw [List.drop_eq_getElem_cons he, hget]
    simp

theorem printMatchedSentence_matchedLine (hocc : OccursAt pattern.chars doc.chars pos)
    (hlt : pos + pattern.chars.length < doc.chars.length) (hd : doc.chars.length < 2 ^ 31) :
    printMatchedSentence pos pattern doc = some (matchedLine doc pattern pos) := by
  obtain ⟨s, e, hstart, hend, hout⟩ := printMatchedSentence_line hocc hlt
  have he : e ≤ doc.chars.length := by
    rcases hend.ending with rfl | hnl
    · exact le_rfl
    · exact (List.getElem?_eq_some_iff.mp hnl).1.le
  rw [hout, if_pos (by omega), hstart.slice_eq, hend.slice_eq]
  rfl

/-- The number of the matches, if there are more behind the first one. -/
def noticeOf (pattern : CString) (more : List ℕ) : List Int8 :=
  if more = [] then [] else notice (more.length + 1 : ℕ) pattern

def reportOf (doc pattern : CString) : List ℕ → Option (List Int8)
  | [] => some []
  | pos :: more =>
    if pos + pattern.chars.length < doc.chars.length then
      some (matchedLine doc pattern pos ++ noticeOf pattern more)
    else none

theorem printMatchedSentence_first (hne : pattern.chars ≠ [])
    (hocc : ∀ i ∈ ms, OccursAt pattern.chars doc.chars i) (hd : doc.chars.length < 2 ^ 31) :
    (printMatchedSentence (first ms) pattern doc).map
      (· ++ if (ms.length : ℤ) > 1 then notice ms.length pattern else []) =
      reportOf doc pattern ms := by
  cases ms with
  | nil => rfl
  | cons pos more =>
    have hpos := hocc pos List.mem_cons_self
    have hle := hpos.length_le hne
    rw [first, reportOf]
    by_cases hlt : pos + pattern.chars.length < doc.chars.length
    · rw [printMatchedSentence_matchedLine hpos hlt hd, if_pos hlt, Option.map_some]
      congr 2
      rw [noticeOf]
      by_cases hmore : more = []
      · simp [hmore]
      · have := List.length_pos_iff.mpr hmore
        rw [if_pos (by rw [List.length_cons]; omega), if_neg hmore]
        rfl
    · have hdrop : doc.chars.drop pos = pattern.chars := by
        apply (List.IsPrefix.eq_of_length hpos _).symm
        rw [List.length_drop]
        omega
      rw [if_neg hlt, printMatchedSentence_end (by omega) hdrop]
      rfl

def Finds (doc : CString) (search : ℕ → CString → Option (ℤ × ℤ)) (found : CString → List ℕ)
    (pattern : CString) : Prop :=
  (∀ i, search i pattern = some (((found pattern).length : ℤ), first (found pattern))) ∧
    ∀ i ∈ found pattern, OccursAt pattern.chars doc.chars i

theorem reportPatterns_eq {found : CString → List ℕ} (hd : doc.chars.length < 2 ^ 31)
    (hps : ∀ p ∈ ps, p.chars ≠ [] ∧ Finds doc search found p) :
    reportPatterns doc search i ps =
      (ps.mapM fun p ↦ reportOf doc p (found p)).map List.flatten := by
  induction ps generalizing i with
  | nil => rfl
  | cons p ps ih =>
    obtain ⟨hne, hsearch, hocc⟩ := hps p List.mem_cons_self
    have hrest := ih (i := i + 1) fun q hq ↦ hps q (List.mem_cons_of_mem p hq)
    rw [reportPatterns, hsearch, Option.bind_eq_bind, Option.bind_some, hrest, List.mapM_cons,
      ← printMatchedSentence_first hne hocc hd]
    dsimp only
    cases printMatchedSentence (first (found p)) p doc with
    | none => rfl
    | some sentence =>
      cases ps.mapM fun p ↦ reportOf doc p (found p) with
      | none => rfl
      | some reports => rfl

theorem mem_patternsOf {p : CString} (h : p ∈ patternsOf pattern) :
    p.chars ≠ [] ∧ p.chars.length ≤ pattern.chars.length := by
  have hmem : p.chars ∈ Fields.fields bar pattern.chars := by
    rw [← map_patternsOf]
    exact List.mem_map_of_mem h
  have hlen := (List.sublist_flatten_of_mem hmem).length_le
  rw [Fields.fields_flatten] at hlen
  constructor
  · simpa using (List.mem_filter.mp hmem).2
  · exact hlen.trans (List.length_filter_le _ _)

theorem bounds_patternsOf (hlen : pattern.chars.length < 2 ^ 31) :
    ∀ p ∈ patternsOf pattern, p.chars ≠ [] ∧ p.chars.length < 2 ^ 31 := by
  intro p hp
  obtain ⟨hne, hle⟩ := mem_patternsOf hp
  exact ⟨hne, hle.trans_lt hlen⟩

theorem document_spec (h : f.document = some doc) : doc.chars.length < 2 ^ 31 ∧ doc.Ascii := by
  obtain ⟨hn, hcells, hascii⟩ := document_eq_some.mp h
  have hlen := f.length_cells
  have hfits := (fits_int.mp f.fits_n).2
  rw [hcells, List.length_append, List.length_singleton] at hlen
  exact ⟨by omega, hascii⟩

/-- Everything in front of the search is the same in all modes. -/
theorem runPatterns_eq (a : AlgoType) : runPatterns a (pattern :: args) files ind =
    if patternsOf pattern = [] then some ⟨1, usage⟩
    else if (patternsOf pattern).length < MAX_PATTERNS then
      (args.head?.bind files).elim (some ⟨1, []⟩) fun f ↦
        f.document.bind fun doc ↦ searchPatterns doc (patternsOf pattern) ind a
    else none := by
  have hsplit : splitPatterns (pattern.chars.length + 1) pattern [] = _ :=
    splitPatterns_eq (Nat.lt_succ_self _) (by decide)
  rw [List.length_nil, Nat.zero_add, List.nil_append] at hsplit
  rw [runPatterns, hsplit]
  by_cases hnil : patternsOf pattern = []
  · rw [if_pos hnil, if_pos (by rw [hnil]; decide)]
    exact if_pos hnil
  · rw [if_neg hnil]
    by_cases hmax : (patternsOf pattern).length < MAX_PATTERNS
    · rw [if_pos hmax, if_pos hmax, Option.bind_eq_bind, Option.bind_some, if_neg hnil]
      cases args.head?.bind files with
      | none => rfl
      | some f => exact read_document f fun doc ↦ searchPatterns doc (patternsOf pattern) ind a
    · rw [if_neg hmax, if_neg hmax]
      rfl

theorem main_document {a : AlgoType} (ha : parseOptions options .rk = .ok a)
    (hne : patternsOf pattern ≠ []) (hmax : (patternsOf pattern).length < MAX_PATTERNS)
    (hf : files fname = some f) (hdoc : f.document = some doc) :
    main options (pattern :: fname :: args) files ind =
      searchPatterns doc (patternsOf pattern) ind a := by
  rw [main, ha]
  dsimp only
  rw [runPatterns_eq, if_neg hne, if_pos hmax, List.head?_cons, Option.bind_some, hf,
    Option.elim_some, hdoc, Option.bind_some]

theorem finds_rk (hdoc : doc.Ascii) (hd : doc.chars.length < 2 ^ 31) (hne : pattern.chars ≠ [])
    (hp : pattern.chars.length < 2 ^ 31) :
    Finds doc (fun _ p ↦ rkSubstringMatch p doc) (fun p ↦ occurrences p.chars doc.chars) pattern := by
  have hpos := List.length_pos_iff.mpr hne
  have hmod : pattern.chars.length % 2 ^ 32 = pattern.chars.length := Nat.mod_eq_of_lt (by omega)
  constructor
  · intro i
    dsimp only
    rw [rkSubstringMatch_eq pattern doc hne hdoc hd (by omega) (by omega), foldl_record, if_pos rfl,
      zero_add]
  · intro i hi
    exact (mem_occurrences hne).mp hi

def naiveFound (doc pattern : CString) : List ℕ :=
  (List.range doc.chars.length).filter fun i ↦ NaiveAccepts pattern.chars doc.chars i

theorem finds_naive (hd : doc.chars.length < 2 ^ 31) (hne : pattern.chars ≠ []) :
    Finds doc (fun _ p ↦ naiveSubstringMatch p doc) (naiveFound doc) pattern := by
  constructor
  · intro i
    dsimp only
    rw [naiveSubstringMatch_eq pattern doc hne hd, foldl_record, if_pos rfl, zero_add]
    rfl
  · intro i hi
    have h := (List.mem_filter.mp hi).2
    rw [decide_eq_true_eq] at h
    exact h.1

theorem searchPatterns_rk (hdoc : doc.Ascii) (hd : doc.chars.length < 2 ^ 31)
    (hps : ∀ p ∈ ps, p.chars ≠ [] ∧ p.chars.length < 2 ^ 31) : searchPatterns doc ps ind .rk =
    (ps.mapM fun p ↦ reportOf doc p (occurrences p.chars doc.chars)).map
      fun reports ↦ ⟨0, reports.flatten⟩ := by
  have hout := reportPatterns_eq (i := 0) hd fun p hp ↦
    ⟨(hps p hp).1, finds_rk hdoc hd (hps p hp).1 (hps p hp).2⟩
  rw [searchPatterns, hout]
  cases ps.mapM fun p ↦ reportOf doc p (occurrences p.chars doc.chars) <;> rfl

theorem searchPatterns_naive (hd : doc.chars.length < 2 ^ 31) (hps : ∀ p ∈ ps, p.chars ≠ []) :
    searchPatterns doc ps ind .naive =
    (ps.mapM fun p ↦ reportOf doc p (naiveFound doc p)).map fun reports ↦ ⟨0, reports.flatten⟩ := by
  have hout := reportPatterns_eq (i := 0) hd fun p hp ↦ ⟨hps p hp, finds_naive hd (hps p hp)⟩
  rw [searchPatterns, hout]
  cases ps.mapM fun p ↦ reportOf doc p (naiveFound doc p) <;> rfl

/-- What the program does in its default mode: without patterns or without a file it ends with 1;
for up to 999 patterns it prints each one's first line and, with more than one match, their number.
The rest is undefined: more patterns, a file with other chars than ASCII or a short `read`, a cell
behind the file's chars that is not 0 by itself, and a first match at the end of the document. -/
theorem rk_mode_output (hrk : parseOptions options .rk = .ok .rk)
    (hlen : ∀ pattern ∈ args.head?, pattern.chars.length < 2 ^ 31) :
    main options args files ind = match args with
      | [] => some ⟨1, usage⟩
      | pattern :: args =>
        if patternsOf pattern = [] then some ⟨1, usage⟩
        else if (patternsOf pattern).length < MAX_PATTERNS then
          (args.head?.bind files).elim (some ⟨1, []⟩) fun f ↦ f.document.bind fun doc ↦
            ((patternsOf pattern).mapM fun p ↦ reportOf doc p (occurrences p.chars doc.chars)).map
              fun reports ↦ ⟨0, reports.flatten⟩
        else none := by
  have hmain : main options args files ind = runPatterns .rk args files ind := by
    rw [main, hrk]
  rw [hmain]
  cases args with
  | nil => rfl
  | cons pattern args =>
    have hps := bounds_patternsOf (hlen pattern rfl)
    rw [runPatterns_eq]
    dsimp only
    congr 2
    cases args.head?.bind files with
    | none => rfl
    | some f =>
      apply Option.bind_congr
      intro doc hdoc
      obtain ⟨hd, hascii⟩ := document_spec hdoc
      exact searchPatterns_rk hascii hd hps

def fileAB : OpenFile := ⟨2, [97, 98, 0], 2, rfl, by decide⟩

theorem rk_mode_output_ab :
    main [] [strA, strB] (fun _ ↦ some fileAB) (fun _ ↦ 0) =
      some ⟨0, REDCOLOR ++ [97] ++ NORMALCOLOR ++ [98, newline]⟩ ∧
    main [] [strA] (fun _ ↦ some fileAB) (fun _ ↦ 0) = some ⟨1, []⟩ := by
  constructor
  · rw [rk_mode_output rfl (by decide)]
    decide +kernel
  · rw [rk_mode_output rfl (by decide)]
    decide +kernel

theorem decimal_injective {m n : ℕ} (h : decimal m = decimal n) : m = n := by
  have hback : ∀ k, (decimal k).map (fun c ↦ (c.toInt - 48).toNat) = (Nat.digits 10 k).reverse := by
    intro k
    rw [decimal, List.map_map]
    conv_rhs => rw [← List.map_id (Nat.digits 10 k).reverse]
    apply List.map_congr_left
    intro d hd
    have hlt := Nat.digits_lt_base (by decide) (List.mem_reverse.mp hd)
    have hall : ∀ d < 10, ((Int8.ofNat (48 + d)).toInt - 48).toNat = d := by decide
    exact hall d hlt
  have hrev := (hback m).symm.trans ((congrArg _ h).trans (hback n))
  exact Nat.digits_inj_iff.mp (List.reverse_injective hrev)

theorem length_notice (n : ℕ) : (notice n pattern).length =
    (ascii "--  only 1 out ").length + (decimal n).length + (ascii " matches for pattern ").length +
      pattern.chars.length + (ascii " is displayed\n").length := by
  simp [notice, add_assoc]

theorem notice_injective {m n : ℕ} (h : notice m pattern = notice n pattern) : m = n := by
  have hlen := congrArg List.length h
  rw [length_notice, length_notice] at hlen
  simp only [notice, List.append_assoc, Int.toNat_natCast] at h
  exact decimal_injective (List.append_inj (List.append_cancel_left h) (by omega)).1

theorem length_noticeOf_le (pattern : CString) {more more' : List ℕ} (h : more'.length ≤ more.length) :
    (noticeOf pattern more').length ≤ (noticeOf pattern more).length ∧
      (noticeOf pattern more' = noticeOf pattern more → more'.length = more.length) := by
  have hpos : ∀ n : ℕ, 0 < (notice n pattern).length := by
    intro n
    have hprefix : 0 < (ascii "--  only 1 out ").length := by decide
    rw [length_notice]
    omega
  by_cases hnil' : more' = []
  · rw [noticeOf, if_pos hnil', hnil']
    refine ⟨Nat.zero_le _, fun heq ↦ ?_⟩
    by_cases hnil : more = []
    · rw [hnil]
    · rw [noticeOf, if_neg hnil] at heq
      have := hpos (more.length + 1)
      rw [← heq] at this
      exact absurd this (lt_irrefl 0)
  · have hnil : more ≠ [] := by
      rintro rfl
      exact hnil' (List.length_eq_zero_iff.mp (Nat.le_zero.mp h))
    rw [noticeOf, noticeOf, if_neg hnil', if_neg hnil]
    constructor
    · have hdigits := Nat.le_length_digits_le 10 (more'.length + 1) (more.length + 1) (by omega)
      rw [length_notice, length_notice, decimal, decimal, List.length_map, List.length_map,
        List.length_reverse, List.length_reverse]
      omega
    · intro heq
      have := notice_injective heq
      omega

theorem naiveFound_eq (doc pattern : CString) : naiveFound doc pattern =
    (occurrences pattern.chars doc.chars).filter
      (fun i ↦ i + pattern.chars.length < doc.chars.length) := by
  rw [naiveFound, occurrences, List.filter_filter]
  exact List.filter_congr fun i _ ↦ by simp [NaiveAccepts, and_comm]

theorem length_naive_report_le {a b : List Int8} (ha : reportOf doc pattern (naiveFound doc pattern) = some a)
    (hb : reportOf doc pattern (occurrences pattern.chars doc.chars) = some b) :
    a.length ≤ b.length ∧
      (a = b → naiveFound doc pattern = occurrences pattern.chars doc.chars) := by
  rw [naiveFound_eq] at ha ⊢
  cases hocc : occurrences pattern.chars doc.chars with
  | nil =>
    rw [hocc] at ha hb
    obtain rfl : [] = a := Option.some.inj ha
    exact ⟨Nat.zero_le _, fun _ ↦ rfl⟩
  | cons pos more =>
    rw [hocc] at ha hb
    rw [reportOf] at hb
    split_ifs at hb with hlt
    rw [List.filter_cons_of_pos (by simpa using hlt), reportOf, if_pos hlt] at ha
    obtain rfl := Option.some.inj ha
    obtain rfl := Option.some.inj hb
    set more' := more.filter fun i ↦ i + pattern.chars.length < doc.chars.length with hmore'
    have hle : more'.length ≤ more.length := List.length_filter_le _ _
    obtain ⟨hlen, hsame⟩ := length_noticeOf_le pattern hle
    rw [List.length_append, List.length_append]
    constructor
    · exact Nat.add_le_add_left hlen _
    · intro heq
      have hcount := hsame (List.append_cancel_left heq)
      rw [List.filter_cons_of_pos (by simpa using hlt), ← hmore']
      rw [hmore', List.length_filter_eq_length_iff] at hcount
      rw [hmore', List.filter_eq_self.mpr hcount]

theorem exists_report (hne : pattern.chars ≠ []) (h : ¬ pattern.chars <:+ doc.chars) :
    ∃ a, reportOf doc pattern (occurrences pattern.chars doc.chars) = some a := by
  cases hocc : occurrences pattern.chars doc.chars with
  | nil => exact ⟨[], rfl⟩
  | cons pos more =>
    have hpos : OccursAt pattern.chars doc.chars pos := by
      rw [← mem_occurrences hne, hocc]
      exact List.mem_cons_self
    have hlt := lt_of_le_of_ne (hpos.length_le hne) fun he ↦ h (suffix_of_occursAt hpos he)
    exact ⟨_, if_pos hlt⟩

/-- The default mode and the naive mode print the same, exactly if no pattern stands at the end of
the document. -/
theorem naive_mode_agrees_iff (hnaive : parseOptions options .rk = .ok .naive)
    (hrk : parseOptions options' .rk = .ok .rk) (hlen : pattern.chars.length < 2 ^ 31)
    (hne : patternsOf pattern ≠ []) (hmax : (patternsOf pattern).length < MAX_PATTERNS)
    (hf : files fname = some f) (hdoc : f.document = some doc) :
    (∃ o, main options (pattern :: fname :: args) files ind = some o ∧
      main options' (pattern :: fname :: args) files ind = some o) ↔
      ∀ p ∈ patternsOf pattern, ¬ p.chars <:+ doc.chars := by
  obtain ⟨hd, hascii⟩ := document_spec hdoc
  have hps := bounds_patternsOf hlen
  have hleft : main options (pattern :: fname :: args) files ind =
      ((patternsOf pattern).mapM fun p ↦ reportOf doc p (naiveFound doc p)).map
        fun reports ↦ ⟨0, reports.flatten⟩ := by
    rw [main_document hnaive hne hmax hf hdoc]
    exact searchPatterns_naive hd fun p hp ↦ (hps p hp).1
  have hright : main options' (pattern :: fname :: args) files ind =
      ((patternsOf pattern).mapM fun p ↦ reportOf doc p (occurrences p.chars doc.chars)).map
        fun reports ↦ ⟨0, reports.flatten⟩ := by
    rw [main_document hrk hne hmax hf hdoc]
    exact searchPatterns_rk hascii hd hps
  rw [hleft, hright]
  constructor
  · intro h p hp hsuffix
    obtain ⟨o, hl, hr⟩ := h
    obtain ⟨as, has, rfl⟩ := Option.map_eq_some_iff.mp hl
    obtain ⟨bs, hbs, heq⟩ := Option.map_eq_some_iff.mp hr
    have hflat : as.flatten = bs.flatten := congrArg Outcome.out heq.symm
    obtain ⟨a, ha, hb⟩ := eq_of_flatten_eq has hbs
      (fun q _ a b ha hb ↦ (length_naive_report_le ha hb).1) hflat p hp
    have hsame := (length_naive_report_le ha hb).2 rfl
    have hlt := naive_filter_lt (hps p hp).1 hsuffix
    rw [← hsame] at hlt
    exact lt_irrefl _ hlt
  · intro h
    have hsame : ∀ p ∈ patternsOf pattern,
        naiveFound doc p = occurrences p.chars doc.chars := by
      intro p hp
      exact naive_filter_eq (hps p hp).1 (h p hp)
    have hcongr : ((patternsOf pattern).mapM fun p ↦ reportOf doc p (naiveFound doc p)) =
        (patternsOf pattern).mapM fun p ↦ reportOf doc p (occurrences p.chars doc.chars) := by
      apply mapM_eq_of_mem
      intro p hp
      rw [hsame p hp]
    obtain ⟨as, has⟩ : ∃ as, ((patternsOf pattern).mapM fun p ↦
        reportOf doc p (occurrences p.chars doc.chars)) = some as := by
      apply exists_mapM
      intro p hp
      exact exists_report (hps p hp).1 (h p hp)
    rw [hcongr, has]
    exact ⟨_, rfl, rfl⟩

theorem naive_mode_agrees_iff_ab :
    (∃ o, main [some (literal "naive")] [strA, strB] (fun _ ↦ some fileAB) (fun _ ↦ 0) = some o ∧
      main [] [strA, strB] (fun _ ↦ some fileAB) (fun _ ↦ 0) = some o) ↔
      ∀ p ∈ patternsOf strA, ¬ p.chars <:+ [97, 98] :=
  naive_mode_agrees_iff (by decide) rfl (by decide) (by decide) (by decide) rfl
    (show fileAB.document = some ⟨[97, 98], by simp⟩ by decide)

section Reports

variable {search' : ℕ → CString → Option (ℤ × ℤ)} {a b : List Int8}

theorem reportPatterns_cons_eq {p : CString} (h : reportPatterns doc search i (p :: ps) = some a) :
    ∃ r sentence rest, search i p = some r ∧ printMatchedSentence r.2 p doc = some sentence ∧
      reportPatterns doc search (i + 1) ps = some rest ∧
      a = sentence ++ (if r.1 > 1 then notice r.1 p else []) ++ rest := by
  obtain ⟨r, hr, h⟩ := Option.bind_eq_some_iff.mp h
  obtain ⟨sentence, hsentence, h⟩ := Option.bind_eq_some_iff.mp h
  obtain ⟨rest, hrest, h⟩ := Option.bind_eq_some_iff.mp h
  exact ⟨r, sentence, rest, hr, hsentence, hrest, (Option.some.inj h).symm⟩

theorem reportPatterns_congr (h : ∀ p ∈ ps, ∀ j, search j p = search' j p) :
    reportPatterns doc search i ps = reportPatterns doc search' i ps := by
  induction ps generalizing i with
  | nil => rfl
  | cons p ps ih =>
    rw [reportPatterns, reportPatterns, h p List.mem_cons_self,
      ih fun q hq ↦ h q (List.mem_cons_of_mem p hq)]

theorem printMatchedSentence_ne_nil {pos : ℤ} (hpos : 0 ≤ pos)
    (h : printMatchedSentence pos pattern doc = some a) : 0 < a.length := by
  rw [printMatchedSentence, if_neg (not_lt.mpr hpos)] at h
  obtain ⟨_, -, h⟩ := Option.bind_eq_some_iff.mp h
  obtain ⟨_, -, h⟩ := Option.bind_eq_some_iff.mp h
  obtain ⟨_, -, h⟩ := Option.bind_eq_some_iff.mp h
  obtain ⟨_, -, h⟩ := Option.bind_eq_some_iff.mp h
  rw [← Option.some.inj h, List.length_append]
  exact Nat.lt_of_lt_of_le Nat.zero_lt_one (Nat.le_add_left _ _)

def Skipped (search search' : ℕ → CString → Option (ℤ × ℤ)) (p : CString) : Prop :=
  ∀ j, search j p = some (0, 0) ∧ search' j p = some (0, -1)

theorem length_reportPatterns_le
    (h : ∀ p ∈ ps, (∀ j, search j p = search' j p) ∨ Skipped search search' p)
    (ha : reportPatterns doc search i ps = some a) (hb : reportPatterns doc search' i ps = some b) :
    b.length ≤ a.length ∧ ∀ p ∈ ps, Skipped search search' p → b.length < a.length := by
  induction ps generalizing i a b with
  | nil =>
    obtain rfl : [] = b := Option.some.inj hb
    exact ⟨Nat.zero_le _, fun p hp ↦ absurd hp List.not_mem_nil⟩
  | cons p ps ih =>
    obtain ⟨r, sentence, rest, hr, hsentence, hrest, rfl⟩ := reportPatterns_cons_eq ha
    obtain ⟨r', sentence', rest', hr', hsentence', hrest', rfl⟩ := reportPatterns_cons_eq hb
    obtain ⟨hle, hlt⟩ := ih (fun q hq ↦ h q (List.mem_cons_of_mem p hq)) hrest hrest'
    simp only [List.length_append]
    have hskipped : Skipped search search' p → sentence'.length = 0 ∧ 0 < sentence.length ∧
        r.1 = 0 ∧ r'.1 = 0 := by
      intro hskip
      obtain ⟨hs, hs'⟩ := hskip i
      obtain rfl := Option.some.inj (hr.symm.trans hs)
      obtain rfl := Option.some.inj (hr'.symm.trans hs')
      have hnil : printMatchedSentence (-1) p doc = some [] := rfl
      obtain rfl := Option.some.inj (hsentence'.symm.trans hnil)
      exact ⟨rfl, printMatchedSentence_ne_nil le_rfl hsentence, rfl, rfl⟩
    rcases h p List.mem_cons_self with hsame | hskip
    · obtain rfl := Option.some.inj (hr.symm.trans ((hsame i).trans hr'))
      obtain rfl := Option.some.inj (hsentence.symm.trans hsentence')
      constructor
      · omega
      · intro q hq hskip
        rcases List.mem_cons.mp hq with rfl | hq
        · obtain ⟨h₀, hpos, -⟩ := hskipped hskip
          omega
        · have := hlt q hq hskip
          omega
    · obtain ⟨h₀, hpos, hr₁, hr₂⟩ := hskipped hskip
      simp only [hr₁, hr₂, gt_iff_lt, show ¬ (1 : ℤ) < 0 by decide, if_false, List.length_nil]
      exact ⟨by omega, fun q _ _ ↦ by omega⟩

end Reports

def LetsThrough (doc : CString) (m : ℕ) (pattern : CString) : Prop :=
  ∃ bf x h, rkCreateDocBloom m doc (8 * doc.chars.length : ℕ) = some bf ∧
    rkhashInit pattern m = some (x, h) ∧ bloomQuery bf x = some true

theorem bloom_search {bf : BloomFilter} (hp : pattern.Ascii) (hdoc : doc.Ascii)
    (hne : pattern.chars ≠ []) (hle : pattern.chars.length ≤ doc.chars.length)
    (hsize : doc.chars.length < 2 ^ 28)
    (hbf : rkCreateDocBloom pattern.chars.length doc (8 * doc.chars.length : ℕ) = some bf) (k : ℤ) :
    (LetsThrough doc pattern.chars.length pattern →
      rkSubstringMatchUsingBloom pattern doc bf k = rkSubstringMatch pattern doc) ∧
      (¬ LetsThrough doc pattern.chars.length pattern →
        rkSubstringMatchUsingBloom pattern doc bf k = some (0, k) ∧
          rkSubstringMatch pattern doc = some (0, -1)) := by
  have hpos := List.length_pos_iff.mpr hne
  have hM : wrapSigned 32 pattern.chars.length = pattern.chars.length :=
    wrapSigned_of_fits (by decide) (fits_int.mpr (by omega))
  obtain ⟨x, h, hx, hx0⟩ := rkhashInit_pattern hp pattern.chars.length le_rfl
  obtain ⟨hbits, r, hr, hmiss⟩ := rkSubstringMatch_of_filter hdoc hM (Nat.dvd_mul_right _ _) hbf hx
    hx0 (by omega)
  have hq := bloomQuery_eq hx0 hbits
  have huse : rkSubstringMatchUsingBloom pattern doc bf k = _ := using_eq (hM ▸ hx) hq
  constructor
  · intro hthrough
    obtain ⟨bf', x', h', hbf', hx', htrue⟩ := hthrough
    obtain rfl := Option.some.inj (hbf.symm.trans hbf')
    obtain ⟨rfl, -⟩ := Prod.mk.inj (Option.some.inj (hx.symm.trans hx'))
    have hfound := Option.some.inj (hq.symm.trans htrue)
    rw [huse, hfound, if_pos rfl]
  · intro hnot
    have hfalse : bloomQuery bf x ≠ some true := fun htrue ↦ hnot ⟨bf, x, h, hbf, hx, htrue⟩
    obtain rfl := hmiss hfalse
    rw [hq] at hfalse
    refine ⟨?_, hr⟩
    rw [huse, if_neg fun htrue ↦ hfalse (congrArg some htrue)]

theorem ascii_of_mem_patternsOf {p : CString} (hascii : pattern.Ascii) (h : p ∈ patternsOf pattern) :
    p.Ascii := by
  have hmem : p.chars ∈ Fields.fields bar pattern.chars := by
    rw [← map_patternsOf]
    exact List.mem_map_of_mem h
  intro c hc
  have hflat : c ∈ (Fields.fields bar pattern.chars).flatten := List.mem_flatten.mpr ⟨_, hmem, hc⟩
  rw [Fields.fields_flatten] at hflat
  exact hascii c (List.mem_of_mem_filter hflat)

theorem searchPatterns_rkBloom {m : ℕ} {p : CString} (hp : p ∈ ps)
    (hm : ∀ p ∈ ps, p.chars.length = m) (hlt : m < 2 ^ 28) (hsize : doc.chars.length < 2 ^ 28) :
    searchPatterns doc ps ind .rkBloom =
      (rkCreateDocBloom m doc (8 * doc.chars.length : ℕ)).bind fun bf ↦
        (reportPatterns doc (fun i p ↦ rkSubstringMatchUsingBloom p doc bf (ind i)) 0 ps).map
          fun out ↦ ⟨0, out⟩ := by
  have hbits : wrapSigned 32 ((doc.chars.length : ℤ) * 8) = (8 * doc.chars.length : ℕ) := by
    rw [wrapSigned_of_fits (by decide) (fits_int.mpr (by omega))]
    omega
  cases ps with
  | nil => exact absurd hp List.not_mem_nil
  | cons q qs =>
    have hq : wrapSigned 32 q.chars.length = m := by
      rw [hm q List.mem_cons_self]
      exact wrapSigned_of_fits (by decide) (fits_int.mpr (by omega))
    have hsame : ∀ pattern ∈ qs, SameLength m pattern := by
      intro r hr
      rw [SameLength, wrapUnsigned_of_lt (by omega) (by omega), hm r (List.mem_cons_of_mem q hr)]
      rfl
    rw [searchPatterns, List.head?_cons, Option.bind_eq_bind, Option.bind_some]
    dsimp only
    rw [hq, List.tail_cons, if_pos hsame, hbits]
    cases rkCreateDocBloom m doc (8 * doc.chars.length : ℕ) with
    | none => rw [Option.bind_eq_bind, Option.bind_none, Option.bind_none]
    | some bf =>
      rw [Option.bind_eq_bind, Option.bind_some, Option.bind_some]
      cases reportPatterns doc (fun i p ↦ rkSubstringMatchUsingBloom p doc bf (ind i)) 0 (q :: qs) <;>
        rfl

/-- The mode with the filter prints what the default mode prints, whatever the position that no
search has set happens to be, exactly if the filter lets every pattern through. The search for a
pattern that it turns down leaves that position as it was. -/
theorem bloom_mode_agrees_iff {m : ℕ} {o : Outcome}
    (hbloom : parseOptions options .rk = .ok .rkBloom) (hrk : parseOptions options' .rk = .ok .rk)
    (hascii : pattern.Ascii) (hm : ∀ p ∈ patternsOf pattern, p.chars.length = m)
    (hf : files fname = some f) (hdoc : f.document = some doc) (hle : m ≤ doc.chars.length)
    (hsize : doc.chars.length < 2 ^ 28)
    (ho : main options' (pattern :: fname :: args) files ind = some o) :
    ((∀ ind', main options (pattern :: fname :: args) files ind' = some o) ↔
      ∀ p ∈ patternsOf pattern, LetsThrough doc m p) ∧
    ∀ p ∈ patternsOf pattern, ¬ LetsThrough doc m p →
      ∃ bf, rkCreateDocBloom m doc (8 * doc.chars.length : ℕ) = some bf ∧
        ∀ k, rkSubstringMatchUsingBloom p doc bf k = some (0, k) := by
  by_cases hnil : patternsOf pattern = []
  · have husage : ∀ {a : AlgoType} (ind' : ℕ → ℤ),
        runPatterns a (pattern :: fname :: args) files ind' = some ⟨1, usage⟩ := by
      intro a ind'
      rw [runPatterns_eq, if_pos hnil]
    rw [main, hrk] at ho
    obtain rfl := Option.some.inj ((husage ind).symm.trans ho)
    simp [main, hbloom, husage, hnil]
  obtain ⟨q, qs, hqs⟩ := List.exists_cons_of_ne_nil hnil
  have hq : q ∈ patternsOf pattern := by
    rw [hqs]
    exact List.mem_cons_self
  have hmax : (patternsOf pattern).length < MAX_PATTERNS := by
    by_contra hmax
    rw [main, hrk] at ho
    dsimp only at ho
    rw [runPatterns_eq, if_neg hnil, if_neg hmax] at ho
    cases ho
  obtain ⟨-, hdocAscii⟩ := document_spec hdoc
  have hpos : 0 < m := by
    rw [← hm q hq]
    exact List.length_pos_iff.mpr (mem_patternsOf hq).1
  obtain ⟨bf, hbf, -⟩ := rkCreateDocBloom_sized hdocAscii (by omega) hsize
    (show m ≤ doc.chars.length + 1 by omega)
  have hsearch : ∀ p ∈ patternsOf pattern, ∀ k, (LetsThrough doc m p →
      rkSubstringMatchUsingBloom p doc bf k = rkSubstringMatch p doc) ∧ (¬ LetsThrough doc m p →
        rkSubstringMatchUsingBloom p doc bf k = some (0, k) ∧
          rkSubstringMatch p doc = some (0, -1)) := by
    intro p hp k
    rw [← hm p hp] at hbf hle ⊢
    exact bloom_search (ascii_of_mem_patternsOf hascii hp) hdocAscii (mem_patternsOf hp).1 hle hsize
      hbf k
  rw [main_document hrk hnil hmax hf hdoc] at ho
  refine ⟨?_, fun p hp hnot ↦ ⟨bf, hbf, fun k ↦ ((hsearch p hp k).2 hnot).1⟩⟩
  simp only [main_document hbloom hnil hmax hf hdoc,
    searchPatterns_rkBloom hq hm (lt_of_le_of_lt hle hsize) hsize, hbf, Option.bind_some]
  obtain ⟨out, hout, rfl⟩ : ∃ out, reportPatterns doc (fun _ p ↦ rkSubstringMatch p doc) 0
      (patternsOf pattern) = some out ∧ Outcome.mk 0 out = o := by
    obtain ⟨out, hout, ho⟩ := Option.bind_eq_some_iff.mp ho
    exact ⟨out, hout, Option.some.inj ho⟩
  constructor
  · intro h p hp
    by_contra hnot
    obtain ⟨out', hout', heq⟩ := Option.map_eq_some_iff.mp (h fun _ ↦ 0)
    obtain rfl : out' = out := congrArg Outcome.out heq
    have hcases : ∀ p ∈ patternsOf pattern,
        (∀ j : ℕ, (fun _ p ↦ rkSubstringMatchUsingBloom p doc bf 0) j p =
          (fun _ p ↦ rkSubstringMatch p doc) j p) ∨
        Skipped (fun _ p ↦ rkSubstringMatchUsingBloom p doc bf 0)
          (fun _ p ↦ rkSubstringMatch p doc) p := by
      intro p hp
      by_cases hthrough : LetsThrough doc m p
      · exact .inl fun _ ↦ (hsearch p hp 0).1 hthrough
      · exact .inr fun _ ↦ (hsearch p hp 0).2 hthrough
    have hlonger := (length_reportPatterns_le hcases hout' hout).2 p hp
      fun _ ↦ (hsearch p hp 0).2 hnot
    exact absurd hlonger (lt_irrefl _)
  · intro h ind'
    rw [reportPatterns_congr fun p hp j ↦ (hsearch p hp (ind' j)).1 (h p hp), hout]
    rfl

theorem bloom_mode_agrees_iff_ab :
    (∀ ind', main [some (literal "rkbloom")] [strA, strB] (fun _ ↦ some fileAB) ind' =
      some ⟨0, REDCOLOR ++ [97] ++ NORMALCOLOR ++ [98, newline]⟩) ↔
      ∀ p ∈ patternsOf strA, LetsThrough docAB 1 p :=
  (bloom_mode_agrees_iff (by decide) (show parseOptions [] .rk = .ok .rk from rfl) (by decide)
    (by decide) rfl (show fileAB.document = some docAB by decide) (by decide) (by decide)
    (show main [] [strA, strB] (fun _ ↦ some fileAB) (fun _ ↦ 0) = _ by decide +kernel)).1

end CsoLabs.Rkgrep
