import Mathlib.Data.List.TakeWhile
import CsoLabs.Foundation.CInt
import CsoLabs.Foundation.Program

namespace CsoLabs.Foundation.Scanf

open CInt

/-- The input that is left; a conversion whose result does not fit its type is undefined behaviour,
here `none`. -/
abbrev Scan := StateT (List Char) Option

def isSpace (c : Char) : Bool := c = ' ' || ('\t' ≤ c && c ≤ '\r')

def skipSpace (s : List Char) : List Char := s.dropWhile isSpace

def inWord (c : Char) : Bool := !isSpace c

def words (s : List Char) : List (List Char) := (s.splitOnP (isSpace ·)).filter (· ≠ [])

def value (ds : List Char) : ℕ := ds.foldl (fun n c ↦ 10 * n + (c.toNat - '0'.toNat)) 0

def sign : List Char → Bool × List Char
  | '-' :: s => (true, s)
  | '+' :: s => (false, s)
  | s => (false, s)

/-- A signed decimal numeral behind white space. A sign without digits is used up. -/
def numeral (s : List Char) : Option ℤ × List Char :=
  let t := sign (skipSpace s)
  let ds := t.2.takeWhile Char.isDigit
  if ds = [] then (none, t.2)
  else (some (if t.1 then -(value ds : ℤ) else value ds), t.2.dropWhile Char.isDigit)

/-- The conversion `%d`; the result is `none` if the input does not match. -/
def scanfInt : Scan (Option ℤ) := fun s ↦
  match numeral s with
  | (none, s) => some (none, s)
  | (some x, s) => (int x).map fun x ↦ (some x, s)

def scanfUnsigned : Scan (Option ℕ) := fun s ↦
  match numeral s with
  | (none, s) => some (none, s)
  | (some x, s) => if |x| < 2 ^ 32 then some (some (wrapUnsigned 32 x), s) else none

def scanfWord : Scan (Option (List Char)) := fun s ↦
  let t := skipSpace s
  if t = [] then some (none, []) else some (some (t.takeWhile inWord), t.dropWhile inWord)

def scanfChar (c : Char) : Scan Unit := fun s ↦
  match s with
  | [] => some ((), [])
  | d :: s => if d = c then some ((), s) else some ((), d :: s)

def Yields {σ α : Type} (Q : α → Prop) (c : StateT σ Option α) : Prop :=
  ∀ s a s', c s = some (a, s') → Q a

namespace Yields

variable {σ α β : Type} {Q R : α → Prop} {S : β → Prop} {c d : StateT σ Option α}
  {k : α → StateT σ Option β} {a : α} {p : Prop} [Decidable p]

theorem any (c : StateT σ Option α) : Yields (fun _ ↦ True) c := fun _ _ _ _ ↦ trivial

theorem pure (h : Q a) : Yields Q (Pure.pure a : StateT σ Option α) := by
  intro s b s' hs
  have hb : a = b := (Prod.ext_iff.mp (Option.some.inj hs)).1
  exact hb ▸ h

theorem failure : Yields Q (Alternative.failure : StateT σ Option α) := by
  intro s a s' h
  cases h

theorem bind (hc : Yields R c) (hk : ∀ a, R a → Yields S (k a)) : Yields S (c >>= k) := by
  intro s b s' h
  obtain ⟨⟨a, s₁⟩, h₁, h₂⟩ := Option.bind_eq_some_iff.mp h
  exact hk a (hc s a s₁ h₁) s₁ b s' h₂

theorem ite (hc : Yields Q c) (hd : Yields Q d) : Yields Q (if p then c else d) := by
  split_ifs
  · exact hc
  · exact hd

theorem assertThat : Yields (fun _ ↦ p) (Foundation.assertThat p : StateT σ Option Unit) := by
  unfold Foundation.assertThat
  split_ifs with h
  · exact .pure h
  · exact .failure

end Yields

variable {s r w : List Char} {ws : List (List Char)} {c : Char}

theorem yields_scanfInt : Yields (fun o ↦ ∀ x, o = some x → Fits 32 x) scanfInt := by
  intro s o s' h x hx
  subst hx
  unfold scanfInt at h
  split at h
  · cases h
  · obtain ⟨y, hy, he⟩ := Option.map_eq_some_iff.mp h
    obtain ⟨hfit, rfl⟩ := checked_eq_some.mp hy
    rwa [Option.some.inj (Prod.ext_iff.mp he).1] at hfit

theorem words_space (h : isSpace c) : words (c :: s) = words s := by
  unfold words
  rw [List.splitOnP_cons_eq_if_modifyHead, if_pos h]
  simp

theorem words_skipSpace : words (skipSpace s) = words s := by
  induction s with
  | nil => rfl
  | cons c s ih =>
    cases h : isSpace c with
    | true => rw [skipSpace, List.dropWhile_cons_of_pos h, ← skipSpace, ih, words_space h]
    | false => rw [skipSpace, List.dropWhile_cons_of_neg (by simp [h])]

def Ends (r : List Char) : Prop := ∀ c r', r = c :: r' → isSpace c

theorem words_append (hw : w ≠ []) (hin : ∀ c ∈ w, isSpace c = false) (hr : Ends r) :
    words (w ++ r) = w :: words r := by
  cases r with
  | nil =>
    unfold words
    rw [List.append_nil, List.splitOnP_eq_singleton hin]
    simp [hw]
  | cons c r =>
    have hc := hr c r rfl
    rw [words_space hc, words, List.splitOnP_append_cons_of_forall_mem hin c hc]
    simp [hw, words]

theorem head_skipSpace (h : skipSpace s = c :: r) : isSpace c = false := by
  have hhead := List.head?_dropWhile_not isSpace s
  rw [show s.dropWhile isSpace = c :: r from h] at hhead
  simpa using hhead

theorem ends_dropWhile : Ends (s.dropWhile inWord) := by
  intro c r h
  have hhead := List.head?_dropWhile_not inWord s
  rw [h] at hhead
  simpa [inWord] using hhead

theorem isSpace_of_mem_takeWhile (h : c ∈ s.takeWhile inWord) : isSpace c = false := by
  simpa [inWord] using List.mem_takeWhile_imp h

theorem words_of_ne_nil (h : skipSpace s ≠ []) : (skipSpace s).takeWhile inWord ≠ [] ∧
    words s = (skipSpace s).takeWhile inWord :: words ((skipSpace s).dropWhile inWord) := by
  have hne : (skipSpace s).takeWhile inWord ≠ [] := by
    obtain ⟨c, t, ht⟩ := List.exists_cons_of_ne_nil h
    rw [ht, List.takeWhile_cons_of_pos (by simp [inWord, head_skipSpace ht])]
    exact List.cons_ne_nil _ _
  have hwords := words_append hne (fun _ ↦ isSpace_of_mem_takeWhile) (ends_dropWhile (s := skipSpace s))
  rw [List.takeWhile_append_dropWhile, words_skipSpace] at hwords
  exact ⟨hne, hwords⟩

theorem words_cons (h : words s = w :: ws) : ∃ r, skipSpace s = w ++ r ∧ words r = ws ∧ Ends r ∧
    w ≠ [] ∧ ∀ c ∈ w, isSpace c = false := by
  have hne : skipSpace s ≠ [] := by
    intro hnil
    rw [← words_skipSpace, hnil] at h
    cases h
  obtain ⟨hw, hwords⟩ := words_of_ne_nil hne
  rw [h, List.cons.injEq] at hwords
  obtain ⟨rfl, rfl⟩ := hwords
  exact ⟨_, List.takeWhile_append_dropWhile.symm, rfl, ends_dropWhile, hw,
    fun _ ↦ isSpace_of_mem_takeWhile⟩

theorem skipSpace_of_words (h : words s = []) : skipSpace s = [] := by
  by_contra hne
  rw [(words_of_ne_nil hne).2] at h
  cases h

theorem length_words (s : List Char) : (words s).length ≤ s.length := by
  induction hn : s.length using Nat.strong_induction_on generalizing s with
  | _ n ih =>
    by_cases hs : skipSpace s = []
    · rw [← words_skipSpace, hs]
      exact Nat.zero_le _
    · obtain ⟨hne, hwords⟩ := words_of_ne_nil hs
      have hpos := List.length_pos_of_ne_nil hne
      have hle : (skipSpace s).length ≤ s.length := List.length_dropWhile_le isSpace s
      have hsplit : ((skipSpace s).takeWhile inWord).length +
          ((skipSpace s).dropWhile inWord).length = (skipSpace s).length := by
        rw [← List.length_append, List.takeWhile_append_dropWhile]
      have := ih _ (by omega) ((skipSpace s).dropWhile inWord) rfl
      rw [hwords, List.length_cons]
      omega

def Shorter (s s' : List Char) : Prop := s'.length ≤ s.length

instance : Std.Refl Shorter := ⟨fun _ ↦ le_rfl⟩

instance : IsTrans (List Char) Shorter := ⟨fun _ _ _ h h' ↦ h'.trans h⟩

section Input

theorem length_skipSpace (s : List Char) : (skipSpace s).length ≤ s.length :=
  List.length_dropWhile_le isSpace s

theorem length_sign (s : List Char) : (sign s).2.length ≤ s.length := by
  unfold sign
  split
  · exact Nat.le_succ _
  · exact Nat.le_succ _
  · exact le_rfl

theorem length_numeral (s : List Char) : (numeral s).2.length ≤ s.length := by
  have hsign : (sign (skipSpace s)).2.length ≤ s.length :=
    (length_sign _).trans (length_skipSpace s)
  unfold numeral
  dsimp only
  split_ifs
  · exact hsign
  · exact (List.length_dropWhile_le _ _).trans hsign
  · exact (List.length_dropWhile_le _ _).trans hsign

theorem shorter_scanfUnsigned : Within Shorter scanfUnsigned := by
  intro s a s' h
  have hlen := length_numeral s
  unfold scanfUnsigned at h
  split at h
  · rename_i heq
    obtain ⟨-, rfl⟩ := Prod.ext_iff.mp (Option.some.inj h)
    rwa [heq] at hlen
  · rename_i heq
    split_ifs at h
    obtain ⟨-, rfl⟩ := Prod.ext_iff.mp (Option.some.inj h)
    rwa [heq] at hlen

theorem shorter_scanfChar (c : Char) : Within Shorter (scanfChar c) := by
  intro s a s' h
  unfold scanfChar at h
  split at h
  · obtain ⟨-, rfl⟩ := Prod.ext_iff.mp (Option.some.inj h)
    exact le_rfl
  · split_ifs at h
    · obtain ⟨-, rfl⟩ := Prod.ext_iff.mp (Option.some.inj h)
      exact Nat.le_succ _
    · obtain ⟨-, rfl⟩ := Prod.ext_iff.mp (Option.some.inj h)
      exact le_rfl

theorem length_scanfWord (h : scanfWord s = some (some w, r)) : r.length < s.length := by
  have hnil : skipSpace s ≠ [] := by
    intro hnil
    rw [scanfWord, if_pos hnil] at h
    cases h
  rw [scanfWord, if_neg hnil] at h
  obtain ⟨-, rfl⟩ := Prod.ext_iff.mp (Option.some.inj h)
  have hpos := List.length_pos_of_ne_nil (words_of_ne_nil hnil).1
  have hsplit : ((skipSpace s).takeWhile inWord).length +
      ((skipSpace s).dropWhile inWord).length = (skipSpace s).length := by
    rw [← List.length_append, List.takeWhile_append_dropWhile]
  have hlen := length_skipSpace s
  simp only
  omega

end Input

section Conversions

theorem scanfWord_nil (h : words s = []) : scanfWord s = some (none, []) := by
  rw [scanfWord, if_pos (skipSpace_of_words h)]

theorem scanfWord_cons (h : words s = w :: ws) : ∃ r, scanfWord s = some (some w, r) ∧ words r = ws := by
  obtain ⟨r, hs, hws, hr, hne, hin⟩ := words_cons h
  have hpos : ∀ c ∈ w, inWord c = true := fun c hc ↦ by simp [inWord, hin c hc]
  have htake : r.takeWhile inWord = [] := by
    cases r with
    | nil => rfl
    | cons c r => exact List.takeWhile_cons_of_neg (by simp [inWord, hr c r rfl])
  have hdrop : r.dropWhile inWord = r := by
    cases r with
    | nil => rfl
    | cons c r => exact List.dropWhile_cons_of_neg (by simp [inWord, hr c r rfl])
  refine ⟨r, ?_, hws⟩
  rw [scanfWord, hs, if_neg (by simp [hne]), List.takeWhile_append_of_pos hpos,
    List.dropWhile_append_of_pos hpos, htake, hdrop, List.append_nil]

def Numeral (x : ℤ) (w : List Char) : Prop := w ≠ [] ∧ (∀ c ∈ w, c.isDigit) ∧ x = value w

theorem numeral_iff {x : ℤ} : (w ≠ [] ∧ w.all Char.isDigit ∧ x = value w) ↔ Numeral x w := by
  rw [List.all_eq_true]
  rfl

instance (x : ℤ) (w : List Char) : Decidable (Numeral x w) := decidable_of_iff _ numeral_iff

theorem not_isDigit_of_isSpace (h : isSpace c) : c.isDigit = false := by
  unfold isSpace at h
  unfold Char.isDigit
  rw [Bool.or_eq_true, decide_eq_true_eq, Bool.and_eq_true, decide_eq_true_eq, decide_eq_true_eq] at h
  rcases h with rfl | ⟨-, hle⟩
  · rfl
  · rw [Char.le_def] at hle
    have h13 : c.val ≤ 13 := hle
    rw [Bool.and_eq_false_iff]
    left
    rw [decide_eq_false_iff_not]
    intro h48
    have := UInt32.le_trans h48 h13
    revert this
    decide

theorem sign_of_isDigit (h : c.isDigit) : sign (c :: s) = (false, c :: s) := by
  have hminus : c ≠ '-' := by
    rintro rfl
    exact absurd h (by decide)
  have hplus : c ≠ '+' := by
    rintro rfl
    exact absurd h (by decide)
  simp [sign, hminus, hplus]

theorem numeral_cons {x : ℤ} (h : words s = w :: ws) (hx : Numeral x w) :
    ∃ r, numeral s = (some x, r) ∧ words r = ws ∧ Ends r := by
  obtain ⟨r, hs, hws, hr, hne, -⟩ := words_cons h
  obtain ⟨-, hdig, rfl⟩ := hx
  have hstop : ∀ c r', r = c :: r' → c.isDigit = false :=
    fun c r' h ↦ not_isDigit_of_isSpace (hr c r' h)
  have htake : r.takeWhile Char.isDigit = [] := by
    cases r with
    | nil => rfl
    | cons c r => exact List.takeWhile_cons_of_neg (by simp [hstop c r rfl])
  have hdrop : r.dropWhile Char.isDigit = r := by
    cases r with
    | nil => rfl
    | cons c r => exact List.dropWhile_cons_of_neg (by simp [hstop c r rfl])
  have hsign : sign (w ++ r) = (false, w ++ r) := by
    obtain ⟨c, w, rfl⟩ := List.exists_cons_of_ne_nil hne
    exact sign_of_isDigit (hdig c (by simp))
  refine ⟨r, ?_, hws, hr⟩
  simp only [numeral, hs, hsign]
  rw [List.takeWhile_append_of_pos hdig, List.dropWhile_append_of_pos hdig, htake, hdrop,
    List.append_nil, if_neg hne, if_neg Bool.false_ne_true]

theorem scanfInt_cons {x : ℤ} (h : words s = w :: ws) (hx : Numeral x w) (hfit : Fits 32 x) :
    ∃ r, scanfInt s = some (some x, r) ∧ words r = ws := by
  obtain ⟨r, hs, hws, -⟩ := numeral_cons h hx
  refine ⟨r, ?_, hws⟩
  rw [scanfInt, hs]
  dsimp only
  rw [int, checked_of_fits hfit]
  rfl

theorem Numeral.nonneg {x : ℤ} (h : Numeral x w) : 0 ≤ x := h.2.2 ▸ Int.natCast_nonneg _

theorem scanfUnsigned_cons {x : ℤ} (h : words s = w :: ws) (hx : Numeral x w) (hlt : x < 2 ^ 32) :
    ∃ r, scanfUnsigned s = some (some x.toNat, r) ∧ words r = ws ∧ Ends r := by
  obtain ⟨r, hs, hws, hr⟩ := numeral_cons h hx
  have hpos := hx.nonneg
  refine ⟨r, ?_, hws, hr⟩
  rw [scanfUnsigned, hs]
  dsimp only
  rw [if_pos (by rwa [abs_of_nonneg hpos]), wrapUnsigned_of_lt hpos hlt]

theorem scanfChar_of_ends (hr : Ends r) (hc : isSpace c = false) : scanfChar c r = some ((), r) := by
  cases r with
  | nil => rfl
  | cons d r =>
    rw [scanfChar, if_neg]
    rintro rfl
    rw [hr d r rfl] at hc
    cases hc

end Conversions

end CsoLabs.Foundation.Scanf
