import Mathlib.Tactic

namespace CsoLabs.Foundation

/-- A NUL-terminated string of signed chars: the chars before its first NUL. -/
structure CString where
  chars : List Int8
  nonNul : ∀ c ∈ chars, c ≠ 0

namespace CString

/-- Reads `s[i]`. The terminating NUL is readable, nothing beyond it is. -/
def read (s : CString) (i : ℤ) : Option Int8 :=
  if 0 ≤ i then (s.chars ++ [0])[i.toNat]? else none

def Ascii (s : CString) : Prop := ∀ c ∈ s.chars, 0 < c

instance (s : CString) : Decidable s.Ascii := List.decidableBAll (0 < ·) s.chars

instance : DecidableEq CString := fun s t ↦
  decidable_of_iff (s.chars = t.chars) ⟨fun h ↦ by cases s; cases t; congr, fun h ↦ h ▸ rfl⟩

@[ext] theorem ext {s t : CString} (h : s.chars = t.chars) : s = t := by
  cases s; cases t; congr

/-- The value of a char as `strcmp` compares it. -/
def uchar (c : Int8) : ℤ := c.toUInt8.toNat

def strcmpLoop : List Int8 → List Int8 → ℤ
  | [], [] => 0
  | [], d :: _ => -uchar d
  | c :: _, [] => uchar c
  | c :: s, d :: t => if c = d then strcmpLoop s t else uchar c - uchar d

def strcmp (s t : CString) : ℤ := strcmpLoop s.chars t.chars

theorem uchar_injective : Function.Injective uchar := by
  intro c d h
  have : c.toUInt8 = d.toUInt8 := UInt8.toNat_inj.mp (by unfold uchar at h; exact_mod_cast h)
  exact Int8.toInt.inj (congrArg (fun u ↦ u.toInt8.toInt) this)

theorem strcmpLoop_eq_zero {s t : List Int8} (hs : ∀ c ∈ s, c ≠ 0) (ht : ∀ c ∈ t, c ≠ 0) :
    strcmpLoop s t = 0 ↔ s = t := by
  have hne : ∀ c : Int8, c ≠ 0 → uchar c ≠ 0 := fun c hc h ↦
    hc (uchar_injective (h.trans (by decide : (0 : ℤ) = uchar 0)))
  induction s generalizing t with
  | nil =>
    cases t with
    | nil => simp [strcmpLoop]
    | cons d t => simpa [strcmpLoop] using hne d (ht d (by simp))
  | cons c s ih =>
    cases t with
    | nil => simpa [strcmpLoop] using hne c (hs c (by simp))
    | cons d t =>
      rw [strcmpLoop, List.cons.injEq]
      split_ifs with hcd
      · have := ih (t := t) (fun e he ↦ hs e (by simp [he])) (fun e he ↦ ht e (by simp [he]))
        simpa [hcd] using this
      · simp only [hcd, false_and, iff_false]
        exact fun h ↦ hcd (uchar_injective (by omega))

theorem strcmp_eq_zero {s t : CString} : s.strcmp t = 0 ↔ s = t := by
  rw [strcmp, strcmpLoop_eq_zero s.nonNul t.nonNul]
  exact ⟨fun h ↦ ext h, fun h ↦ h ▸ rfl⟩

theorem read_lt {s : CString} {i : ℕ} (h : i < s.chars.length) : s.read i = some s.chars[i] := by
  simp only [read, Int.natCast_nonneg, if_true, Int.toNat_natCast, List.getElem?_append_left h]
  exact List.getElem?_eq_getElem h

theorem read_length (s : CString) : s.read s.chars.length = some 0 := by
  simp [read]

theorem read_neg {s : CString} {i : ℤ} (h : i < 0) : s.read i = none :=
  if_neg (by omega)

theorem read_isSome {s : CString} {i : ℕ} (h : i ≤ s.chars.length) : ∃ c, s.read i = some c := by
  rcases Nat.lt_or_eq_of_le h with h | rfl
  · exact ⟨_, read_lt h⟩
  · exact ⟨_, read_length s⟩

theorem read_eq_zero {s : CString} {i : ℕ} (h : i ≤ s.chars.length) (hr : s.read i = some 0) :
    i = s.chars.length := by
  by_contra hne
  have hlt : i < s.chars.length := by omega
  rw [read_lt hlt, Option.some_inj] at hr
  exact s.nonNul _ (List.getElem_mem _) hr

theorem Ascii.toInt_pos {s : CString} (hs : s.Ascii) {c : Int8} (hc : c ∈ s.chars) :
    0 < c.toInt := by
  have h := Int8.lt_iff_toInt_lt.mp (hs c hc)
  simpa using h

theorem toInt_bounds (c : Int8) : -128 ≤ c.toInt ∧ c.toInt ≤ 127 :=
  ⟨by have := c.le_toInt; omega, by have := c.toInt_lt; omega⟩

end CString

def strA : CString := ⟨[97], by simp⟩
def strB : CString := ⟨[98], by simp⟩

def manyA (n : ℕ) : CString :=
  ⟨List.replicate n 97, fun c hc ↦ by rw [List.eq_of_mem_replicate hc]; decide⟩

theorem manyA_ascii (n : ℕ) : (manyA n).Ascii := fun c hc ↦ by
  rw [List.eq_of_mem_replicate hc]
  decide

theorem length_manyA (n : ℕ) : (manyA n).chars.length = n := List.length_replicate

end CsoLabs.Foundation
