import CsoLabs.Foundation.Transition
import CsoLabs.Hashtable.Operations

namespace CsoLabs.Hashtable

open Foundation CInt

inductive Event
  | insert (key : CString) (val : ℕ) (result : ℤ)
  | lookup (key : CString) (result : ℕ)
deriving DecidableEq

structure Session where
  table : Htable
  log : List Event

inductive Step : Session → Session → Prop
  | insert {s : Session} {key : CString} {val : ℕ} {r : ℤ} {t : Htable} (hk : key.Ascii)
      (h : htableInsert s.table key val = some (r, t)) :
      Step s ⟨t, s.log ++ [.insert key val r]⟩
  | lookup {s : Session} {key : CString} {r : ℕ} (hk : key.Ascii)
      (h : htableLookup s.table key = some r) :
      Step s ⟨s.table, s.log ++ [.lookup key r]⟩

def Start (s : Session) : Prop :=
  s.log = [] ∧ ∃ sz a, 1 ≤ sz ∧ htableInit sz a = some s.table

def KeyChain (t : Htable) (key : CString) (xs : List ℕ) : Prop :=
  ∃ hcode p, ∃ i : ℕ, hashcode key = some hcode ∧ hcode.tmod t.size = i ∧
    t.store[i]? = some p ∧ Chain (nextOf t.nodes) NULL p xs

structure InsertFits (t : Htable) (key : CString) : Prop where
  key_length : key.chars.length < 2 ^ 31
  collisions : ∀ xs, KeyChain t key xs → xs.length < 2 ^ 31
  resize : ∀ xs, KeyChain t key xs → t.allowResize ≠ 0 → MAX_COLLISION ≤ xs.length →
    2 * t.size < 2 ^ 31

variable {t t' : Htable} {chain : ℕ → List ℕ} {m : CString → Option ℕ} {hcode r : ℤ}
  {sz a : ℤ} {key : CString} {val : ℕ} {s s' : Session}

namespace TableOk

theorem keyChain (T : TableOk t chain m) (hh : hashcode key = some hcode) (hpos : 0 ≤ hcode) :
    KeyChain t key (chain (hcode.tmod t.size).toNat) := by
  obtain ⟨p, -, hp, hchain⟩ := T.readStore hpos
  exact ⟨hcode, p, _, hh, (Int.toNat_of_nonneg (T.slot_lt hpos).1).symm, hp, hchain⟩

theorem htableInsert (T : TableOk t chain m) (hk : key.Ascii)
    (h : htableInsert t key val = some (r, t')) :
    (m key ≠ none ∧ r = 1 ∧ t' = t) ∨
      (m key = none ∧ r = 0 ∧ ∃ chain', TableOk t' chain' (Function.update m key (some val))) := by
  obtain ⟨hcode, hh, hslot⟩ := Option.bind_eq_some_iff.mp h
  have hpos := hashcode_nonneg hk hh
  rw [T.slotOf, Option.bind_eq_bind, Option.bind_some] at hslot
  obtain ⟨⟨c, t₁⟩, ht₁, hr⟩ := Option.bind_eq_some_iff.mp hslot
  rcases T.insertAt hh hpos ht₁ with ⟨hm, rfl, rfl⟩ | ⟨hm, rfl, chain₁, T₁, -⟩
  · simp only [Option.some_inj, Prod.mk.injEq] at hr
    exact .inl ⟨hm, hr.1.symm, hr.2.symm⟩
  · simp only at hr
    split_ifs at hr
    · obtain ⟨t₂, ht₂, hret⟩ := Option.bind_eq_some_iff.mp hr
      obtain ⟨chain₂, T₂, -⟩ := T₁.htableResize ht₂
      simp only [Option.some_inj, Prod.mk.injEq] at hret
      obtain ⟨rfl, rfl⟩ := hret
      exact .inr ⟨hm, rfl, chain₂, T₂⟩
    · simp only [Option.some_inj, Prod.mk.injEq] at hr
      obtain ⟨rfl, rfl⟩ := hr
      exact .inr ⟨hm, rfl, chain₁, T₁⟩

theorem htableInsert_isSome (T : TableOk t chain m) (hk : key.Ascii) (hf : InsertFits t key) :
    ∃ r t', Hashtable.htableInsert t key val = some (r, t') := by
  obtain ⟨hcode, hh, hpos, -⟩ := hashcode_eq hk hf.key_length
  have hchain := T.keyChain hh hpos
  obtain ⟨c, t₁, ht₁⟩ := T.insertAt_isSome val hh hpos (hf.collisions _ hchain)
  rw [Hashtable.htableInsert, hh, Option.bind_eq_bind, Option.bind_some, T.slotOf,
    Option.bind_eq_bind, Option.bind_some, ht₁, Option.bind_eq_bind, Option.bind_some]
  rcases T.insertAt hh hpos ht₁ with ⟨-, rfl, -⟩ | ⟨-, rfl, chain₁, T₁, hsize, hallow⟩
  · exact ⟨_, _, rfl⟩
  · simp only
    split_ifs with hres
    · rw [hallow] at hres
      have hdouble : 2 * t₁.size < 2 ^ 31 := by
        rw [hsize]
        exact hf.resize _ hchain hres.1 hres.2
      obtain ⟨t₂, ht₂⟩ := T₁.htableResize_isSome hdouble
      rw [ht₂]
      exact ⟨_, _, rfl⟩
    · exact ⟨_, _, rfl⟩

theorem htableLookup (T : TableOk t chain m) (hk : key.Ascii) (hh : hashcode key = some hcode) :
    Hashtable.htableLookup t key = some ((m key).getD NULL) := by
  rw [Hashtable.htableLookup, hh, Option.bind_eq_bind, Option.bind_some, T.slotOf,
    Option.bind_some, T.lookupAt hh (hashcode_nonneg hk hh)]

end TableOk

/-- The table holds what the inserts that returned 0 put there. -/
def Represents (s : Session) (chain : ℕ → List ℕ) (m : CString → Option ℕ) : Prop :=
  TableOk s.table chain m ∧ ∀ k v, m k = some v ↔ .insert k v 0 ∈ s.log

theorem Represents.step (h : Represents s chain m) (hs : Step s s') :
    ∃ chain' m', Represents s' chain' m' := by
  obtain ⟨T, hm⟩ := h
  cases hs with
  | @insert key val r t hk h =>
    rcases T.htableInsert hk h with ⟨-, rfl, rfl⟩ | ⟨hnew, rfl, chain', T'⟩
    · exact ⟨chain, m, T, fun k v ↦ by simp [hm]⟩
    · refine ⟨chain', _, T', fun k v ↦ ?_⟩
      simp only [List.mem_append, List.mem_singleton, Event.insert.injEq, and_true, ← hm]
      by_cases hk : k = key
      · subst hk
        simp [hnew, eq_comm]
      · simp [hk]
  | lookup hk h => exact ⟨chain, m, T, fun k v ↦ by simp [hm]⟩

theorem htableInit_eq {min p : ℤ} (hmin : int (sz + 1) = some min) (hp : getPrime min = some p) :
    htableInit sz a = some ⟨a, p, List.replicate p.toNat NULL, fun _ ↦ none, 1⟩ := by
  rw [htableInit, hmin, Option.bind_eq_bind, Option.bind_some, hp]
  rfl

def emptyTable (a : ℤ) : Htable := ⟨a, 2, [NULL, NULL], fun _ ↦ none, 1⟩

theorem htableInit_one : htableInit 1 a = some (emptyTable a) :=
  htableInit_eq rfl (getPrime_turn (by norm_num))

def keyA (n : ℕ) : CString := manyA n

theorem keyA_ascii (n : ℕ) : (keyA n).Ascii := manyA_ascii n

end CsoLabs.Hashtable
