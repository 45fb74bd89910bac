import Mathlib.Tactic

namespace CsoLabs.Foundation.CArray

variable {α : Type*}

/-- Reads `a[i]`. An access outside the array is undefined behaviour, here `none`. -/
def load (a : List α) (i : ℤ) : Option α := if 0 ≤ i then a[i.toNat]? else none

def store (a : List α) (i : ℤ) (x : α) : Option (List α) :=
  if 0 ≤ i ∧ i < a.length then some (a.set i.toNat x) else none

variable {a b : List α} {i : ℤ} {x y z : α}

theorem load_eq_none (h : a.length ≤ i) : load a i = none := by
  have hle : a.length ≤ i.toNat := by omega
  rw [load, List.getElem?_eq_none hle, ite_self]

theorem load_natCast (a : List α) (k : ℕ) : load a k = a[k]? := by
  rw [load, if_pos (Int.natCast_nonneg k), Int.toNat_natCast]

theorem store_natCast {k : ℕ} (hk : k < a.length) : store a k x = some (a.set k x) := by
  rw [store, if_pos ⟨Int.natCast_nonneg k, Int.ofNat_lt.mpr hk⟩, Int.toNat_natCast]

theorem load_append : load (a ++ x :: b) a.length = some x := by
  rw [load, if_pos (Int.natCast_nonneg _), Int.toNat_natCast, List.getElem?_append_right le_rfl,
    Nat.sub_self, List.getElem?_cons_zero]

theorem store_append : store (a ++ x :: b) a.length y = some (a ++ y :: b) := by
  rw [store, if_pos ⟨Int.natCast_nonneg _, by simp⟩, Int.toNat_natCast,
    List.set_append_right a.length y le_rfl, Nat.sub_self, List.set_cons_zero]

theorem load_append_succ : load (a ++ x :: y :: b) ((a.length : ℤ) + 1) = some y := by
  have h : load (a ++ [x] ++ y :: b) (a ++ [x]).length = some y := load_append
  rwa [List.append_assoc, List.singleton_append, List.length_append, List.length_singleton,
    Nat.cast_add_one] at h

theorem store_append_succ :
    store (a ++ x :: y :: b) ((a.length : ℤ) + 1) z = some (a ++ x :: z :: b) := by
  have h : store (a ++ [x] ++ y :: b) (a ++ [x]).length z = some (a ++ [x] ++ z :: b) :=
    store_append
  rwa [List.append_assoc, List.append_assoc, List.singleton_append, List.singleton_append,
    List.length_append, List.length_singleton, Nat.cast_add_one] at h

theorem store_isSome (hl : 0 ≤ i) (hu : i < a.length) (x : α) : ∃ b, store a i x = some b :=
  ⟨_, if_pos ⟨hl, hu⟩⟩

theorem length_store (h : store a i x = some b) : b.length = a.length := by
  unfold store at h
  split_ifs at h
  rw [← Option.some.inj h, List.length_set]

end CsoLabs.Foundation.CArray
