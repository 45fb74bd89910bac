import Mathlib.Tactic

namespace CsoLabs.Foundation.ByteMemory

abbrev Memory := ℕ → UInt8

/-- The little-endian value of the `n` bytes from `a` on. -/
def load (m : Memory) (a : ℕ) : ℕ → ℕ
  | 0 => 0
  | n + 1 => (m a).toNat + 256 * load m (a + 1) n

def store (m : Memory) (a : ℕ) : ℕ → ℕ → Memory
  | 0, _ => m
  | n + 1, v => Function.update (store m (a + 1) n (v / 256)) a (UInt8.ofNat v)

/-- `memcpy` of `n` bytes between regions that do not overlap. -/
def copy (m : Memory) (dst src n : ℕ) : Memory := fun b ↦
  if dst ≤ b ∧ b < dst + n then m (src + (b - dst)) else m b

theorem store_of_outside (m : Memory) (a n v : ℕ) {b : ℕ} (h : b < a ∨ a + n ≤ b) :
    store m a n v b = m b := by
  induction n generalizing a v with
  | zero => rfl
  | succ n ih =>
    rw [store, Function.update_of_ne (by omega)]
    exact ih _ _ (by omega)

theorem load_congr {m m' : Memory} {a n : ℕ} (h : ∀ b, a ≤ b → b < a + n → m b = m' b) :
    load m a n = load m' a n := by
  induction n generalizing a with
  | zero => rfl
  | succ n ih =>
    rw [load, load, h a le_rfl (by omega), ih (fun b hb hb' ↦ h b (by omega) (by omega))]

theorem load_store_of_disjoint (m : Memory) {a n v b k : ℕ} (h : b + k ≤ a ∨ a + n ≤ b) :
    load (store m a n v) b k = load m b k :=
  load_congr (fun _ _ _ ↦ store_of_outside m a n v (by omega))

theorem load_store (m : Memory) (a n v : ℕ) : load (store m a n v) a n = v % 256 ^ n := by
  induction n generalizing a v with
  | zero => simp [load, Nat.mod_one]
  | succ n ih =>
    have hrest : load (store m a (n + 1) v) (a + 1) n =
        load (store m (a + 1) n (v / 256)) (a + 1) n :=
      load_congr (fun b hb _ ↦ by rw [store, Function.update_of_ne (by omega)])
    have hb : (UInt8.ofNat v).toNat = v % 256 := by simp
    rw [load, hrest, ih, store, Function.update_self, hb, pow_succ, mul_comm (256 ^ n),
      Nat.mod_mul]

theorem load_store_of_lt (m : Memory) (a : ℕ) {n v : ℕ} (h : v < 256 ^ n) :
    load (store m a n v) a n = v := by
  rw [load_store, Nat.mod_eq_of_lt h]

theorem copy_of_outside (m : Memory) (dst src n : ℕ) {b : ℕ} (h : b < dst ∨ dst + n ≤ b) :
    copy m dst src n b = m b := if_neg (by omega)

theorem copy_inside (m : Memory) (dst src : ℕ) {n i : ℕ} (h : i < n) :
    copy m dst src n (dst + i) = m (src + i) := by
  rw [copy, if_pos (by omega), Nat.add_sub_cancel_left]

attribute [irreducible] load store

end CsoLabs.Foundation.ByteMemory
