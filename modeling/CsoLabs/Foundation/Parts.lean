import Mathlib.Tactic

namespace CsoLabs.Foundation.Parts

variable {α β : Type*} {g g' : α → Option (List β)} {xs : List α} {as bs : List (List β)}

theorem mapM_cons_eq {x : α} (h : (x :: xs).mapM g = some as) :
    ∃ a as', g x = some a ∧ xs.mapM g = some as' ∧ as = a :: as' := by
  rw [List.mapM_cons] at h
  obtain ⟨a, ha, h⟩ := Option.bind_eq_some_iff.mp h
  obtain ⟨as', has, h⟩ := Option.bind_eq_some_iff.mp h
  exact ⟨a, as', ha, has, (Option.some.inj h).symm⟩

theorem length_flatten_le (ha : xs.mapM g = some as) (hb : xs.mapM g' = some bs)
    (hle : ∀ x ∈ xs, ∀ a b, g x = some a → g' x = some b → a.length ≤ b.length) :
    as.flatten.length ≤ bs.flatten.length := by
  induction xs generalizing as bs with
  | nil =>
    obtain rfl : [] = as := Option.some.inj ha
    exact Nat.zero_le _
  | cons x xs ih =>
    obtain ⟨a, as, hga, has, rfl⟩ := mapM_cons_eq ha
    obtain ⟨b, bs, hgb, hbs, rfl⟩ := mapM_cons_eq hb
    have hhead := hle x List.mem_cons_self a b hga hgb
    have htail := ih has hbs fun y hy ↦ hle y (List.mem_cons_of_mem x hy)
    rw [List.flatten_cons, List.flatten_cons, List.length_append, List.length_append]
    exact Nat.add_le_add hhead htail

theorem eq_of_flatten_eq (ha : xs.mapM g = some as) (hb : xs.mapM g' = some bs)
    (hle : ∀ x ∈ xs, ∀ a b, g x = some a → g' x = some b → a.length ≤ b.length)
    (h : as.flatten = bs.flatten) : ∀ x ∈ xs, ∃ a, g x = some a ∧ g' x = some a := by
  induction xs generalizing as bs with
  | nil => exact fun x hx ↦ absurd hx List.not_mem_nil
  | cons x xs ih =>
    obtain ⟨a, as, hga, has, rfl⟩ := mapM_cons_eq ha
    obtain ⟨b, bs, hgb, hbs, rfl⟩ := mapM_cons_eq hb
    have hle' := fun y hy ↦ hle y (List.mem_cons_of_mem x hy)
    have hhead := hle x List.mem_cons_self a b hga hgb
    have htail := length_flatten_le has hbs hle'
    have hlen := congrArg List.length h
    rw [List.flatten_cons, List.flatten_cons] at h
    rw [List.flatten_cons, List.flatten_cons, List.length_append, List.length_append] at hlen
    obtain ⟨rfl, hrest⟩ := List.append_inj h (by omega)
    intro y hy
    rcases List.mem_cons.mp hy with rfl | hy
    · exact ⟨a, hga, hgb⟩
    · exact ih has hbs hle' hrest y hy

theorem mapM_eq_of_mem (h : ∀ x ∈ xs, g x = g' x) : xs.mapM g = xs.mapM g' := by
  induction xs with
  | nil => rfl
  | cons x xs ih =>
    rw [List.mapM_cons, List.mapM_cons, h x List.mem_cons_self,
      ih fun y hy ↦ h y (List.mem_cons_of_mem x hy)]

theorem exists_mapM (h : ∀ x ∈ xs, ∃ a, g x = some a) : ∃ as, xs.mapM g = some as := by
  induction xs with
  | nil => exact ⟨[], rfl⟩
  | cons x xs ih =>
    obtain ⟨a, ha⟩ := h x List.mem_cons_self
    obtain ⟨as, has⟩ := ih fun y hy ↦ h y (List.mem_cons_of_mem x hy)
    exact ⟨a :: as, by rw [List.mapM_cons, ha, has]; rfl⟩

end CsoLabs.Foundation.Parts
