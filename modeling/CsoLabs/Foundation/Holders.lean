import Mathlib.Tactic

namespace CsoLabs.Foundation

inductive Mode
  | read
  | write
deriving DecidableEq

/-- Who holds a reader-writer lock: any number of readers, or one writer alone. -/
inductive Holders (T : Type*)
  | readers (ts : Finset T)
  | writer (t : T)

namespace Holders

variable {T : Type*} {l l' : Holders T} {t u : T} {mode mode' : Mode}

def free : Holders T := .readers ∅

def Held (l : Holders T) (t : T) : Mode → Prop
  | .read => ∃ ts, l = .readers ts ∧ t ∈ ts
  | .write => l = .writer t

theorem Held.alone (h : l.Held t .write) (hu : l.Held u mode) : u = t ∧ mode = .write := by
  obtain rfl : l = .writer t := h
  cases mode with
  | read =>
    obtain ⟨ts, hts, -⟩ := hu
    cases hts
  | write =>
    have he : (.writer t : Holders T) = .writer u := hu
    injection he with he
    exact ⟨he.symm, rfl⟩

variable [DecidableEq T]

def acquire (l : Holders T) (t : T) : Mode → Option (Holders T)
  | .read => match l with
    | .readers ts => some (.readers (insert t ts))
    | .writer _ => none
  | .write => match l with
    | .readers ts => if ts = ∅ then some (.writer t) else none
    | .writer _ => none

def release (l : Holders T) (t : T) : Holders T :=
  match l with
  | .readers ts => .readers (ts.erase t)
  | .writer _ => free

theorem acquire_held (h : l.acquire t mode = some l') : l'.Held t mode := by
  cases mode <;> cases l with
  | writer v => cases h
  | readers ts =>
    first
    | obtain rfl := Option.some.inj h
      exact ⟨_, rfl, Finset.mem_insert_self t ts⟩
    | simp only [acquire] at h
      split_ifs at h
      exact (Option.some.inj h).symm

theorem acquire_frame (h : l.acquire t mode = some l') (hu : l.Held u mode') : l'.Held u mode' := by
  cases l with
  | writer v => cases mode <;> cases h
  | readers ts =>
    cases mode' with
    | write => cases hu
    | read =>
      obtain ⟨ts', hts, hmem⟩ := hu
      obtain rfl : ts = ts' := by injection hts
      cases mode with
      | read =>
        obtain rfl := Option.some.inj h
        exact ⟨_, rfl, Finset.mem_insert_of_mem hmem⟩
      | write =>
        simp only [acquire] at h
        split_ifs at h with hempty
        rw [hempty] at hmem
        exact absurd hmem (Finset.notMem_empty u)

theorem release_frame (h : l.Held t mode) (hut : u ≠ t) (hu : l.Held u mode') :
    (l.release t).Held u mode' := by
  cases l with
  | writer v =>
    cases mode with
    | read =>
      obtain ⟨ts, hts, -⟩ := h
      cases hts
    | write => exact absurd (h.alone hu).1 hut
  | readers ts =>
    cases mode' with
    | write => cases hu
    | read =>
      obtain ⟨ts', hts, hmem⟩ := hu
      obtain rfl : ts = ts' := by injection hts
      exact ⟨_, rfl, Finset.mem_erase.mpr ⟨hut, hmem⟩⟩

end Holders
end CsoLabs.Foundation
