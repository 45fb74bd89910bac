import Mathlib.Tactic

namespace CsoLabs.Foundation

@[ext] structure Extent where
  addr : ℕ
  size : ℕ
deriving DecidableEq

namespace Extent

def stop (c : Extent) : ℕ := c.addr + c.size

def Has (c : Extent) (b : ℕ) : Prop := c.addr ≤ b ∧ b < c.stop

def Apart (c d : Extent) : Prop := c.stop ≤ d.addr ∨ d.stop ≤ c.addr

theorem Apart.symm {c d : Extent} (h : c.Apart d) : d.Apart c := h.elim .inr .inl

instance : Std.Symm Apart := ⟨fun _ _ ↦ Apart.symm⟩

theorem apart_iff {c d : Extent} (hc : 0 < c.size) (hd : 0 < d.size) :
    c.Apart d ↔ ∀ b, ¬ (c.Has b ∧ d.Has b) := by
  unfold Apart Has stop
  constructor
  · omega
  · intro h
    have h₁ := h c.addr
    have h₂ := h d.addr
    omega

end Extent

open Extent

def Covered (xs : List Extent) (b : ℕ) : Prop := ∃ c ∈ xs, c.Has b

/-- In ascending order, and no extent ends where another one begins. -/
def Separated (xs : List Extent) : Prop := xs.Pairwise fun c d ↦ c.stop < d.addr

section Covered

variable {xs ys : List Extent} {c : Extent} {b : ℕ}

@[simp] theorem covered_nil : ¬ Covered [] b := by simp [Covered]

@[simp] theorem covered_cons : Covered (c :: xs) b ↔ c.Has b ∨ Covered xs b := by
  simp [Covered]

@[simp] theorem covered_append : Covered (xs ++ ys) b ↔ Covered xs b ∨ Covered ys b := by
  simp [Covered, or_and_right, exists_or]

theorem Covered.of_mem (hc : c ∈ xs) (hb : c.Has b) : Covered xs b := ⟨c, hc, hb⟩

end Covered

namespace Separated

variable {xs ys : List Extent} {c d : Extent} {b : ℕ}

theorem lt_of_tail (h : Separated (c :: xs)) (hb : Covered xs b) : c.stop < b := by
  obtain ⟨e, he, hle, -⟩ := hb
  exact ((List.pairwise_cons.mp h).1 e he).trans_le hle

theorem addr_le (h : Separated (c :: xs)) (hb : Covered (c :: xs) b) : c.addr ≤ b := by
  rcases covered_cons.mp hb with hb | hb
  · exact hb.1
  · have := h.lt_of_tail hb
    unfold stop at this
    omega

theorem not_covered_stop (h : Separated (c :: xs)) : ¬ Covered (c :: xs) c.stop := by
  intro hb
  rcases covered_cons.mp hb with hb | hb
  · exact lt_irrefl _ hb.2
  · exact lt_irrefl _ (h.lt_of_tail hb)

/-- The first extent is determined by the addresses covered: it starts at the least of
them and reaches to the first gap. -/
theorem head_eq (hx : Separated (c :: xs)) (hy : Separated (d :: ys)) (hc : 0 < c.size)
    (hd : 0 < d.size) (h : ∀ b, Covered (c :: xs) b ↔ Covered (d :: ys) b) : c = d := by
  have hca : c.Has c.addr := ⟨le_rfl, by unfold stop; omega⟩
  have hda : d.Has d.addr := ⟨le_rfl, by unfold stop; omega⟩
  have haddr : c.addr = d.addr := le_antisymm
    (hx.addr_le ((h d.addr).mpr (.of_mem (by simp) hda)))
    (hy.addr_le ((h c.addr).mp (.of_mem (by simp) hca)))
  have hstop : c.stop = d.stop := by
    rcases lt_trichotomy c.stop d.stop with hlt | heq | hgt
    · exact absurd ((h c.stop).mpr (.of_mem (c := d) (by simp)
        ⟨by unfold stop; omega, hlt⟩)) hx.not_covered_stop
    · exact heq
    · exact absurd ((h d.stop).mp (.of_mem (c := c) (by simp)
        ⟨by unfold stop; omega, hgt⟩)) hy.not_covered_stop
  unfold stop at hstop
  exact Extent.ext haddr (by omega)

theorem eq_of_covered (hx : Separated xs) (hy : Separated ys) (hpx : ∀ c ∈ xs, 0 < c.size)
    (hpy : ∀ c ∈ ys, 0 < c.size) (h : ∀ b, Covered xs b ↔ Covered ys b) : xs = ys := by
  induction xs generalizing ys with
  | nil =>
    cases ys with
    | nil => rfl
    | cons d ys =>
      have hd := hpy d (by simp)
      exact absurd ((h d.addr).mpr (.of_mem (c := d) (by simp) ⟨le_rfl, by unfold stop; omega⟩))
        covered_nil
  | cons c xs ih =>
    have hc := hpx c (by simp)
    cases ys with
    | nil =>
      exact absurd ((h c.addr).mp (.of_mem (c := c) (by simp) ⟨le_rfl, by unfold stop; omega⟩))
        covered_nil
    | cons d ys =>
      obtain rfl := head_eq hx hy hc (hpy d (by simp)) h
      rw [ih (List.pairwise_cons.mp hx).2 (List.pairwise_cons.mp hy).2
        (fun e he ↦ hpx e (by simp [he])) (fun e he ↦ hpy e (by simp [he])) (fun b ↦ ?_)]
      have hb := h b
      simp only [covered_cons] at hb
      constructor
      · exact fun hcov ↦ (hb.mp (.inr hcov)).resolve_left
          fun hin ↦ lt_asymm hin.2 (hx.lt_of_tail hcov)
      · exact fun hcov ↦ (hb.mpr (.inr hcov)).resolve_left
          fun hin ↦ lt_asymm hin.2 (hy.lt_of_tail hcov)

end Separated

def absorb (x : Extent) : List Extent → List Extent
  | [] => [x]
  | y :: r => if x.stop = y.addr then ⟨x.addr, x.size + y.size⟩ :: r else x :: y :: r

/-- Puts `x` between `l` and `r`, joined with its successor and then its predecessor. -/
def coalesce (l : List Extent) (x : Extent) (r : List Extent) : List Extent :=
  match l.getLast? with
  | none => absorb x r
  | some p => l.dropLast ++ absorb p (absorb x r)

section Coalesce

variable {l r : List Extent} {x p : Extent} {b : ℕ}

@[simp] theorem coalesce_nil : coalesce [] x r = absorb x r := rfl

@[simp] theorem coalesce_concat :
    coalesce (l ++ [p]) x r = l ++ absorb p (absorb x r) := by
  simp [coalesce]

theorem absorb_of_separated (h : Separated (x :: r)) : absorb x r = x :: r := by
  cases r with
  | nil => rfl
  | cons d r =>
    have := (List.pairwise_cons.mp h).1 d (by simp)
    rw [absorb, if_neg (by omega)]

theorem coalesce_of_separated (h : Separated (l ++ x :: r)) : coalesce l x r = l ++ x :: r := by
  rcases List.eq_nil_or_concat l with rfl | ⟨l, p, rfl⟩
  · exact absorb_of_separated h
  · rw [List.concat_eq_append] at h ⊢
    rw [List.append_assoc, List.singleton_append] at h ⊢
    have hp : Separated (p :: x :: r) := h.sublist (List.sublist_append_right _ _)
    rw [coalesce_concat, absorb_of_separated hp.of_cons, absorb_of_separated hp]

theorem Separated.replace (h : Separated (l ++ x :: r)) (haddr : x.addr ≤ p.addr)
    (hstop : p.stop ≤ x.stop) : Separated (l ++ p :: r) := by
  obtain ⟨hl, hr, hlr⟩ := List.pairwise_append.mp h
  obtain ⟨hxr, hr⟩ := List.pairwise_cons.mp hr
  refine List.pairwise_append.mpr
    ⟨hl, List.pairwise_cons.mpr ⟨fun c hc ↦ ?_, hr⟩, fun c hc d hd ↦ ?_⟩
  · exact hstop.trans_lt (hxr c hc)
  · rcases List.mem_cons.mp hd with rfl | hd
    · exact (hlr c hc x (by simp)).trans_le haddr
    · exact hlr c hc d (by simp [hd])

/-- There is only one place for `x` in a list of extents that it is separated from. -/
theorem Separated.split_unique {l' r' : List Extent} (h : Separated (l ++ x :: r))
    (heq : l ++ r = l' ++ r') (hl : ∀ c ∈ l', c.stop ≤ x.addr) (hr : ∀ c ∈ r', x.stop ≤ c.addr) :
    l = l' ∧ r = r' := by
  obtain ⟨-, hxr, hlx⟩ := List.pairwise_append.mp h
  rcases List.append_eq_append_iff.mp heq with ⟨m, rfl, rfl⟩ | ⟨m, rfl, rfl⟩
  · cases m with
    | nil => simp
    | cons c m =>
      have h₁ := hl c (by simp)
      have h₂ := (List.pairwise_cons.mp hxr).1 c (by simp)
      unfold stop at *
      omega
  · cases m with
    | nil => simp
    | cons c m =>
      have h₁ := hr c (by simp)
      have h₂ := hlx c (by simp) x (by simp)
      unfold stop at *
      omega

theorem covered_absorb : Covered (absorb x r) b ↔ x.Has b ∨ Covered r b := by
  cases r with
  | nil => simp [absorb]
  | cons y r =>
    rw [absorb]
    split_ifs with h
    · have hjoin : (⟨x.addr, x.size + y.size⟩ : Extent).Has b ↔ x.Has b ∨ y.Has b := by
        simp only [Has, stop] at *
        omega
      rw [covered_cons, covered_cons, hjoin, or_assoc]
    · simp

theorem absorb_separated (hr : Separated r) (hx : ∀ c ∈ r, x.stop ≤ c.addr)
    (hp : ∀ c ∈ r, 0 < c.size) : Separated (absorb x r) := by
  cases r with
  | nil => simp [absorb, Separated]
  | cons y r =>
    obtain ⟨hyr, hr⟩ := List.pairwise_cons.mp hr
    have hxy := hx y (by simp)
    have hy := hp y (by simp)
    rw [absorb]
    split_ifs with h
    · refine List.pairwise_cons.mpr ⟨fun c hc ↦ ?_, hr⟩
      have := hyr c hc
      unfold stop at *
      simp only
      omega
    · refine List.pairwise_cons.mpr ⟨fun c hc ↦ ?_, List.pairwise_cons.mpr ⟨hyr, hr⟩⟩
      rcases List.mem_cons.mp hc with rfl | hc
      · omega
      · have := hyr c hc
        unfold stop at *
        omega

theorem absorb_forall {P : Extent → Prop} (hx : P x) (hr : ∀ c ∈ r, P c)
    (hadd : ∀ c d, P c → P d → c.stop = d.addr → P ⟨c.addr, c.size + d.size⟩) :
    ∀ c ∈ absorb x r, P c := by
  cases r with
  | nil => simpa [absorb] using hx
  | cons y r =>
    simp only [List.mem_cons, forall_eq_or_imp] at hr
    rw [absorb]
    split_ifs with h
    · simpa using ⟨hadd x y hx hr.1 h, hr.2⟩
    · simpa using ⟨hx, hr⟩

theorem covered_coalesce :
    Covered (coalesce l x r) b ↔ Covered l b ∨ x.Has b ∨ Covered r b := by
  rcases List.eq_nil_or_concat' l with rfl | ⟨l, p, rfl⟩
  · simp [covered_absorb]
  · simp [covered_absorb, or_assoc]

theorem coalesce_forall {P : Extent → Prop} (hl : ∀ c ∈ l, P c) (hx : P x) (hr : ∀ c ∈ r, P c)
    (hadd : ∀ c d, P c → P d → c.stop = d.addr → P ⟨c.addr, c.size + d.size⟩) :
    ∀ c ∈ coalesce l x r, P c := by
  rcases List.eq_nil_or_concat' l with rfl | ⟨l, p, rfl⟩
  · exact absorb_forall hx hr hadd
  · rw [coalesce_concat]
    intro c hc
    rcases List.mem_append.mp hc with hc | hc
    · exact hl c (by simp [hc])
    · exact absorb_forall (hl p (by simp)) (absorb_forall hx hr hadd) hadd c hc

theorem coalesce_separated (h : Separated (l ++ r)) (hl : ∀ c ∈ l, c.stop ≤ x.addr)
    (hr : ∀ c ∈ r, x.stop ≤ c.addr) (hpl : ∀ c ∈ l, 0 < c.size) (hpx : 0 < x.size)
    (hpr : ∀ c ∈ r, 0 < c.size) : Separated (coalesce l x r) := by
  obtain ⟨hsl, hsr, -⟩ := List.pairwise_append.mp h
  have hxr := absorb_separated hsr hr hpr
  rcases List.eq_nil_or_concat' l with rfl | ⟨l, p, rfl⟩
  · exact hxr
  · have hbehind : ∀ c ∈ absorb x r, x.addr ≤ c.addr ∧ 0 < c.size := by
      refine absorb_forall ⟨le_rfl, hpx⟩ (fun c hc ↦ ⟨?_, hpr c hc⟩)
        (fun c d hc hd _ ↦ ⟨hc.1, by simp only; omega⟩)
      have := hr c hc
      unfold stop at this
      omega
    have hp := hl p (by simp)
    obtain ⟨hl', -, hlp⟩ := List.pairwise_append.mp hsl
    rw [coalesce_concat]
    refine List.pairwise_append.mpr ⟨hl', absorb_separated hxr (fun c hc ↦ ?_)
      (fun c hc ↦ (hbehind c hc).2), fun c hc d hd ↦ ?_⟩
    · exact hp.trans (hbehind c hc).1
    · have hcp := hlp c hc p (by simp)
      have hpd : p.addr ≤ d.addr := by
        refine absorb_forall (P := fun e ↦ p.addr ≤ e.addr) le_rfl (fun e he ↦ ?_)
          (fun _ _ h _ _ ↦ h) d hd
        have := (hbehind e he).1
        unfold stop at hp
        omega
      omega

end Coalesce

section Packing

open Extent

variable {xs : List Extent} {lo hi : ℕ}

def byteSet (xs : List Extent) : Finset ℕ := xs.foldr (fun c u ↦ Finset.Ico c.addr c.stop ∪ u) ∅

theorem mem_byteSet {b : ℕ} : b ∈ byteSet xs ↔ Covered xs b := by
  induction xs with
  | nil => simp [byteSet]
  | cons c xs ih =>
    have hcons : byteSet (c :: xs) = Finset.Ico c.addr c.stop ∪ byteSet xs := rfl
    rw [hcons, Finset.mem_union, Finset.mem_Ico, ih, covered_cons]
    rfl

theorem card_byteSet (h : xs.Pairwise Apart) : (byteSet xs).card = (xs.map Extent.size).sum := by
  induction xs with
  | nil => rfl
  | cons c xs ih =>
    obtain ⟨hc, hxs⟩ := List.pairwise_cons.mp h
    have hcons : byteSet (c :: xs) = Finset.Ico c.addr c.stop ∪ byteSet xs := rfl
    have hdisj : Disjoint (Finset.Ico c.addr c.stop) (byteSet xs) := by
      rw [Finset.disjoint_left]
      intro b hb hb'
      rw [Finset.mem_Ico] at hb
      obtain ⟨d, hd, hdb⟩ := mem_byteSet.mp hb'
      have hap := hc d hd
      unfold Apart at hap
      unfold Has at hdb
      omega
    rw [hcons, Finset.card_union_of_disjoint hdisj, Nat.card_Ico, ih hxs, List.map_cons, List.sum_cons,
      stop, Nat.add_sub_cancel_left]

/-- Extents that keep clear of each other within `[lo, hi)` have no more bytes than it. -/
theorem sum_size_le (h : xs.Pairwise Apart) (hin : ∀ c ∈ xs, lo ≤ c.addr ∧ c.stop ≤ hi) :
    (xs.map Extent.size).sum ≤ hi - lo := by
  have hsub : byteSet xs ⊆ Finset.Ico lo hi := by
    intro b hb
    obtain ⟨c, hc, hcb⟩ := mem_byteSet.mp hb
    have := hin c hc
    unfold Has at hcb
    rw [Finset.mem_Ico]
    omega
  have hcard := Finset.card_le_card hsub
  rwa [card_byteSet h, Nat.card_Ico] at hcard

end Packing
end CsoLabs.Foundation
