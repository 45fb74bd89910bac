import Mathlib.Tactic

namespace CsoLabs.Foundation

structure SeqObject (S Op Res : Type*) where
  result : S → Op → Res
  next : S → Op → S

/-- A call that has returned, with the numbers of calls that had returned when it started and
when it returned. -/
structure Returned (Op Res : Type*) where
  op : Op
  result : Res
  started : ℕ
  returned : ℕ
deriving DecidableEq

/-- A call that has not returned; its result is known once it has taken effect. -/
structure InProgress (Op Res : Type*) where
  op : Op
  started : ℕ
  result : Option Res

variable {S Op Res T : Type*}

def Returned.Precedes (c d : Returned Op Res) : Prop := c.returned < d.started

namespace SeqObject

def Legal (o : SeqObject S Op Res) : S → List (Op × Res) → Prop
  | _, [] => True
  | s, (op, r) :: cs => r = o.result s op ∧ o.Legal (o.next s op) cs

def run (o : SeqObject S Op Res) (s : S) (cs : List (Op × Res)) : S :=
  cs.foldl (fun s c ↦ o.next s c.1) s

variable {o : SeqObject S Op Res} {s : S} {cs : List (Op × Res)} {op : Op} {r : Res}

theorem legal_concat :
    o.Legal s (cs ++ [(op, r)]) ↔ o.Legal s cs ∧ r = o.result (o.run s cs) op := by
  induction cs generalizing s with
  | nil => simp [Legal, run]
  | cons c cs ih => simp only [List.cons_append, Legal, ih, run, List.foldl_cons, and_assoc]

theorem run_concat : o.run s (cs ++ [(op, r)]) = o.next (o.run s cs) op := by
  simp [run]

end SeqObject

/-- One order of the calls, which keeps to the order in time, explains their results. -/
def Linearizable (o : SeqObject S Op Res) (init : S) (done : List (Returned Op Res)) : Prop :=
  ∃ order : List (Returned Op Res), order.Perm done ∧
    o.Legal init (order.map fun c ↦ (c.op, c.result)) ∧
    order.Pairwise fun c d ↦ ¬ d.Precedes c

def Returned.toProgress (c : Returned Op Res) : InProgress Op Res :=
  ⟨c.op, c.started, some c.result⟩

def InProgress.effect (c : InProgress Op Res) : Option (Op × Res) := c.result.map fun r ↦ (c.op, r)

def callAt (done : List (Returned Op Res)) (pending : T → Option (InProgress Op Res)) :
    ℕ ⊕ T → Option (InProgress Op Res)
  | .inl i => done[i]?.map Returned.toProgress
  | .inr t => pending t

def effectAt (done : List (Returned Op Res)) (pending : T → Option (InProgress Op Res))
    (x : ℕ ⊕ T) : Option (Op × Res) :=
  (callAt done pending x).bind InProgress.effect

/-- The calls that have taken effect, in the order in which they did, have led to `s`. -/
structure Effects (o : SeqObject S Op Res) (init : S) (done : List (Returned Op Res))
    (pending : T → Option (InProgress Op Res)) (s : S) (order : List (ℕ ⊕ T)) : Prop where
  nodup : order.Nodup
  mem : ∀ x, x ∈ order ↔ (effectAt done pending x).isSome
  legal : ∃ cs, order.map (effectAt done pending) = cs.map some ∧ o.Legal init cs ∧
    o.run init cs = s
  sorted : order.Pairwise fun x y ↦
    ∀ i c, y = .inl i → callAt done pending x = some c → c.started ≤ i
  started : ∀ x c, callAt done pending x = some c → c.started ≤ done.length
  returned : ∀ (i : ℕ) (c : Returned Op Res), done[i]? = some c → c.returned = i

theorem filterMap_range {α : Type*} (xs : List α) :
    (List.range xs.length).filterMap (xs[·]?) = xs := by
  induction xs with
  | nil => rfl
  | cons x xs ih =>
    rw [List.length_cons, List.range_succ_eq_map, List.filterMap_cons, List.filterMap_map]
    simpa [Function.comp_def] using ih

namespace Effects

variable {o : SeqObject S Op Res} {init s : S} {done : List (Returned Op Res)}
  {pending : T → Option (InProgress Op Res)} {order : List (ℕ ⊕ T)} {t : T} {op : Op} {r : Res}
  {n : ℕ}

theorem initial (o : SeqObject S Op Res) (init : S) :
    Effects o init [] (fun _ : T ↦ none) init [] := by
  refine ⟨List.nodup_nil, ?_, ⟨[], rfl, trivial, rfl⟩, .nil, ?_, by simp⟩
  · rintro (i | t) <;> simp [effectAt, callAt]
  · rintro (i | t) <;> simp [callAt]

/-- Once everybody has returned, the order of the effects is the one looked for. -/
theorem linearizable (E : Effects o init done pending s order) (h : ∀ t, pending t = none) :
    Linearizable o init done := by
  set record : ℕ ⊕ T → Option (Returned Op Res) := Sum.elim (done[·]?) fun _ ↦ none with hrecord
  have heffect : ∀ x, effectAt done pending x = (record x).map fun c ↦ (c.op, c.result) := by
    rintro (i | t)
    · simp only [effectAt, callAt, hrecord, Sum.elim_inl]
      cases done[i]? <;> rfl
    · simp only [effectAt, callAt, h, hrecord, Sum.elim_inr, Option.bind_none, Option.map_none]
  have hmem : ∀ x, x ∈ order ↔ x ∈ (List.range done.length).map .inl := by
    intro x
    rw [E.mem, heffect]
    rcases x with i | t <;> simp [hrecord]
  have hperm : order.Perm ((List.range done.length).map .inl) :=
    (List.perm_ext_iff_of_nodup E.nodup (List.nodup_range.map Sum.inl_injective)).mpr hmem
  have hall : ((List.range done.length).map .inl).filterMap record = done := by
    rw [List.filterMap_map]
    exact filterMap_range done
  obtain ⟨cs, hcs, hlegal, -⟩ := E.legal
  refine ⟨order.filterMap record, hall ▸ hperm.filterMap record, ?_, ?_⟩
  · have hmap : (order.filterMap record).map (fun c ↦ (c.op, c.result)) = cs := by
      rw [List.map_filterMap, ← funext heffect]
      calc order.filterMap (effectAt done pending)
          = (order.map (effectAt done pending)).filterMap id := by rw [List.filterMap_map]; rfl
        _ = cs := by rw [hcs, List.filterMap_map]; exact List.filterMap_some
    rwa [hmap]
  · refine (List.pairwise_filterMap).mpr (E.sorted.imp fun {x y} hxy c hc d hd hlt ↦ ?_)
    rcases y with i | t
    · rcases x with j | t
      · have hat : callAt done pending (.inl j) = some c.toProgress := by
          simp only [callAt]
          rw [show done[j]? = some c from hc]
          rfl
        have hle := hxy i c.toProgress rfl hat
        rw [Returned.Precedes, E.returned i d hd] at hlt
        exact absurd hlt (not_lt.mpr hle)
      · cases hc
    · cases hd

theorem invoke [DecidableEq T] (E : Effects o init done pending s order) (op : Op)
    (ht : pending t = none) :
    Effects o init done (Function.update pending t (some ⟨op, done.length, none⟩)) s order := by
  have hcall : ∀ x ≠ .inr t, callAt done (Function.update pending t
      (some ⟨op, done.length, none⟩)) x = callAt done pending x := by
    rintro (i | u) hx
    · rfl
    · exact Function.update_of_ne (by simpa using hx) _ _
  have heffect : effectAt done (Function.update pending t (some ⟨op, done.length, none⟩)) =
      effectAt done pending := by
    funext x
    by_cases hx : x = .inr t
    · subst hx
      simp [effectAt, callAt, ht, InProgress.effect]
    · simp only [effectAt, hcall x hx]
  have hnot : ∀ x ∈ order, x ≠ .inr t := by
    rintro x hx rfl
    have := (E.mem _).mp hx
    simp [effectAt, callAt, ht] at this
  refine ⟨E.nodup, heffect ▸ E.mem, heffect ▸ E.legal, E.sorted.imp_of_mem
    fun hx _ hxy i c hi hc ↦ hxy i c hi (by rwa [hcall _ (hnot _ hx)] at hc), fun x c hc ↦ ?_,
    E.returned⟩
  by_cases hx : x = .inr t
  · subst hx
    simp only [callAt, Function.update_self, Option.some_inj] at hc
    exact hc ▸ le_rfl
  · exact E.started x c (by rwa [hcall x hx] at hc)

theorem takeEffect [DecidableEq T] (E : Effects o init done pending s order)
    (ht : pending t = some ⟨op, n, none⟩) (hr : r = o.result s op) :
    Effects o init done (Function.update pending t (some ⟨op, n, some r⟩)) (o.next s op)
      (order ++ [.inr t]) := by
  have hcall : ∀ x ≠ .inr t, callAt done (Function.update pending t (some ⟨op, n, some r⟩)) x =
      callAt done pending x := by
    rintro (i | u) hx
    · rfl
    · exact Function.update_of_ne (by simpa using hx) _ _
  have hself : callAt done (Function.update pending t (some ⟨op, n, some r⟩)) (.inr t) =
      some ⟨op, n, some r⟩ := Function.update_self ..
  have hnot : .inr t ∉ order := fun hx ↦ by
    have := (E.mem _).mp hx
    simp [effectAt, callAt, ht, InProgress.effect] at this
  have hne : ∀ x ∈ order, x ≠ .inr t := fun x hx he ↦ hnot (he ▸ hx)
  obtain ⟨cs, hcs, hlegal, rfl⟩ := E.legal
  refine ⟨?_, fun x ↦ ?_, ⟨cs ++ [(op, r)], ?_, ?_, SeqObject.run_concat⟩, ?_, fun x c hc ↦ ?_,
    E.returned⟩
  · exact List.nodup_append.mpr ⟨E.nodup, List.nodup_singleton _, fun x hx y hy ↦ by
      rw [List.mem_singleton.mp hy]; exact hne x hx⟩
  · by_cases hx : x = .inr t
    · subst hx
      simp [effectAt, hself, InProgress.effect]
    · rw [List.mem_append, List.mem_singleton, E.mem]
      simp only [hx, or_false, effectAt, hcall x hx]
  · rw [List.map_append, List.map_append, ← hcs]
    congr 1
    · exact List.map_congr_left fun x hx ↦ by simp only [effectAt, hcall x (hne x hx)]
    · simp [effectAt, hself, InProgress.effect]
  · exact SeqObject.legal_concat.mpr ⟨hlegal, hr⟩
  · refine List.pairwise_append.mpr ⟨E.sorted.imp_of_mem fun hx _ hxy i c hi hc ↦
      hxy i c hi (by rwa [hcall _ (hne _ hx)] at hc), List.pairwise_singleton _ _,
      fun x _ y hy i c hi _ ↦ ?_⟩
    rw [List.mem_singleton.mp hy] at hi
    cases hi
  · by_cases hx : x = .inr t
    · subst hx
      rw [hself, Option.some_inj] at hc
      subst hc
      exact E.started (.inr t) ⟨op, n, none⟩ ht
    · exact E.started x c (by rwa [hcall x hx] at hc)

end Effects

def settle [DecidableEq T] (t : T) (n : ℕ) : ℕ ⊕ T → ℕ ⊕ T
  | .inl i => .inl i
  | .inr u => if u = t then .inl n else .inr u

section Settle

variable [DecidableEq T] {done : List (Returned Op Res)} {pending : T → Option (InProgress Op Res)}
  {t : T} {op : Op} {r : Res} {n i : ℕ} {x y : ℕ ⊕ T} {c : InProgress Op Res}

theorem settle_inl (h : settle t n y = .inl i) : y = .inl i ∨ i = n := by
  rcases y with j | u
  · exact .inl h
  · rw [settle] at h
    split_ifs at h
    exact .inr (Sum.inl.inj h).symm

theorem settle_injective (hx : x ≠ .inl n) (hy : y ≠ .inl n) (h : settle t n x = settle t n y) :
    x = y := by
  rcases x with i | u <;> rcases y with j | v <;> simp only [settle] at h
  · exact h
  · split_ifs at h
    exact absurd h hx
  · split_ifs at h
    exact absurd h.symm hy
  · split_ifs at h with hu hv hv
    · rw [hu, hv]
    · exact h

theorem callAt_settle (ht : pending t = some ⟨op, n, some r⟩)
    (hc : callAt done pending x = some c) :
    callAt (done ++ [⟨op, r, n, done.length⟩]) (Function.update pending t none)
      (settle t done.length x) = some c := by
  rcases x with i | u
  · have hi : i < done.length := by
      by_contra hge
      simp [callAt, List.getElem?_eq_none (not_lt.mp hge)] at hc
    simpa [settle, callAt, List.getElem?_append_left hi] using hc
  · by_cases hu : u = t
    · subst hu
      rw [callAt, ht, Option.some_inj] at hc
      subst hc
      simp [settle, callAt, Returned.toProgress]
    · simpa [settle, hu, callAt] using hc

theorem callAt_of_settled (ht : pending t = some ⟨op, n, some r⟩)
    (hc : callAt (done ++ [⟨op, r, n, done.length⟩]) (Function.update pending t none) x = some c) :
    ∃ y, settle t done.length y = x ∧ callAt done pending y = some c := by
  rcases x with i | u
  · rcases lt_trichotomy i done.length with hi | rfl | hi
    · refine ⟨.inl i, rfl, ?_⟩
      simpa [callAt, List.getElem?_append_left hi] using hc
    · refine ⟨.inr t, by simp [settle], ?_⟩
      simpa [callAt, Returned.toProgress, ht] using hc
    · rw [callAt, List.getElem?_eq_none (by simpa using hi)] at hc
      cases hc
  · have hu : u ≠ t := by
      rintro rfl
      simp [callAt] at hc
    exact ⟨.inr u, by simp [settle, hu], by simpa [callAt, hu] using hc⟩

theorem Effects.ret {o : SeqObject S Op Res} {init s : S} {order : List (ℕ ⊕ T)}
    (E : Effects o init done pending s order) (ht : pending t = some ⟨op, n, some r⟩) :
    Effects o init (done ++ [⟨op, r, n, done.length⟩]) (Function.update pending t none) s
      (order.map (settle t done.length)) := by
  have hcall : ∀ x ∈ order, ∃ c, callAt done pending x = some c := fun x hx ↦ by
    obtain ⟨_, he⟩ := Option.isSome_iff_exists.mp ((E.mem x).mp hx)
    obtain ⟨c, hc, -⟩ := Option.bind_eq_some_iff.mp he
    exact ⟨c, hc⟩
  have heffect : ∀ x ∈ order, effectAt (done ++ [⟨op, r, n, done.length⟩])
      (Function.update pending t none) (settle t done.length x) = effectAt done pending x :=
    fun x hx ↦ by
      obtain ⟨c, hc⟩ := hcall x hx
      simp only [effectAt, hc, callAt_settle ht hc]
  have hnew : ∀ x ∈ order, x ≠ .inl done.length := by
    rintro x hx rfl
    obtain ⟨c, hc⟩ := hcall _ hx
    simp [callAt] at hc
  obtain ⟨cs, hcs, hlegal, hrun⟩ := E.legal
  refine ⟨E.nodup.map_on fun x hx y hy ↦ settle_injective (hnew x hx) (hnew y hy), fun x ↦ ?_,
    ⟨cs, ?_, hlegal, hrun⟩,
    List.pairwise_map.mpr (E.sorted.imp_of_mem fun {x y} hx _ hxy i c hi hc ↦ ?_),
    fun x c hc ↦ ?_, fun i c hc ↦ ?_⟩
  · rw [List.mem_map]
    constructor
    · rintro ⟨y, hy, rfl⟩
      rw [heffect y hy]
      exact (E.mem y).mp hy
    · intro hx
      obtain ⟨e, he⟩ := Option.isSome_iff_exists.mp hx
      obtain ⟨c, hc, hce⟩ := Option.bind_eq_some_iff.mp he
      obtain ⟨y, rfl, hy⟩ := callAt_of_settled ht hc
      refine ⟨y, (E.mem y).mpr ?_, rfl⟩
      simp [effectAt, hy, hce]
  · rw [List.map_map, ← hcs]
    exact List.map_congr_left heffect
  · obtain ⟨c', hc'⟩ := hcall x hx
    obtain rfl : c' = c := Option.some.inj ((callAt_settle ht hc').symm.trans hc)
    rcases settle_inl hi with rfl | rfl
    · exact hxy i c' rfl hc'
    · exact E.started x c' hc'
  · obtain ⟨y, -, hy⟩ := callAt_of_settled ht hc
    have := E.started y c hy
    rw [List.length_append]
    omega
  · rw [List.getElem?_append] at hc
    split_ifs at hc with hi
    · exact E.returned i c hc
    · rw [List.getElem?_singleton] at hc
      split_ifs at hc with hi'
      rw [← Option.some.inj hc]
      simp only
      omega

end Settle
end CsoLabs.Foundation
