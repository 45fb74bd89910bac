import Mathlib.Tactic

namespace CsoLabs.Foundation

variable {σ α β : Type}

/-- The program runs without fault and its result satisfies `Q`. -/
def wp (c : StateT σ Option α) (Q : α → σ → Prop) (s : σ) : Prop :=
  ∃ a s', c s = some (a, s') ∧ Q a s'

def onlyIf (p : Prop) [Decidable p] (c : StateT σ Option Unit) : StateT σ Option Unit :=
  if p then c else pure ()

/-- A failed assertion ends the program. -/
def assertThat (p : Prop) [Decidable p] : StateT σ Option Unit := if p then pure () else failure

def onPart {τ : Type} (part : τ → σ) (put : τ → σ → τ) (c : StateT σ Option α) :
    StateT τ Option α := fun t ↦ (c (part t)).map fun r ↦ (r.1, put t r.2)

section Rules

variable {c : StateT σ Option α} {f : α → StateT σ Option β} {Q R : α → σ → Prop} {s s' : σ} {a : α}

theorem wp.mono (h : wp c R s) (hRQ : ∀ a s', R a s' → Q a s') : wp c Q s := by
  obtain ⟨a, s', hc, hr⟩ := h
  exact ⟨a, s', hc, hRQ a s' hr⟩

theorem wp_of_eq (h : c s = some (a, s')) : wp c Q s ↔ Q a s' := by
  constructor
  · rintro ⟨a₁, s₁, h₁, hq⟩
    obtain ⟨rfl, rfl⟩ : a₁ = a ∧ s₁ = s' := by simpa [h] using h₁.symm
    exact hq
  · exact fun hq ↦ ⟨a, s', h, hq⟩

theorem wp.result (h : wp c Q s) (hc : c s = some (a, s')) : Q a s' := (wp_of_eq hc).mp h

@[simp] theorem wp_pure : wp (pure a : StateT σ Option α) Q s ↔ Q a s := wp_of_eq rfl

@[simp] theorem wp_bind {Q : β → σ → Prop} :
    wp (c >>= f) Q s ↔ wp c (fun a s' ↦ wp (f a) Q s') s := by
  constructor
  · rintro ⟨b, s₂, h, hq⟩
    obtain ⟨⟨a, s₁⟩, hc, hf⟩ := Option.bind_eq_some_iff.mp h
    exact ⟨a, s₁, hc, b, s₂, hf, hq⟩
  · rintro ⟨a, s₁, hc, b, s₂, hf, hq⟩
    exact ⟨b, s₂, Option.bind_eq_some_iff.mpr ⟨(a, s₁), hc, hf⟩, hq⟩

theorem wp.bind {Q : β → σ → Prop} (h : wp c R s) (hf : ∀ a s', R a s' → wp (f a) Q s') :
    wp (c >>= f) Q s := wp_bind.mpr (h.mono hf)

@[simp] theorem wp_map {g : α → β} {Q : β → σ → Prop} :
    wp (g <$> c) Q s ↔ wp c (fun a s' ↦ Q (g a) s') s := by
  rw [← bind_pure_comp, wp_bind]
  simp only [wp_pure]

@[simp] theorem wp_discard {Q : PUnit → σ → Prop} :
    wp (discard c) Q s ↔ wp c (fun _ s' ↦ Q ⟨⟩ s') s := wp_map

@[simp] theorem wp_get {Q : σ → σ → Prop} : wp (get : StateT σ Option σ) Q s ↔ Q s s :=
  wp_of_eq rfl

@[simp] theorem wp_modify {g : σ → σ} {Q : PUnit → σ → Prop} :
    wp (modify g : StateT σ Option PUnit) Q s ↔ Q ⟨⟩ (g s) := wp_of_eq rfl

@[simp] theorem wp_lift {o : Option α} :
    wp (liftM o : StateT σ Option α) Q s ↔ ∃ a, o = some a ∧ Q a s := by
  cases o with
  | none =>
    simp only [reduceCtorEq, false_and, exists_false, iff_false]
    exact fun ⟨_, _, h, _⟩ ↦ by cases h
  | some a => simpa using wp_of_eq (c := liftM (some a)) rfl

@[simp] theorem wp_failure : ¬ wp (failure : StateT σ Option α) Q s := by
  rintro ⟨a, s', h, _⟩
  cases h

theorem wp_ite {p : Prop} [Decidable p] {d : StateT σ Option α} :
    wp (if p then c else d) Q s ↔ if p then wp c Q s else wp d Q s := by
  split_ifs <;> rfl

theorem wp_onlyIf {p : Prop} [Decidable p] {c : StateT σ Option Unit} {Q : Unit → σ → Prop} :
    wp (onlyIf p c) Q s ↔ if p then wp c Q s else Q () s := by
  unfold onlyIf
  split_ifs <;> simp

theorem wp_assertThat {p : Prop} [Decidable p] {Q : Unit → σ → Prop} :
    wp (assertThat p) Q s ↔ p ∧ Q () s := by
  unfold assertThat
  split_ifs with h <;> simp [h]

theorem wp_onPart {τ : Type} {part : τ → σ} {put : τ → σ → τ} {Q : α → τ → Prop} {t : τ} :
    wp (onPart part put c) Q t ↔ wp c (fun a s' ↦ Q a (put t s')) (part t) := by
  constructor
  · rintro ⟨a, t', h, hq⟩
    obtain ⟨⟨b, s'⟩, hc, hr⟩ := Option.map_eq_some_iff.mp h
    obtain ⟨rfl, rfl⟩ := Prod.ext_iff.mp hr
    exact ⟨b, s', hc, hq⟩
  · rintro ⟨a, s', hc, hq⟩
    exact ⟨a, put t s', by rw [onPart, hc]; rfl, hq⟩

end Rules

def Within (r : σ → σ → Prop) (c : StateT σ Option α) : Prop :=
  ∀ s a s', c s = some (a, s') → r s s'

namespace Within

variable {γ : Type} {r r' : σ → σ → Prop} {c d : StateT σ Option α} {k : α → StateT σ Option γ}

theorem mono (hc : Within r c) (h : ∀ s s', r s s' → r' s s') : Within r' c :=
  fun s a s' hs ↦ h s s' (hc s a s' hs)

theorem failure : Within r (Alternative.failure : StateT σ Option α) := by
  intro s a s' h
  cases h

theorem of_modify {g : σ → σ} (hg : ∀ s, r s (g s)) :
    Within r (modify g : StateT σ Option PUnit) := by
  intro s a s' h
  have hs' : g s = s' := (Prod.ext_iff.mp (Option.some.inj h)).2
  exact hs' ▸ hg s

theorem ite {p : Prop} [Decidable p] (hc : Within r c) (hd : Within r d) :
    Within r (if p then c else d) := by
  split_ifs
  · exact hc
  · exact hd

theorem bind [IsTrans σ r] (hc : Within r c) (hk : ∀ a, Within r (k a)) : Within r (c >>= k) := by
  intro s b s' h
  obtain ⟨⟨a, s₁⟩, h₁, h₂⟩ := Option.bind_eq_some_iff.mp h
  exact IsTrans.trans _ _ _ (hc s a s₁ h₁) (hk a s₁ b s' h₂)

variable [Std.Refl r]

theorem pure (a : α) : Within r (Pure.pure a : StateT σ Option α) := by
  intro s b s' h
  have hs' : s = s' := (Prod.ext_iff.mp (Option.some.inj h)).2
  exact hs' ▸ Std.Refl.refl s

theorem get : Within r (MonadState.get : StateT σ Option σ) := by
  intro s a s' h
  have hs' : s = s' := (Prod.ext_iff.mp (Option.some.inj h)).2
  exact hs' ▸ Std.Refl.refl s

theorem lift (o : Option α) : Within r (liftM o : StateT σ Option α) := by
  intro s a s' h
  have hw : wp (liftM o : StateT σ Option α) (fun _ t ↦ t = s') s := ⟨a, s', h, rfl⟩
  obtain ⟨_, _, hs'⟩ := wp_lift.mp hw
  exact hs' ▸ Std.Refl.refl s

theorem onlyIf {p : Prop} [Decidable p] {c : StateT σ Option Unit} (hc : Within r c) :
    Within r (Foundation.onlyIf p c) := .ite hc (.pure ())

theorem assertThat {p : Prop} [Decidable p] : Within r (Foundation.assertThat p) :=
  .ite (.pure ()) .failure

theorem map [IsTrans σ r] {g : α → γ} (hc : Within r c) : Within r (g <$> c) := by
  rw [← bind_pure_comp]
  exact hc.bind fun a ↦ .pure (g a)

end Within
end CsoLabs.Foundation
