import Mathlib.Tactic

namespace CsoLabs.Foundation

variable {σ α : Type*}

inductive Reachable (init : σ → Prop) (step : σ → σ → Prop) : σ → Prop
  | start {s : σ} (h : init s) : Reachable init step s
  | next {s s' : σ} (h : Reachable init step s) (hs : step s s') : Reachable init step s'

namespace Reachable

variable {init : σ → Prop} {step step' : σ → σ → Prop} {I J : σ → Prop} {s : σ}

theorem invariant (h : Reachable init step s) (hi : ∀ s, init s → I s)
    (hs : ∀ s s', I s → step s s' → I s') : I s := by
  induction h with
  | start h => exact hi _ h
  | next _ hstep ih => exact hs _ _ ih hstep

/-- An invariant may lean on another one that is already known. -/
theorem invariant_of (h : Reachable init step s) (hj : ∀ s, Reachable init step s → J s)
    (hi : ∀ s, init s → I s) (hs : ∀ s s', J s → I s → step s s' → I s') : I s := by
  induction h with
  | start h => exact hi _ h
  | next hr hstep ih => exact hs _ _ (hj _ hr) ih hstep

theorem mono (h : Reachable init step s) (hs : ∀ s s', step s s' → step' s s') :
    Reachable init step' s := by
  induction h with
  | start h => exact .start h
  | next _ hstep ih => exact .next ih (hs _ _ hstep)

theorem of_init {init' : σ → Prop} (h : Reachable init step s) (hi : ∀ s, init s → init' s) :
    Reachable init' step s := by
  induction h with
  | start h => exact .start (hi _ h)
  | next _ hstep ih => exact .next ih hstep

end Reachable
end CsoLabs.Foundation
