import Mathlib

/-!
# Reachable states of a transition system

The states a step relation reaches from an initial state, and the rule that an inductive
invariant (true initially, kept by every step) holds of all of them; runs of a given length,
and the rule that a measure every step lowers bounds their length.
-/

namespace StateMachine

variable {σ : Type*}

/-- The states `step` reaches from `init` in finitely many steps. -/
def Reachable (step : σ → σ → Prop) (init : σ) : σ → Prop := Relation.ReflTransGen step init

namespace Reachable

variable {step : σ → σ → Prop} {init s s' : σ}

theorem refl : Reachable step init init := Relation.ReflTransGen.refl

theorem tail (h : Reachable step init s) (hs : step s s') : Reachable step init s' :=
  Relation.ReflTransGen.tail h hs

/-- An inductive invariant holds of every reachable state. -/
theorem invariant {I : σ → Prop} (h0 : I init) (hstep : ∀ s s', I s → step s s' → I s')
    (h : Reachable step init s) : I s := by
  induction h with
  | refl => exact h0
  | tail _ hs ih => exact hstep _ _ ih hs

end Reachable

/-- The runs of `step` of exactly `n` steps. -/
inductive Run (step : σ → σ → Prop) : ℕ → σ → σ → Prop
  | refl (s : σ) : Run step 0 s s
  | tail {n : ℕ} {s s' s'' : σ} (h : Run step n s s') (hs : step s' s'') : Run step (n + 1) s s''

namespace Run

variable {step : σ → σ → Prop} {n : ℕ} {s s' : σ}

/-- A measure that every step lowers pays for each step of a run. -/
theorem length_add_le {μ : σ → ℕ} (hμ : ∀ s s', step s s' → μ s' < μ s) (h : Run step n s s') :
    n + μ s' ≤ μ s := by
  induction h with
  | refl => omega
  | tail _ hs ih =>
    have := hμ _ _ hs
    omega

end Run

end StateMachine
