import Mathlib.Logic.Relation

/-!
# Runs of a transition system

A run is a finite sequence of steps. What every step keeps holds after every run.
-/

namespace Jos.Logic

open Relation

variable {α : Type} {step : α → α → Prop} {a b : α}

theorem run_invariant {I : α → Prop} (hrun : ReflTransGen step a b) (ha : I a)
    (hstep : ∀ s s', I s → step s s' → I s') : I b := by
  induction hrun with
  | refl => exact ha
  | tail _ hs ih => exact hstep _ _ ih hs

end Jos.Logic
