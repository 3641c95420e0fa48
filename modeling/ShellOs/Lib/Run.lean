import Mathlib.Logic.Basic

/-! Runs of a state machine whose inputs may be restricted, each in the state in which it comes. -/

namespace ShellOs.Lib

variable {σ τ ι : Type}

/-- `Run may step s t`: inputs that are allowed when they come lead from `s` to `t`. -/
inductive Run (may : σ → ι → Prop) (step : σ → ι → σ) (s : σ) : σ → Prop
  | start : Run may step s s
  | next {t : σ} (i : ι) (before : Run may step s t) (allowed : may t i) : Run may step s (step t i)

namespace Run

variable {may more : σ → ι → Prop} {step : σ → ι → σ} {s t u : σ}

theorem invariant (inv : σ → Prop) (run : Run may step s t) (first : inv s)
    (keeps : ∀ u i, inv u → may u i → inv (step u i)) : inv t := by
  induction run with
  | start => exact first
  | next i _ allowed ih => exact keeps _ i ih allowed

end Run

end ShellOs.Lib
