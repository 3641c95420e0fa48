import ShellOs.Lib.Run

/-! Runs with what they answer, and what one machine answers as another one may. -/

namespace ShellOs.Lib

variable {σ τ ι α : Type}

/-- `Trace step s talk t`: the inputs in `talk`, each with its answer, lead from `s` to `t`. -/
inductive Trace (step : σ → ι → α → σ → Prop) (s : σ) : List (ι × α) → σ → Prop
  | start : Trace step s [] s
  | next {talk : List (ι × α)} {t u : σ} {i : ι} {a : α} (before : Trace step s talk t) (last : step t i a u) :
      Trace step s (talk ++ [(i, a)]) u

namespace Trace

variable {step : σ → ι → α → σ → Prop} {s t : σ} {talk : List (ι × α)}

theorem last {i : ι} {a : α} (trace : Trace step s (talk ++ [(i, a)]) t) : ∃ u, Trace step s talk u ∧ step u i a t := by
  generalize whole : talk ++ [(i, a)] = all at trace
  cases trace with
  | start => simp at whole
  | next before last =>
    obtain ⟨rfl, same⟩ := List.append_inj' whole rfl
    obtain ⟨rfl, rfl⟩ := Prod.mk.inj (List.singleton_inj.mp same)
    exact ⟨_, before, last⟩

theorem simulates (spec : τ → ι → α → τ → Prop) (rel : σ → τ → Prop) (trace : Trace step s talk t) {x : τ} (first : rel s x)
    (each : ∀ u y i a v, rel u y → step u i a v → ∃ z, spec y i a z ∧ rel v z) :
    ∃ z, Trace spec x talk z ∧ rel t z := by
  induction trace with
  | start => exact ⟨x, .start, first⟩
  | next _ last ih =>
    obtain ⟨y, same, related⟩ := ih
    obtain ⟨z, took, next⟩ := each _ y _ _ _ related last
    exact ⟨z, same.next took, next⟩

/-- The same where the states of the one are read off those of the other, in the states that are reached. -/
theorem refines (spec : τ → ι → α → τ → Prop) (view : σ → τ) (inv : σ → Prop) (trace : Trace step s talk t) (first : inv s)
    (each : ∀ u i a v, inv u → step u i a v → spec (view u) i a (view v) ∧ inv v) :
    Trace spec (view s) talk (view t) ∧ inv t := by
  obtain ⟨z, same, held, rfl⟩ := trace.simulates spec (fun u y => inv u ∧ y = view u) ⟨first, rfl⟩ (by
    intro u y i a v related took
    obtain ⟨held, rfl⟩ := related
    obtain ⟨next, kept⟩ := each u i a v held took
    exact ⟨view v, next, kept, rfl⟩)
  exact ⟨same, held⟩

end Trace

end ShellOs.Lib
