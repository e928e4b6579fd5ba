import Mathlib.Order.Nat
import Mathlib.Tactic.Push

/-!
# Runs that end

Where every step keeps an invariant and lowers a count, no run is longer than the count it starts at,
and some run goes on to where no step is left.
-/

namespace EndingRuns

variable {σ : Type*}

/-- `n` steps. -/
inductive Steps (step : σ → σ → Prop) : ℕ → σ → σ → Prop
  | refl (s : σ) : Steps step 0 s s
  | head {n : ℕ} {s t u : σ} (h : step s t) (hrest : Steps step n t u) : Steps step (n + 1) s u

structure Falls (step : σ → σ → Prop) (I : σ → Prop) (left : σ → ℕ) : Prop where
  keep : ∀ {s t}, I s → step s t → I t
  fall : ∀ {s t}, I s → step s t → left t < left s

variable {step : σ → σ → Prop} {I : σ → Prop} {left : σ → ℕ} {n : ℕ} {s t : σ}

theorem Falls.steps (h : Falls step I left) (hs : I s) (hsteps : Steps step n s t) : I t ∧ n + left t ≤ left s := by
  induction hsteps with
  | refl s => exact ⟨hs, (Nat.zero_add _).le⟩
  | head hstep _ ih =>
    obtain ⟨ht, hle⟩ := ih (h.keep hs hstep)
    have hlt := h.fall hs hstep
    exact ⟨ht, by omega⟩

theorem Falls.exists_stuck (h : Falls step I left) (hs : I s) : ∃ n t, Steps step n s t ∧ I t ∧ ∀ u, ¬ step t u := by
  induction hm : left s using Nat.strong_induction_on generalizing s with
  | _ m ih =>
    by_cases hend : ∀ u, ¬ step s u
    · exact ⟨0, s, .refl s, hs, hend⟩
    · push Not at hend
      obtain ⟨u, hstep⟩ := hend
      obtain ⟨n, t, hsteps, ht⟩ := ih _ (hm ▸ h.fall hs hstep) (h.keep hs hstep) rfl
      exact ⟨n + 1, t, .head hstep hsteps, ht⟩

end EndingRuns
