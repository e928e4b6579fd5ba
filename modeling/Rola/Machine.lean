import Mathlib.Logic.Basic

/-!
# Guarded runs of a partial step function

A machine steps by `step : σ → ω → Option σ`; `none` is a refusal. `Reach` holds of the states its
runs reach when every step taken meets a guard. An invariant is proved once per operation and holds
of every run.
-/

namespace Machine

variable {σ ω : Type*} {step : σ → ω → Option σ} {guard guard' : σ → ω → Prop} {init : σ → Prop}
  {I : σ → Prop} {s : σ}

inductive Reach (step : σ → ω → Option σ) (guard : σ → ω → Prop) (init : σ → Prop) : σ → Prop
  | init {s : σ} : init s → Reach step guard init s
  | step {s s' : σ} {o : ω} : Reach step guard init s → guard s o → step s o = some s' →
      Reach step guard init s'

theorem Reach.invariant (h : Reach step guard init s) (hinit : ∀ s, init s → I s)
    (hstep : ∀ s o s', I s → guard s o → step s o = some s' → I s') : I s := by
  induction h with
  | init h0 => exact hinit _ h0
  | step _ hg hs ih => exact hstep _ _ _ ih hg hs

theorem Reach.mono (h : Reach step guard init s) (hg : ∀ s o, guard s o → guard' s o) :
    Reach step guard' init s := by
  induction h with
  | init h0 => exact .init h0
  | step _ hgo hs ih => exact .step ih (hg _ _ hgo) hs

/-- The state a list of operations ends in, if none refuses. -/
def run (step : σ → ω → Option σ) : σ → List ω → Option σ
  | s, [] => some s
  | s, o :: os => (step s o).bind fun s' => run step s' os

theorem Reach.run {os : List ω} {s' : σ} (h : Reach step (fun _ _ => True) init s)
    (hrun : run step s os = some s') : Reach step (fun _ _ => True) init s' := by
  induction os generalizing s with
  | nil => exact Option.some.inj hrun ▸ h
  | cons o os ih =>
    obtain ⟨t, ht, hrest⟩ := Option.bind_eq_some_iff.1 hrun
    exact ih (.step h trivial ht) hrest

end Machine
