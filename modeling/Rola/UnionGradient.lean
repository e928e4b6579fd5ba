import Mathlib.Analysis.Calculus.Deriv.Inv
import Mathlib.Analysis.SpecialFunctions.Sigmoid
import Rola.EntmaxGradient

/-!
# The derivative of a gated split

Amplitudes `p` split by a logistic gate: the read half is `p σ(δ)`, the write half `p σ(-δ)` divided by
its own sum. Pulled back through the split, a gradient of the two halves is one of `p` and one of `δ`.
-/

namespace Rola.Entmax
open Finset hiding sum_apply
open Real (sigmoid)

attribute [local instance] atLeastTwo_two

variable {ι : Type*}

noncomputable def splitRead (p delta : ι → ℝ) (i : ι) : ℝ := p i * sigmoid (delta i)

noncomputable def gated (p delta : ι → ℝ) (i : ι) : ℝ := p i * sigmoid (-delta i)

noncomputable def splitWrite [Fintype ι] (p delta : ι → ℝ) (i : ι) : ℝ := gated p delta i / ∑ j, gated p delta j

section Derivative

variable {E : Type*} [NormedAddCommGroup E] [NormedSpace ℝ E] {p delta : E → ι → ℝ} {e : E}
  {p' delta' : ι → E →L[ℝ] ℝ}

/-- The derivatives of the halves, and of a gated amplitude. -/
noncomputable def splitReadDeriv (p delta : ι → ℝ) (p' delta' : ι → E →L[ℝ] ℝ) (i : ι) : E →L[ℝ] ℝ :=
  weighted (sigmoid (delta i)) (p' i) (p i * (sigmoid (delta i) * sigmoid (-delta i))) (delta' i)

noncomputable def gatedDeriv (p delta : ι → ℝ) (p' delta' : ι → E →L[ℝ] ℝ) (i : ι) : E →L[ℝ] ℝ :=
  weighted (sigmoid (-delta i)) (p' i) (-(p i * (sigmoid (delta i) * sigmoid (-delta i)))) (delta' i)

noncomputable def splitWriteDeriv [Fintype ι] (p delta : ι → ℝ) (p' delta' : ι → E →L[ℝ] ℝ) (i : ι) : E →L[ℝ] ℝ :=
  weighted (∑ j, gated p delta j)⁻¹ (gatedDeriv p delta p' delta' i)
    (-((∑ j, gated p delta j)⁻¹ * splitWrite p delta i)) (total (gatedDeriv p delta p' delta'))

theorem hasFDerivAt_splitRead {i : ι} (hp : HasFDerivAt (fun e => p e i) (p' i) e)
    (hdelta : HasFDerivAt (fun e => delta e i) (delta' i) e) :
    HasFDerivAt (fun e => splitRead (p e) (delta e) i) (splitReadDeriv (p e) (delta e) p' delta' i) e := by
  have hgate := (Real.hasDerivAt_sigmoid (delta e i)).comp_hasFDerivAt e hdelta
  refine (hp.mul hgate).congr_fderiv ?_
  ext d
  simp only [splitReadDeriv, weighted_apply, add_apply, smul_apply, smul_eq_mul, Function.comp, Real.sigmoid_neg]
  ring

theorem hasFDerivAt_gated {i : ι} (hp : HasFDerivAt (fun e => p e i) (p' i) e)
    (hdelta : HasFDerivAt (fun e => delta e i) (delta' i) e) :
    HasFDerivAt (fun e => gated (p e) (delta e) i) (gatedDeriv (p e) (delta e) p' delta' i) e := by
  have hgate := (Real.hasDerivAt_sigmoid (-delta e i)).comp_hasFDerivAt e hdelta.neg
  refine (hp.mul hgate).congr_fderiv ?_
  ext d
  simp only [gatedDeriv, weighted_apply, add_apply, neg_apply, smul_apply, smul_eq_mul, Function.comp, Pi.neg_apply, Real.sigmoid_neg]
  ring

theorem hasFDerivAt_splitWrite [Fintype ι] (hp : ∀ i, HasFDerivAt (fun e => p e i) (p' i) e)
    (hdelta : ∀ i, HasFDerivAt (fun e => delta e i) (delta' i) e) (hsum : ∑ j, gated (p e) (delta e) j ≠ 0) (i : ι) :
    HasFDerivAt (fun e => splitWrite (p e) (delta e) i) (splitWriteDeriv (p e) (delta e) p' delta' i) e := by
  have hgated := fun i => hasFDerivAt_gated (hp i) (hdelta i)
  have hinv := (hasDerivAt_inv hsum).comp_hasFDerivAt e (HasFDerivAt.fun_sum fun i _ => hgated i)
  refine ((hgated i).mul hinv).congr_fderiv ?_
  ext d
  simp only [splitWriteDeriv, splitWrite, weighted_apply, total_apply, add_apply, smul_apply, sum_apply, smul_eq_mul, Function.comp]
  field_simp
  ring

end Derivative

variable [Fintype ι]

/-- A write gradient against the write half: what reaches the logarithm of the gated amplitude. -/
noncomputable def logGrad (p delta dWrite : ι → ℝ) (i : ι) : ℝ :=
  splitWrite p delta i * (dWrite i - ∑ j, dWrite j * splitWrite p delta j)

/-- What reaches an amplitude of support `S`. -/
noncomputable def ampGrad [DecidableEq ι] (S : Finset ι) (p delta dRead dWrite : ι → ℝ) (i : ι) : ℝ :=
  dRead i * sigmoid (delta i) + if i ∈ S then logGrad p delta dWrite i / p i else 0

/-- What reaches a logit difference. -/
noncomputable def deltaGrad (p delta dRead dWrite : ι → ℝ) (i : ι) : ℝ :=
  dRead i * splitRead p delta i * sigmoid (-delta i) - logGrad p delta dWrite i * sigmoid (delta i)

/-- The gradients of the halves, through the split's derivative in a direction that moves the amplitudes
by `a` and the differences by `b`. -/
theorem split_adjoint [DecidableEq ι] (S : Finset ι) (p delta dRead dWrite a b : ι → ℝ) (hp : ∀ i ∈ S, p i ≠ 0)
    (hoff : ∀ i, i ∉ S → p i = 0 ∧ a i = 0) :
    ∑ i, dRead i * (sigmoid (delta i) * a i + p i * (sigmoid (delta i) * sigmoid (-delta i)) * b i) +
      ∑ i, dWrite i * ((∑ j, gated p delta j)⁻¹ *
        ((sigmoid (-delta i) * a i - p i * (sigmoid (delta i) * sigmoid (-delta i)) * b i) - splitWrite p delta i *
          ∑ j, (sigmoid (-delta j) * a j - p j * (sigmoid (delta j) * sigmoid (-delta j)) * b j))) =
    ∑ i, ampGrad S p delta dRead dWrite i * a i + ∑ i, deltaGrad p delta dRead dWrite i * b i := by
  generalize hgrad : (fun j => sigmoid (-delta j) * a j - p j * (sigmoid (delta j) * sigmoid (-delta j)) * b j) = u
  have hu : ∀ j, sigmoid (-delta j) * a j - p j * (sigmoid (delta j) * sigmoid (-delta j)) * b j = u j :=
    fun j => congrFun hgrad j
  simp only [hu]
  -- the sum's own derivative is taken once, against the gradient's mean
  have hwrite : ∑ i, dWrite i * ((∑ j, gated p delta j)⁻¹ * (u i - splitWrite p delta i * ∑ j, u j)) =
      ∑ i, (dWrite i - ∑ j, dWrite j * splitWrite p delta j) * ((∑ j, gated p delta j)⁻¹ * u i) := by
    have hleft : ∀ i, dWrite i * ((∑ j, gated p delta j)⁻¹ * (u i - splitWrite p delta i * ∑ j, u j)) =
        dWrite i * ((∑ j, gated p delta j)⁻¹ * u i) -
          dWrite i * splitWrite p delta i * ((∑ j, gated p delta j)⁻¹ * ∑ j, u j) := fun i => by ring
    simp only [hleft, sub_mul, sum_sub_distrib, ← sum_mul, ← mul_sum]
  rw [hwrite, ← sum_add_distrib, ← sum_add_distrib]
  refine sum_congr rfl fun i _ => ?_
  rw [← hu i]
  unfold ampGrad deltaGrad logGrad splitRead splitWrite gated
  by_cases hi : i ∈ S
  · rw [if_pos hi]
    have := hp i hi
    field_simp
    ring
  · obtain ⟨hpi, hai⟩ := hoff i hi
    rw [if_neg hi, hpi, hai]
    ring

end Rola.Entmax
