import Mathlib.Analysis.Calculus.Deriv.Mul
import Mathlib.Analysis.Calculus.Deriv.Pow
import Mathlib.Analysis.Calculus.FDeriv.Mul
import Mathlib.Analysis.SpecialFunctions.Sqrt
import Mathlib.Topology.Algebra.Module.ModuleTopology
import Rola.EntmaxThreshold

/-!
# The derivative of the threshold

Where the support of a row does not change, the threshold that gives the row sum one is differentiable,
and its derivative is the mean of the direction weighted by the slopes of the amplitudes. The amplitudes'
Jacobian is then symmetric, diagonal less rank one.
-/

namespace Rola.Entmax
open Finset hiding sum_apply
open Filter Topology

attribute [local instance] atLeastTwo_two

/-- The slope of the amplitude at `x` above the threshold. -/
noncomputable def slope (alpha15 : Bool) (x : ℝ) : ℝ := if alpha15 then x / 2 else 1

variable {alpha15 : Bool} {x : ℝ}

theorem slope_pos (hx : 0 < x) : 0 < slope alpha15 x := by
  unfold slope
  split
  · linarith
  · exact one_pos

theorem sqrt_amplitude (hx : 0 ≤ x) : √(amplitude true x) = x / 2 := by
  rw [amplitude_of_nonneg hx, if_pos rfl, show x ^ 2 / 4 = (x / 2) ^ 2 by ring, Real.sqrt_sq (by linarith)]

theorem hasDerivAt_amplitude (hx : 0 < x) : HasDerivAt (amplitude alpha15) (slope alpha15 x) x := by
  have hnear : amplitude alpha15 =ᶠ[𝓝 x] fun x => if alpha15 then x ^ 2 / 4 else x := by
    filter_upwards [lt_mem_nhds hx] with y hy
    exact amplitude_of_nonneg hy.le
  refine HasDerivAt.congr_of_eventuallyEq ?_ hnear
  cases alpha15
  · exact hasDerivAt_id x
  · refine ((hasDerivAt_pow 2 x).div_const 4).congr_deriv ?_
    rw [slope, if_pos rfl]
    norm_num
    linarith

variable {ι : Type*}

/-- Near `z` the entries above the threshold `t` are those of `S`, and their amplitudes sum to one. -/
structure LocalSupport (alpha15 : Bool) (S : Finset ι) (t : (ι → ℝ) → ℝ) (z : ι → ℝ) : Prop where
  above : ∀ᶠ z' in 𝓝 z, ∀ i ∈ S, t z' < z' i
  sum_one : ∀ᶠ z' in 𝓝 z, ∑ i ∈ S, amplitude alpha15 (z' i - t z') = 1

/-- The mean of a direction, weighted by `s` over `S`. -/
noncomputable def weightedMean (S : Finset ι) (s : ι → ℝ) : (ι → ℝ) →L[ℝ] ℝ :=
  (∑ i ∈ S, s i)⁻¹ • ∑ i ∈ S, s i • ContinuousLinearMap.proj i

theorem weightedMean_apply (S : Finset ι) (s h : ι → ℝ) :
    weightedMean S s h = (∑ i ∈ S, s i * h i) / ∑ i ∈ S, s i := by
  simp [weightedMean, div_eq_inv_mul]

/-- Diagonal less rank one, on the support. -/
noncomputable def jacobian {n : ℕ} (S : Finset (Fin n)) (s : Fin n → ℝ) : (Fin n → ℝ) →L[ℝ] (Fin n → ℝ) :=
  ContinuousLinearMap.pi fun i => if i ∈ S then s i • (ContinuousLinearMap.proj i - weightedMean S s) else 0

theorem jacobian_apply {n : ℕ} (S : Finset (Fin n)) (s d : Fin n → ℝ) (i : Fin n) :
    jacobian S s d i = if i ∈ S then s i * (d i - weightedMean S s d) else 0 := by
  unfold jacobian
  rw [ContinuousLinearMap.pi_apply]
  split
  · rfl
  · rfl

section Combination

variable {E : Type*} [NormedAddCommGroup E] [NormedSpace ℝ E]

/-- `a f + b g`. -/
noncomputable def weighted (a : ℝ) (f : E →L[ℝ] ℝ) (b : ℝ) (g : E →L[ℝ] ℝ) : E →L[ℝ] ℝ := a • f + b • g

@[simp] theorem weighted_apply (a : ℝ) (f : E →L[ℝ] ℝ) (b : ℝ) (g : E →L[ℝ] ℝ) (d : E) :
    weighted a f b g d = a * f d + b * g d := rfl

noncomputable def total [Fintype ι] (f : ι → E →L[ℝ] ℝ) : E →L[ℝ] ℝ := ∑ i, f i

@[simp] theorem total_apply [Fintype ι] (f : ι → E →L[ℝ] ℝ) (d : E) : total f d = ∑ i, f i d := by
  simp [total]

end Combination

namespace LocalSupport

variable {S : Finset ι} {t : (ι → ℝ) → ℝ} {z : ι → ℝ}

theorem sum_slope_pos (h : LocalSupport alpha15 S t z) : 0 < ∑ i ∈ S, slope alpha15 (z i - t z) := by
  have habove := h.above.self_of_nhds
  have hne : S.Nonempty := by
    by_contra hempty
    have hone := h.sum_one.self_of_nhds
    rw [not_nonempty_iff_eq_empty.1 hempty, sum_empty] at hone
    exact one_ne_zero hone.symm
  exact sum_pos (fun i hi => slope_pos (sub_pos.2 (habove i hi))) hne

theorem sum_shifted (h : LocalSupport alpha15 S t z) :
    ∀ᶠ z' in 𝓝 z, (∑ i ∈ S, if alpha15 then (z' i - t z') ^ 2 / 4 else z' i - t z') = 1 := by
  filter_upwards [h.above, h.sum_one] with z' habove hone
  rw [← hone]
  exact sum_congr rfl fun i hi => (amplitude_of_nonneg (sub_pos.2 (habove i hi)).le).symm

theorem card_ne_zero (h : LocalSupport alpha15 S t z) : (S.card : ℝ) ≠ 0 := by
  have hpos := h.sum_slope_pos
  intro hzero
  have hempty : S = ∅ := card_eq_zero.1 (by exact_mod_cast hzero)
  rw [hempty, sum_empty] at hpos
  exact lt_irrefl _ hpos

/-- Near `z` the threshold is the supported entries' own, in closed form. -/
theorem eventually_eq_two (h : LocalSupport false S t z) : t =ᶠ[𝓝 z] fun z' => (∑ i ∈ S, z' i - 1) / S.card := by
  filter_upwards [h.sum_shifted] with z' hsum
  simp only [Bool.false_eq_true, if_false] at hsum
  rw [sum_sub_distrib, sum_const, nsmul_eq_mul] at hsum
  rw [eq_div_iff h.card_ne_zero]
  linarith

/-- For 1.5, the discriminant is the square of the entries' sum above the threshold. -/
theorem disc_eq (h : LocalSupport true S t z) : ∀ᶠ z' in 𝓝 z, 0 < ∑ i ∈ S, z' i - S.card * t z' ∧
    (∑ i ∈ S, z' i) * (∑ i ∈ S, z' i) - S.card * (∑ i ∈ S, z' i * z' i - 4) = (∑ i ∈ S, z' i - S.card * t z') ^ 2 := by
  have hne : S.Nonempty := card_pos.1 (Nat.pos_of_ne_zero (by exact_mod_cast h.card_ne_zero))
  filter_upwards [h.sum_shifted, h.above] with z' hsum habove
  simp only [if_true] at hsum
  rw [← sum_div] at hsum
  have hsq : ∑ i ∈ S, (z' i - t z') ^ 2 = ∑ i ∈ S, z' i * z' i - 2 * t z' * ∑ i ∈ S, z' i + S.card * t z' ^ 2 := by
    rw [mul_sum, ← nsmul_eq_mul, ← sum_const, ← sum_sub_distrib, ← sum_add_distrib]
    exact sum_congr rfl fun i _ => by ring
  have hpos : 0 < ∑ i ∈ S, (z' i - t z') := sum_pos (fun i hi => sub_pos.2 (habove i hi)) hne
  rw [sum_sub_distrib, sum_const, nsmul_eq_mul] at hpos
  refine ⟨hpos, ?_⟩
  linear_combination (-4 * S.card : ℝ) * hsum + S.card * hsq

theorem eventually_eq_onehalf (h : LocalSupport true S t z) : t =ᶠ[𝓝 z] fun z' =>
    (∑ i ∈ S, z' i - √((∑ i ∈ S, z' i) * (∑ i ∈ S, z' i) - S.card * (∑ i ∈ S, z' i * z' i - 4))) / S.card := by
  filter_upwards [h.disc_eq] with z' hdisc
  rw [hdisc.2, Real.sqrt_sq hdisc.1.le, eq_div_iff h.card_ne_zero]
  ring

section Threshold

variable [Fintype ι]

theorem differentiableAt (h : LocalSupport alpha15 S t z) : DifferentiableAt ℝ t z := by
  cases alpha15
  · refine DifferentiableAt.congr_of_eventuallyEq ?_ h.eventually_eq_two
    fun_prop
  · refine DifferentiableAt.congr_of_eventuallyEq ?_ h.eventually_eq_onehalf
    have hdisc := h.disc_eq.self_of_nhds
    have hne : (∑ i ∈ S, z i) * (∑ i ∈ S, z i) - S.card * (∑ i ∈ S, z i * z i - 4) ≠ 0 := by
      rw [hdisc.2]
      exact (pow_pos hdisc.1 2).ne'
    fun_prop (disch := assumption)

/-- An amplitude on the support moves with its entry less the threshold. -/
theorem hasFDerivAt_amplitude (h : LocalSupport alpha15 S t z) {t' : (ι → ℝ) →L[ℝ] ℝ} (ht : HasFDerivAt t t' z)
    {i : ι} (hi : i ∈ S) : HasFDerivAt (fun z' => amplitude alpha15 (z' i - t z'))
      (slope alpha15 (z i - t z) • (ContinuousLinearMap.proj i - t')) z := by
  have hshift : HasFDerivAt (fun z' => z' i - t z') (ContinuousLinearMap.proj i - t') z :=
    (hasFDerivAt_apply i z).sub ht
  exact (hasDerivAt_amplitude (sub_pos.2 (h.above.self_of_nhds i hi))).comp_hasFDerivAt z hshift

/-- The threshold's derivative: the amplitudes' sum does not move. -/
theorem hasFDerivAt (h : LocalSupport alpha15 S t z) :
    HasFDerivAt t (weightedMean S fun i => slope alpha15 (z i - t z)) z := by
  have ht := h.differentiableAt.hasFDerivAt
  have hsum : HasFDerivAt (fun z' => ∑ i ∈ S, amplitude alpha15 (z' i - t z'))
      (∑ i ∈ S, slope alpha15 (z i - t z) • (ContinuousLinearMap.proj i - fderiv ℝ t z)) z :=
    HasFDerivAt.fun_sum fun i hi => h.hasFDerivAt_amplitude ht hi
  have hzero := hsum.unique ((hasFDerivAt_const (1 : ℝ) z).congr_of_eventuallyEq h.sum_one)
  have hmean : fderiv ℝ t z = weightedMean S fun i => slope alpha15 (z i - t z) := by
    ext d
    have hd := DFunLike.congr_fun hzero d
    simp only [sum_apply, smul_apply, sub_apply, ContinuousLinearMap.proj_apply, smul_eq_mul, zero_apply, mul_sub] at hd
    rw [sum_sub_distrib, ← sum_mul] at hd
    rw [weightedMean_apply, eq_div_iff h.sum_slope_pos.ne']
    linarith
  rwa [← hmean]

end Threshold

end LocalSupport

/-- The Jacobian of slopes `s` over `S`, less its rank one part, is its own transpose. -/
theorem rank_one_adjoint (S : Finset ι) (s g d : ι → ℝ) :
    ∑ i ∈ S, g i * (s i * (d i - weightedMean S s d)) = ∑ i ∈ S, s i * (g i - weightedMean S s g) * d i := by
  have hleft : ∑ i ∈ S, g i * (s i * (d i - weightedMean S s d)) =
      ∑ i ∈ S, s i * g i * d i - (∑ i ∈ S, s i * g i) * weightedMean S s d := by
    rw [sum_mul, ← sum_sub_distrib]
    exact sum_congr rfl fun i _ => by ring
  have hright : ∑ i ∈ S, s i * (g i - weightedMean S s g) * d i =
      ∑ i ∈ S, s i * g i * d i - weightedMean S s g * ∑ i ∈ S, s i * d i := by
    rw [mul_sum, ← sum_sub_distrib]
    exact sum_congr rfl fun i _ => by ring
  rw [hleft, hright, weightedMean_apply, weightedMean_apply]
  ring

end Rola.Entmax
