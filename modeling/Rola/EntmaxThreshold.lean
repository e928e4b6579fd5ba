import Mathlib.Analysis.Real.Sqrt
import Mathlib.Algebra.BigOperators.Field
import Mathlib.Algebra.BigOperators.Group.Finset.Basic
import Mathlib.Algebra.Order.BigOperators.Group.Finset
import Mathlib.Tactic.Linarith
import Mathlib.Tactic.Ring
import Mathlib.Tactic.FieldSimp
import Mathlib.Tactic.LinearCombination

/-!
# The threshold of a sorted row

Entmax subtracts one threshold from a row and keeps what is above it: the amplitudes of the rest must
sum to one. On a descending row the prefixes give candidate thresholds in closed form, and the last
prefix whose candidate lies below its own smallest entry gives the threshold of the whole row.
-/

namespace Rola.Entmax

/-- The amplitudes' numeral, an instance by name: what is defined with it is one term in every module. -/
theorem atLeastTwo_two : Nat.AtLeastTwo 2 := inferInstance

attribute [local instance] atLeastTwo_two

section Defs

variable {K : Type*} [Field K] [LinearOrder K]

/-- The amplitude of an entry `x` above the threshold. -/
def amplitude (alpha15 : Bool) (x : K) : K :=
  let base := max ((if alpha15 then 1 / 2 else 1) * x) 0
  if alpha15 then base * base else base

/-- The threshold that gives `k` entries of sum `p` and square sum `q` amplitudes of sum one. -/
def candidateTau (sqrt : K → K) (alpha15 : Bool) (k p q : K) : K :=
  if alpha15 then (p - sqrt (max (p * p - k * (q - 4)) 0)) / k else (p - 1) / k

/-- Whether the `k`-th entry lies above the threshold of the first `k`. -/
def isCandidate (sqrt : K → K) (alpha15 : Bool) (k p q key : K) : Bool :=
  if alpha15 then decide (0 ≤ p * p - k * (q - 4)) && decide (candidateTau sqrt alpha15 k p q < key)
  else decide (candidateTau sqrt alpha15 k p q < key)

end Defs

open Finset

variable {alpha15 : Bool} {x y : ℝ}

/-! ### Amplitudes -/

theorem amplitude_nonneg (alpha15 : Bool) (x : ℝ) : 0 ≤ amplitude alpha15 x := by
  unfold amplitude
  cases alpha15
  · exact le_max_right ..
  · exact mul_self_nonneg _

theorem amplitude_of_nonpos (h : x ≤ 0) : amplitude alpha15 x = 0 := by
  unfold amplitude
  cases alpha15
  · simp [h]
  · simp
    linarith

theorem amplitude_of_nonneg (h : 0 ≤ x) : amplitude alpha15 x = if alpha15 then x ^ 2 / 4 else x := by
  unfold amplitude
  cases alpha15
  · simp [h]
  · simp only [if_true]
    rw [max_eq_left (by linarith)]
    ring

theorem amplitude_pos : 0 < amplitude alpha15 x ↔ 0 < x := by
  refine ⟨fun h => ?_, fun h => ?_⟩
  · by_contra hx
    rw [amplitude_of_nonpos (not_lt.1 hx)] at h
    exact lt_irrefl _ h
  · rw [amplitude_of_nonneg h.le]
    cases alpha15
    · exact h
    · simp only [if_true]
      positivity

theorem amplitude_mono (h : x ≤ y) : amplitude alpha15 x ≤ amplitude alpha15 y := by
  rcases le_or_gt x 0 with hx | hx
  · rw [amplitude_of_nonpos hx]
    exact amplitude_nonneg ..
  · rw [amplitude_of_nonneg hx.le, amplitude_of_nonneg (hx.le.trans h)]
    cases alpha15
    · exact h
    · simp only [if_true]
      have := pow_le_pow_left₀ hx.le h 2
      linarith

theorem amplitude_lt (h : x < y) (hy : 0 < y) : amplitude alpha15 x < amplitude alpha15 y := by
  rcases le_or_gt x 0 with hx | hx
  · rw [amplitude_of_nonpos hx]
    exact amplitude_pos.2 hy
  · rw [amplitude_of_nonneg hx.le, amplitude_of_nonneg hy.le]
    cases alpha15
    · exact h
    · simp only [if_true]
      have := pow_lt_pow_left₀ h hx.le (by norm_num : (2 : ℕ) ≠ 0)
      linarith

/-- At most one threshold gives the row amplitudes of sum one. -/
theorem threshold_unique {ι : Type*} {s : Finset ι} {z : ι → ℝ} {t t' : ℝ}
    (h : ∑ i ∈ s, amplitude alpha15 (z i - t) = 1) (h' : ∑ i ∈ s, amplitude alpha15 (z i - t') = 1) : t = t' := by
  have hno : ∀ t t', ∑ i ∈ s, amplitude alpha15 (z i - t) = 1 → ∑ i ∈ s, amplitude alpha15 (z i - t') = 1 →
      ¬ t < t' := by
    intro t t' h h' hlt
    -- an entry above the higher threshold is further above the lower one
    obtain ⟨i, hi, hpos⟩ : ∃ i ∈ s, 0 < amplitude alpha15 (z i - t') := by
      by_contra hnone
      push Not at hnone
      have := sum_nonpos hnone
      linarith
    have hsum : ∑ i ∈ s, amplitude alpha15 (z i - t') < ∑ i ∈ s, amplitude alpha15 (z i - t) :=
      sum_lt_sum (fun j _ => amplitude_mono (by linarith))
        ⟨i, hi, amplitude_lt (by linarith) (by have := amplitude_pos.1 hpos; linarith)⟩
    linarith
  exact le_antisymm (not_lt.1 (hno t' t h' h)) (not_lt.1 (hno t t' h h'))

/-! ### Candidates -/

/-- The candidate threshold of the first `r + 1` entries of `z`. -/
noncomputable def tauAt (alpha15 : Bool) (z : ℕ → ℝ) (r : ℕ) : ℝ :=
  candidateTau Real.sqrt alpha15 (r + 1 : ℕ) (∑ i ∈ range (r + 1), z i) (∑ i ∈ range (r + 1), z i * z i)

noncomputable def candidateAt (alpha15 : Bool) (z : ℕ → ℝ) (r : ℕ) : Bool :=
  isCandidate Real.sqrt alpha15 (r + 1 : ℕ) (∑ i ∈ range (r + 1), z i) (∑ i ∈ range (r + 1), z i * z i) (z r)

variable {z : ℕ → ℝ} {r n : ℕ}

theorem sum_sq_sub (z : ℕ → ℝ) (k : ℕ) (t : ℝ) : ∑ i ∈ range k, (z i - t) ^ 2 =
    ∑ i ∈ range k, z i * z i - 2 * t * ∑ i ∈ range k, z i + k * t ^ 2 := by
  induction k with
  | zero => simp
  | succ k ih =>
    rw [sum_range_succ, ih, sum_range_succ, sum_range_succ]
    push_cast
    ring

theorem sum_sub_const (z : ℕ → ℝ) (k : ℕ) (t : ℝ) : ∑ i ∈ range k, (z i - t) = ∑ i ∈ range k, z i - k * t := by
  rw [sum_sub_distrib]
  simp

theorem tauAt_lt (h : candidateAt alpha15 z r = true) : tauAt alpha15 z r < z r := by
  unfold candidateAt isCandidate at h
  cases alpha15
  · exact of_decide_eq_true h
  · simp only [if_true, Bool.and_eq_true, decide_eq_true_eq] at h
    exact h.2

theorem disc_nonneg (h : candidateAt true z r = true) :
    0 ≤ (∑ i ∈ range (r + 1), z i) * (∑ i ∈ range (r + 1), z i) -
      (r + 1 : ℕ) * (∑ i ∈ range (r + 1), z i * z i - 4) := by
  simp only [candidateAt, isCandidate, if_true, Bool.and_eq_true, decide_eq_true_eq] at h
  exact h.1

/-- The smaller root of the quadratic of `k` entries. -/
theorem quadratic_root {k p q : ℝ} (hk : k ≠ 0) (hdisc : 0 ≤ p * p - k * (q - 4)) :
    q - 2 * ((p - √(p * p - k * (q - 4))) / k) * p + k * ((p - √(p * p - k * (q - 4))) / k) ^ 2 = 4 := by
  have hsq := Real.sq_sqrt hdisc
  generalize √(p * p - k * (q - 4)) = d at hsq ⊢
  field_simp
  linear_combination hsq

/-- Where the quadratic is below its level, it has roots, and the smaller lies below. -/
theorem root_lt {k p q x : ℝ} (hk : 0 < k) (hx : q - 2 * x * p + k * x ^ 2 < 4) :
    0 ≤ p * p - k * (q - 4) ∧ (p - √(p * p - k * (q - 4))) / k < x := by
  have hlt : (p - k * x) ^ 2 < p * p - k * (q - 4) := by
    have := mul_lt_mul_of_pos_left hx hk
    linarith [this]
  refine ⟨(sq_nonneg _).trans hlt.le, ?_⟩
  have hroot := Real.lt_sqrt_of_sq_lt hlt
  rw [div_lt_iff₀ hk]
  linarith

theorem sum_sq_tauAt (h : candidateAt true z r = true) :
    ∑ i ∈ range (r + 1), (z i - tauAt true z r) ^ 2 = 4 := by
  have hdisc := disc_nonneg h
  rw [sum_sq_sub, tauAt, candidateTau, if_pos rfl, max_eq_left hdisc, quadratic_root (by positivity) hdisc]

/-- A candidate gives the entries it is taken over amplitudes of sum one. -/
theorem sum_amplitude_prefix (h : candidateAt alpha15 z r = true) (hz : ∀ i ≤ r, z r ≤ z i) :
    ∑ i ∈ range (r + 1), amplitude alpha15 (z i - tauAt alpha15 z r) = 1 := by
  have htau := tauAt_lt h
  have hnonneg : ∀ i ∈ range (r + 1), 0 ≤ z i - tauAt alpha15 z r := fun i hi => by
    have := hz i (by simpa [Nat.lt_succ_iff] using hi)
    linarith
  rw [sum_congr rfl fun i hi => amplitude_of_nonneg (hnonneg i hi)]
  have hk : ((r + 1 : ℕ) : ℝ) ≠ 0 := by positivity
  cases alpha15
  · simp only [Bool.false_eq_true, if_false]
    rw [sum_sub_const, tauAt, candidateTau, if_neg (by simp), mul_div_cancel₀ _ hk]
    ring
  · simp only [if_true]
    rw [← sum_div, sum_sq_tauAt h]
    norm_num

/-- The entry after the last candidate's is at or below its threshold. -/
theorem le_tauAt_of_not_candidate (h : candidateAt alpha15 z r = true) (hnext : candidateAt alpha15 z (r + 1) = false)
    (hz : ∀ i ≤ r, z r ≤ z i) (hdesc : z (r + 1) ≤ z r) : z (r + 1) ≤ tauAt alpha15 z r := by
  by_contra hlt
  rw [not_le] at hlt
  have hk : (0 : ℝ) < (r + 1 : ℕ) := by positivity
  have hk' : (0 : ℝ) < (r + 1 + 1 : ℕ) := by positivity
  refine absurd hnext ?_
  rw [Bool.not_eq_false]
  cases alpha15
  · rw [tauAt, candidateTau, if_neg (by simp), div_lt_iff₀ hk] at hlt
    refine decide_eq_true ?_
    rw [candidateTau, if_neg (by simp), div_lt_iff₀ hk', sum_range_succ]
    push_cast at hlt ⊢
    linarith
  · -- at that entry the longer prefix's quadratic is below its level
    have hbelow : ∑ i ∈ range (r + 1 + 1), (z i - z (r + 1)) ^ 2 < 4 := by
      rw [sum_range_succ, sub_self, ← sum_sq_tauAt h]
      have hterm : ∀ i ∈ range (r + 1), (z i - z (r + 1)) ^ 2 < (z i - tauAt true z r) ^ 2 := fun i hi => by
        have := hz i (by simpa [Nat.lt_succ_iff] using hi)
        exact pow_lt_pow_left₀ (by linarith) (by linarith) (by norm_num)
      have := sum_lt_sum_of_nonempty (by simp) hterm
      linarith
    rw [sum_sq_sub] at hbelow
    obtain ⟨hdisc, hroot⟩ := root_lt hk' hbelow
    simp only [candidateAt, isCandidate, candidateTau, if_true, Bool.and_eq_true, decide_eq_true_eq]
    rw [max_eq_left hdisc]
    exact ⟨hdisc, hroot⟩

/-- The first entry is a candidate. -/
theorem candidateAt_zero (alpha15 : Bool) (z : ℕ → ℝ) : candidateAt alpha15 z 0 = true := by
  unfold candidateAt isCandidate candidateTau
  cases alpha15
  · simp
  · simp

/-- The last candidate's threshold is the whole row's. -/
theorem sum_amplitude_tauAt (hdesc : ∀ i j, i ≤ j → j < n → z j ≤ z i) (hr : r < n)
    (h : candidateAt alpha15 z r = true) (hlast : ∀ r', r < r' → r' < n → candidateAt alpha15 z r' = false) :
    ∑ i ∈ range n, amplitude alpha15 (z i - tauAt alpha15 z r) = 1 := by
  rw [← sum_amplitude_prefix h fun i hi => hdesc i r hi hr]
  symm
  refine sum_subset (fun i hi => ?_) fun i hi hnot => amplitude_of_nonpos ?_
  · simp only [mem_range] at hi ⊢
    omega
  · simp only [mem_range] at hi hnot
    have hnext := le_tauAt_of_not_candidate h (hlast (r + 1) (by omega) (by omega)) (fun i hi => hdesc i r hi hr)
      (hdesc r (r + 1) (by omega) (by omega))
    have := hdesc (r + 1) i (by omega) hi
    linarith

end Rola.Entmax
