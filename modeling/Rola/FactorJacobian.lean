import Rola.EntmaxBackward
import Rola.EntmaxGradient
import Rola.EntmaxLowering

/-!
# The factor backward is the transposed Jacobian

A row of `n` logits moves in `Fin n → ℝ`. Where its support does not change, the forward's derivative is
diagonal less rank one on the support, and the backward applies its transpose to the gradient. The sums
behind it are over the row, so neither the forward's layout nor the backward's enters.
-/

namespace Rola.Entmax
open Finset hiding sum_apply
open Filter Topology

attribute [local instance] atLeastTwo_two

variable {n : ℕ}

/-- The row with the given logits. -/
noncomputable abbrev rowAt (mask : Option (ℕ → Bool)) (z : Fin n → ℝ) : Row ℝ :=
  ⟨n, fun col => if h : col < n then z ⟨col, h⟩ else 0, mask⟩

variable {dev : Device ℝ} {alpha15 : Bool} {mask : Option (ℕ → Bool)} {lay : Layout n} {z : Fin n → ℝ}

theorem rowAt_logit (mask : Option (ℕ → Bool)) (z : Fin n → ℝ) (i : Fin n) : (rowAt mask z).logit i = z i :=
  dif_pos i.isLt

noncomputable def factorForward (dev : Device ℝ) (alpha15 : Bool) (mask : Option (ℕ → Bool)) (lay : Layout n)
    (z : Fin n → ℝ) (i : Fin n) : ℝ := forwardValue dev alpha15 lay.LW lay.IPT (rowAt mask z) i

noncomputable def supported (dev : Device ℝ) (alpha15 : Bool) (mask : Option (ℕ → Bool)) (lay : Layout n)
    (z : Fin n → ℝ) : Finset (Fin n) :=
  univ.filter fun i => forwardSupport dev alpha15 lay.LW lay.IPT (rowAt mask z) i = true

/-- The support does not change near `z`. -/
def LocallyConstant (dev : Device ℝ) (alpha15 : Bool) (mask : Option (ℕ → Bool)) (lay : Layout n) (z : Fin n → ℝ) :
    Prop :=
  ∀ᶠ z' in 𝓝 z, supported dev alpha15 mask lay z' = supported dev alpha15 mask lay z

theorem mem_supported {i : Fin n} : i ∈ supported dev alpha15 mask lay z ↔
    (rowAt mask z).valid i = true ∧ threshold dev alpha15 (rowAt mask z) lay < z i := by
  rw [supported, mem_filter, ← rowAt_logit mask z i, and_iff_right (mem_univ i),
    @forwardSupport_eq dev alpha15 (rowAt mask z) lay i, Bool.and_eq_true, decide_eq_true_eq]

theorem factorForward_eq (i : Fin n) : factorForward dev alpha15 mask lay z i =
    if i ∈ supported dev alpha15 mask lay z then amplitude alpha15 (z i - threshold dev alpha15 (rowAt mask z) lay)
    else 0 := by
  rw [factorForward, @forwardValue_eq dev alpha15 (rowAt mask z) lay i, rowAt_logit]
  by_cases hvalid : (rowAt mask z).valid i = true
  · rw [if_pos hvalid]
    split
    · rfl
    · rename_i hno
      rw [mem_supported, and_iff_right hvalid, not_lt] at hno
      exact amplitude_of_nonpos (by linarith)
  · rw [if_neg hvalid, if_neg (by rw [mem_supported]; exact fun h => hvalid h.1)]

/-- A row with an unmasked entry has a supported one, and the supported amplitudes sum to one. -/
theorem sum_supported (hdev : dev.Exact) (hne : (rowAt mask z).columns.Nonempty) :
    ∑ i ∈ supported dev alpha15 mask lay z, amplitude alpha15 (z i - threshold dev alpha15 (rowAt mask z) lay) = 1 := by
  have hsum := @sum_forwardValue dev alpha15 (rowAt mask z) lay hdev hne
  have heq : ∀ i : Fin n, forwardValue dev alpha15 lay.LW lay.IPT (rowAt mask z) i = _ := fun i => factorForward_eq i
  rw [sum_range, sum_congr rfl fun i _ => heq i, sum_ite_mem, univ_inter] at hsum
  exact hsum

theorem localSupport (hdev : dev.Exact) (hne : (rowAt mask z).columns.Nonempty)
    (hloc : LocallyConstant dev alpha15 mask lay z) :
    LocalSupport alpha15 (supported dev alpha15 mask lay z) (fun z => threshold dev alpha15 (rowAt mask z) lay) z where
  above := by
    filter_upwards [hloc] with z' hz' i hi
    rw [← hz', mem_supported] at hi
    exact hi.2
  sum_one := by
    filter_upwards [hloc] with z' hz'
    rw [← hz']
    exact @sum_supported n dev alpha15 mask lay z' hdev hne

/-! ### The derivative of the forward -/

/-- Each supported entry's slope. -/
noncomputable def slopes (dev : Device ℝ) (alpha15 : Bool) (mask : Option (ℕ → Bool)) (lay : Layout n) (z : Fin n → ℝ)
    (i : Fin n) : ℝ := slope alpha15 (z i - threshold dev alpha15 (rowAt mask z) lay)

theorem jacobian_adjoint (S : Finset (Fin n)) (s g d : Fin n → ℝ) :
    ∑ i, g i * jacobian S s d i = ∑ i, jacobian S s g i * d i := by
  simp only [jacobian_apply, mul_ite, ite_mul, mul_zero, zero_mul, sum_ite_mem, univ_inter]
  exact rank_one_adjoint S s g d

theorem hasFDerivAt_factorForward (hdev : dev.Exact) (hloc : LocallyConstant dev alpha15 mask lay z) :
    HasFDerivAt (factorForward dev alpha15 mask lay)
      (jacobian (supported dev alpha15 mask lay z) (slopes dev alpha15 mask lay z)) z := by
  have hforward : ∀ i, (fun z' => factorForward dev alpha15 mask lay z' i) =ᶠ[𝓝 z] fun z' =>
      if i ∈ supported dev alpha15 mask lay z then amplitude alpha15 (z' i - threshold dev alpha15 (rowAt mask z') lay)
      else 0 := fun i => by
    filter_upwards [hloc] with z' hz'
    rw [factorForward_eq, hz']
  refine hasFDerivAt_pi.2 fun i => ?_
  refine HasFDerivAt.congr_of_eventuallyEq ?_ (hforward i)
  by_cases hi : i ∈ supported dev alpha15 mask lay z
  · simp only [if_pos hi]
    have hne : (rowAt mask z).columns.Nonempty := ⟨i, Row.mem_columns.2 (mem_supported.1 hi).1⟩
    have h := localSupport hdev hne hloc
    exact h.hasFDerivAt_amplitude h.hasFDerivAt hi
  · simp only [if_neg hi]
    exact hasFDerivAt_const 0 z

/-! ### The backward's sums -/

theorem sum_mem (S : Finset (Fin n)) (f : Fin n → ℝ) : ∑ i ∈ S, f i = ∑ i, if i ∈ S then f i else 0 := by
  rw [sum_ite_mem, univ_inter]

theorem warpSum_row (lay : Layout n) {f : ℕ → ℝ} (hf : ∀ col, n ≤ col → f col = 0) :
    warpSum lay.LW lay.IPT (fun lane i => f (lane + i * lay.LW)) = ∑ i : Fin n, f i := by
  unfold warpSum
  rw [sum_map_range]
  have hitems : ∀ lane, (List.range lay.IPT).foldl (fun s i => s + f (lane + i * lay.LW)) 0 =
      ∑ i ∈ range lay.IPT, f (lane + i * lay.LW) := fun lane => by
    rw [foldl_add, zero_add]
  rw [sum_congr rfl fun lane _ => hitems lane, sum_striped, ← sum_range f]
  symm
  refine sum_subset (fun col hcol => ?_) fun col _ hcol => ?_
  · rw [mem_range] at hcol ⊢
    exact hcol.trans_le lay.width_le
  · rw [mem_range, not_lt] at hcol
    exact hf col hcol

/-- What the backward of the row at `z` reads: the forward's amplitudes, the support words they were
stored with, and the gradients of its one or two outputs. -/
noncomputable def savedRow (dev : Device ℝ) (alpha15 : Bool) (mask : Option (ℕ → Bool)) (lay : Layout n) (z : Fin n → ℝ)
    (g : ℕ → ℝ) (g2 : Option (ℕ → ℝ)) : FactorGrad ℝ where
  width := n
  mask := mask
  word col := forwardSupport dev alpha15 lay.LW lay.IPT (rowAt mask z) col &&
    decide (forwardValue dev alpha15 lay.LW lay.IPT (rowAt mask z) col ≠ 0)
  values := forwardValue dev alpha15 lay.LW lay.IPT (rowAt mask z)
  dValues := g
  dValuesSecond := g2

section Saved

variable {g : ℕ → ℝ} {g2 : Option (ℕ → ℝ)}

theorem live_savedRow (col : ℕ) : (savedRow dev alpha15 mask lay z g g2).live col =
    forwardSupport dev alpha15 lay.LW lay.IPT (rowAt mask z) col := by
  rw [Bool.eq_iff_iff]
  unfold FactorGrad.live
  simp only [savedRow, Bool.and_eq_true, decide_eq_true_eq]
  refine ⟨fun h => h.2.1, fun h => ⟨?_, h, ?_⟩⟩
  · rw [@forwardSupport_eq dev alpha15 (rowAt mask z) lay, Bool.and_eq_true] at h
    rw [← Bool.and_eq_true]
    exact h.1
  · exact ((@forwardValue_pos dev alpha15 (rowAt mask z) lay col).2 h).ne'

theorem live_savedRow_fin (i : Fin n) : (savedRow dev alpha15 mask lay z g g2).live i = true ↔
    i ∈ supported dev alpha15 mask lay z := by
  rw [live_savedRow, supported, mem_filter, and_iff_right (mem_univ i)]

theorem s_savedRow (hdev : dev.Exact) (i : Fin n) : (savedRow dev alpha15 mask lay z g g2).s dev.sqrt alpha15 i =
    if i ∈ supported dev alpha15 mask lay z then slopes dev alpha15 mask lay z i else 0 := by
  unfold FactorGrad.s
  by_cases hi : i ∈ supported dev alpha15 mask lay z
  · rw [if_pos hi, if_pos ((live_savedRow_fin i).2 hi), slopeOf, slopes, slope, hdev.sqrt]
    cases alpha15
    · rfl
    · have hvalue : (savedRow dev true mask lay z g g2).values i =
          amplitude true (z i - threshold dev true (rowAt mask z) lay) := by
        have := @factorForward_eq n dev true mask lay z i
        rwa [if_pos hi] at this
      rw [if_pos rfl, if_pos rfl, hvalue, sqrt_amplitude (sub_pos.2 (mem_supported.1 hi).2).le]
  · rw [if_neg hi, if_neg fun h => hi ((live_savedRow_fin i).1 h)]

theorem s_savedRow_past {col : ℕ} (hcol : n ≤ col) : (savedRow dev alpha15 mask lay z g g2).s dev.sqrt alpha15 col = 0 := by
  refine if_neg fun h => ?_
  rw [live_savedRow, @forwardSupport_eq dev alpha15 (rowAt mask z) lay, Bool.and_eq_true] at h
  have : col < n := Row.valid_lt h.1
  omega

theorem dp_savedRow {i : Fin n} (hi : i ∈ supported dev alpha15 mask lay z) :
    (savedRow dev alpha15 mask lay z g g2).dp i = g i + g2.elim 0 (· i) :=
  if_pos ((live_savedRow_fin i).2 hi)

/-- The backward applies the Jacobian, in any layout. -/
theorem dz_savedRow (hdev : dev.Exact) (lay' : Layout n) (i : Fin n) :
    (savedRow dev alpha15 mask lay z g g2).dz dev.sqrt alpha15 lay'.LW lay'.IPT i =
      jacobian (supported dev alpha15 mask lay z) (slopes dev alpha15 mask lay z)
        (fun i => g i + g2.elim 0 (· i)) i := by
  have hnum : (savedRow dev alpha15 mask lay z g g2).num dev.sqrt alpha15 lay'.LW lay'.IPT =
      ∑ i ∈ supported dev alpha15 mask lay z, slopes dev alpha15 mask lay z i * (g i + g2.elim 0 (· i)) := by
    have hpast : ∀ col, n ≤ col → (savedRow dev alpha15 mask lay z g g2).s dev.sqrt alpha15 col *
        (savedRow dev alpha15 mask lay z g g2).dp col = 0 := fun col hcol => by rw [s_savedRow_past hcol, zero_mul]
    rw [sum_mem]
    refine (warpSum_row lay' hpast).trans ?_
    refine sum_congr rfl fun i _ => ?_
    rw [s_savedRow hdev]
    split
    · rename_i hi
      rw [dp_savedRow hi]
    · exact zero_mul _
  have hden : warpSum lay'.LW lay'.IPT (fun lane i =>
      (savedRow dev alpha15 mask lay z g g2).s dev.sqrt alpha15 (lane + i * lay'.LW)) =
      ∑ i ∈ supported dev alpha15 mask lay z, slopes dev alpha15 mask lay z i := by
    rw [sum_mem]
    refine (warpSum_row lay' fun col hcol => s_savedRow_past hcol).trans ?_
    exact sum_congr rfl fun i _ => s_savedRow hdev i
  rw [jacobian_apply, FactorGrad.dz]
  by_cases hi : i ∈ supported dev alpha15 mask lay z
  · have hpos : 0 < ∑ i ∈ supported dev alpha15 mask lay z, slopes dev alpha15 mask lay z i :=
      sum_pos (fun j hj => slope_pos (sub_pos.2 (mem_supported.1 hj).2)) ⟨i, hi⟩
    rw [if_pos hi, if_pos ((live_savedRow_fin i).2 hi), s_savedRow hdev, if_pos hi, dp_savedRow hi, hnum,
      FactorGrad.den, hden, orOne, if_pos hpos, weightedMean_apply]
  · rw [if_neg hi, if_neg fun h => hi ((live_savedRow_fin i).1 h)]

theorem sum_dz_savedRow (hdev : dev.Exact) (lay' : Layout n) :
    ∑ i : Fin n, (savedRow dev alpha15 mask lay z g g2).dz dev.sqrt alpha15 lay'.LW lay'.IPT i = 0 := by
  simp only [dz_savedRow hdev lay', jacobian_apply]
  rw [← sum_mem]
  simp only [mul_sub, sum_sub_distrib, ← sum_mul]
  rcases (supported dev alpha15 mask lay z).eq_empty_or_nonempty with hempty | hne
  · rw [hempty]
    simp
  · have hpos : 0 < ∑ i ∈ supported dev alpha15 mask lay z, slopes dev alpha15 mask lay z i :=
      sum_pos (fun j hj => slope_pos (sub_pos.2 (mem_supported.1 hj).2)) hne
    rw [weightedMean_apply, mul_div_cancel₀ _ hpos.ne', sub_self]

end Saved

/-! ### The layouts -/

theorem sameEntries_rowAt (mask : Option (ℕ → Bool)) (z : Fin n → ℝ) : SameEntries (rowAt mask z) (rowAt mask z) id :=
  ⟨Set.bijOn_id _, fun _ _ => rfl⟩

theorem threshold_layout (hdev : dev.Exact) (lay lay' : Layout n) {i : Fin n} (hi : (rowAt mask z).valid i = true) :
    threshold dev alpha15 (rowAt mask z) lay' = threshold dev alpha15 (rowAt mask z) lay :=
  (sameEntries_rowAt mask z).threshold_eq hdev ⟨i, Row.mem_columns.2 hi⟩

theorem supported_layout (hdev : dev.Exact) (lay lay' : Layout n) :
    supported dev alpha15 mask lay' z = supported dev alpha15 mask lay z := by
  ext i
  rw [mem_supported, mem_supported]
  exact and_congr_right fun hi => by rw [threshold_layout hdev lay lay' hi]

theorem factorForward_layout (hdev : dev.Exact) (lay lay' : Layout n) :
    factorForward dev alpha15 mask lay' z = factorForward dev alpha15 mask lay z := by
  funext i
  rw [factorForward_eq, factorForward_eq, supported_layout hdev lay lay']
  split
  · rename_i hi
    rw [threshold_layout hdev lay lay' (mem_supported.1 hi).1]
  · rfl

theorem jacobian_layout (hdev : dev.Exact) (lay lay' : Layout n) :
    jacobian (supported dev alpha15 mask lay' z) (slopes dev alpha15 mask lay' z) =
      jacobian (supported dev alpha15 mask lay z) (slopes dev alpha15 mask lay z) := by
  rw [supported_layout hdev lay lay']
  rcases (supported dev alpha15 mask lay z).eq_empty_or_nonempty with hempty | ⟨i, hi⟩
  · rw [hempty]
    ext d i
    rw [jacobian_apply, jacobian_apply, if_neg (notMem_empty i), if_neg (notMem_empty i)]
  · congr 1
    funext j
    rw [slopes, slopes, threshold_layout hdev lay lay' (mem_supported.1 hi).1]

/-! ### The torch lowering -/

/-- On an unmasked row the lowering's backward is the same Jacobian's. -/
theorem sortedBackward_eq (hdev : dev.Exact) (lay : Layout n) (z : Fin n → ℝ) (g : ℕ → ℝ) :
    sortedBackward dev.sqrt alpha15 (sortedSolve dev alpha15 ((List.range n).map (rowAt none z).logit))
        ((List.range n).map g) =
      (List.range n).map ((savedRow dev alpha15 none lay z g none).dz dev.sqrt alpha15 lay.LW lay.IPT) := by
  have hsolve := @sortedSolve_eq dev alpha15 (rowAt none z) lay hdev rfl
  change sortedSolve dev alpha15 ((List.range n).map (rowAt none z).logit) = (List.range n).map _ at hsolve
  rw [hsolve]
  have hs : ∀ col ∈ List.range n, (if forwardSupport dev alpha15 lay.LW lay.IPT (rowAt none z) col then
      slopeOf dev.sqrt alpha15 (max (forwardValue dev alpha15 lay.LW lay.IPT (rowAt none z) col) 0) else 0) =
      (savedRow dev alpha15 none lay z g none).s dev.sqrt alpha15 col := fun col _ => by
    rw [FactorGrad.s, live_savedRow, max_eq_left (@forwardValue_nonneg dev alpha15 (rowAt none z) lay col)]
    rfl
  have hlive : ∀ col, (savedRow dev alpha15 none lay z g none).live col = true →
      (savedRow dev alpha15 none lay z g none).dp col = g col := fun col h => (if_pos h).trans (add_zero _)
  have hdead : ∀ col, ¬ (savedRow dev alpha15 none lay z g none).live col = true →
      (savedRow dev alpha15 none lay z g none).s dev.sqrt alpha15 col = 0 := fun col h => if_neg h
  have hdp : ∀ col, (savedRow dev alpha15 none lay z g none).s dev.sqrt alpha15 col * g col =
      (savedRow dev alpha15 none lay z g none).s dev.sqrt alpha15 col * (savedRow dev alpha15 none lay z g none).dp col := by
    intro col
    by_cases h : (savedRow dev alpha15 none lay z g none).live col = true
    · rw [hlive col h]
    · rw [hdead col h, zero_mul, zero_mul]
  have hpast : ∀ col, n ≤ col → (savedRow dev alpha15 none lay z g none).s dev.sqrt alpha15 col = 0 := fun col hcol =>
    s_savedRow_past hcol
  have hnum : (savedRow dev alpha15 none lay z g none).num dev.sqrt alpha15 lay.LW lay.IPT =
      ((List.range n).map fun col => (savedRow dev alpha15 none lay z g none).s dev.sqrt alpha15 col * g col).sum := by
    rw [sum_map_range, sum_range]
    refine (warpSum_row lay (f := fun col => (savedRow dev alpha15 none lay z g none).s dev.sqrt alpha15 col *
      (savedRow dev alpha15 none lay z g none).dp col) fun col hcol => by rw [hpast col hcol, zero_mul]).trans ?_
    exact sum_congr rfl fun i _ => (hdp i).symm
  have hden : (savedRow dev alpha15 none lay z g none).den dev.sqrt alpha15 lay.LW lay.IPT =
      orOne ((List.range n).map ((savedRow dev alpha15 none lay z g none).s dev.sqrt alpha15)).sum := by
    rw [FactorGrad.den, sum_map_range, sum_range, warpSum_row lay hpast]
  unfold sortedBackward
  simp only [List.map_map]
  rw [List.map_congr_left (f := _ ∘ _) hs]
  simp only [List.zipWith_map, List.zipWith_self]
  rw [← hnum, ← hden]
  refine List.map_congr_left fun col _ => ?_
  rw [FactorGrad.dz]
  split
  · rename_i h
    rw [hlive col h]
  · rename_i h
    rw [hdead col h, zero_mul]

end Rola.Entmax
