import Rola.UnionSplit

/-!
# The union backward is the transposed Jacobian

The halves are differentiated as functions of both sides' logits, a saturated difference held where it
is. Through the split a gradient reaches the amplitudes and the differences, through the solve the
midpoints, and the logits take half of the one and all of the other, with either sign.
-/

namespace Rola.Entmax
open Finset hiding sum_apply
open Filter Topology
open Real (sigmoid)

attribute [local instance] atLeastTwo_two

variable {dev : UnionDevice ℝ} {n : ℕ} {alpha15 : Bool} {lay : Layout n} {r w : Fin n → ℝ}

/-- The differences at the logits `e`, those that saturate at `r` and `w` held. -/
noncomputable def frozen (r w : Fin n → ℝ) (e : (Fin n → ℝ) × (Fin n → ℝ)) (i : Fin n) : ℝ :=
  if (overflowFreeDelta (r i) (w i)).2 then deltas r w i else e.1 i - e.2 i

theorem frozen_self (r w : Fin n → ℝ) : frozen r w (r, w) = deltas r w := by
  funext i
  rw [frozen]
  split
  · rfl
  · rename_i hsat
    exact (overflowFreeDelta_unsaturated (Bool.not_eq_true _ ▸ hsat)).symm

/-- The read and write halves near `r` and `w`. -/
noncomputable def unionForward (dev : UnionDevice ℝ) (alpha15 : Bool) (lay : Layout n) (r w : Fin n → ℝ)
    (e : (Fin n → ℝ) × (Fin n → ℝ)) : (Fin n → ℝ) × (Fin n → ℝ) :=
  (splitRead (amplitudes dev alpha15 lay e.1 e.2) (frozen r w e),
    splitWrite (amplitudes dev alpha15 lay e.1 e.2) (frozen r w e))

/-- At `r` and `w` they are what the kernel stores. -/
theorem unionForward_self (hdev : dev.Exact) (r w : Fin n → ℝ) : unionForward dev alpha15 lay r w (r, w) =
    (fun i : Fin n => unionRead dev alpha15 lay.LW lay.IPT (unionAt r w) (i % lay.LW) (i / lay.LW),
      fun i : Fin n => unionWrite dev alpha15 lay.LW lay.IPT (unionAt r w) (i % lay.LW) (i / lay.LW)) := by
  unfold unionForward
  rw [frozen_self, Prod.mk.injEq]
  exact ⟨funext fun i => (unionRead_eq hdev i).symm, funext fun i => (unionWrite_eq hdev i).symm⟩

/-- The midpoints' support does not change near the logits `r` and `w`. -/
def UnionLocallyConstant (dev : UnionDevice ℝ) (alpha15 : Bool) (lay : Layout n) (r w : Fin n → ℝ) : Prop :=
  ∀ᶠ e in 𝓝 (r, w), supported dev.toDevice alpha15 none lay (midpoint e.1 e.2) =
    supported dev.toDevice alpha15 none lay (midpoint r w)

theorem UnionLocallyConstant.midpoint (h : UnionLocallyConstant dev alpha15 lay r w) :
    LocallyConstant dev.toDevice alpha15 none lay (midpoint r w) := by
  -- both sides move with the midpoint
  have hcont : Tendsto (fun z : Fin n → ℝ => (r + (z - Entmax.midpoint r w), w + (z - Entmax.midpoint r w)))
      (𝓝 (Entmax.midpoint r w)) (𝓝 (r, w)) := by
    have hc : Continuous fun z : Fin n → ℝ => (r + (z - Entmax.midpoint r w), w + (z - Entmax.midpoint r w)) := by
      fun_prop
    have := hc.tendsto (Entmax.midpoint r w)
    simpa using this
  filter_upwards [hcont.eventually h] with z hz
  have hmid : Entmax.midpoint (r + (z - Entmax.midpoint r w)) (w + (z - Entmax.midpoint r w)) = z := by
    funext i
    simp only [Entmax.midpoint, Pi.add_apply, Pi.sub_apply]
    ring
  rwa [hmid] at hz

/-! ### The derivative of the forward -/

noncomputable def midpointMap (n : ℕ) : (Fin n → ℝ) × (Fin n → ℝ) →L[ℝ] (Fin n → ℝ) :=
  (1 / 2 : ℝ) • ContinuousLinearMap.fst ℝ _ _ + (1 / 2 : ℝ) • ContinuousLinearMap.snd ℝ _ _

theorem midpointMap_apply (d : (Fin n → ℝ) × (Fin n → ℝ)) : midpointMap n d = midpoint d.1 d.2 := by
  funext i
  simp [midpointMap, midpoint]

/-- The support's Jacobian at the midpoints. -/
noncomputable def solveJacobian (dev : UnionDevice ℝ) (alpha15 : Bool) (lay : Layout n) (r w : Fin n → ℝ) :
    (Fin n → ℝ) →L[ℝ] (Fin n → ℝ) :=
  jacobian (supported dev.toDevice alpha15 none lay (midpoint r w))
    (slopes dev.toDevice alpha15 none lay (midpoint r w))

noncomputable def amplitudeDeriv (dev : UnionDevice ℝ) (alpha15 : Bool) (lay : Layout n) (r w : Fin n → ℝ) (i : Fin n) :
    (Fin n → ℝ) × (Fin n → ℝ) →L[ℝ] ℝ :=
  ContinuousLinearMap.proj i ∘L solveJacobian dev alpha15 lay r w ∘L midpointMap n

noncomputable def differenceMap (i : Fin n) : (Fin n → ℝ) × (Fin n → ℝ) →L[ℝ] ℝ :=
  ContinuousLinearMap.proj i ∘L (ContinuousLinearMap.fst ℝ _ _ - ContinuousLinearMap.snd ℝ _ _)

noncomputable def deltaDeriv (r w : Fin n → ℝ) (i : Fin n) : (Fin n → ℝ) × (Fin n → ℝ) →L[ℝ] ℝ :=
  if (overflowFreeDelta (r i) (w i)).2 then 0 else differenceMap i

theorem hasFDerivAt_amplitudes (hdev : dev.Exact) (hloc : UnionLocallyConstant dev alpha15 lay r w) (i : Fin n) :
    HasFDerivAt (fun e : (Fin n → ℝ) × (Fin n → ℝ) => amplitudes dev alpha15 lay e.1 e.2 i)
      (amplitudeDeriv dev alpha15 lay r w i) (r, w) := by
  have hforward : HasFDerivAt (factorForward dev.toDevice alpha15 none lay) (solveJacobian dev alpha15 lay r w)
      (midpointMap n (r, w)) := by
    rw [midpointMap_apply]
    exact hasFDerivAt_factorForward hdev.toDevice hloc.midpoint
  have hcomp := (hasFDerivAt_apply i _).comp (r, w) (hforward.comp (r, w) (midpointMap n).hasFDerivAt)
  refine hcomp.congr_of_eventuallyEq (Eventually.of_forall fun e => ?_)
  simp only [Function.comp, midpointMap_apply]
  rfl

theorem hasFDerivAt_frozen (r w : Fin n → ℝ) (i : Fin n) :
    HasFDerivAt (fun e => frozen r w e i) (deltaDeriv r w i) (r, w) := by
  unfold frozen deltaDeriv
  split
  · exact hasFDerivAt_const _ _
  · exact (differenceMap i).hasFDerivAt

/-- The halves' Jacobian. -/
noncomputable def unionJacobian (dev : UnionDevice ℝ) (alpha15 : Bool) (lay : Layout n) (r w : Fin n → ℝ) :
    (Fin n → ℝ) × (Fin n → ℝ) →L[ℝ] (Fin n → ℝ) × (Fin n → ℝ) :=
  (ContinuousLinearMap.pi (splitReadDeriv (amplitudes dev alpha15 lay r w) (deltas r w)
    (amplitudeDeriv dev alpha15 lay r w) (deltaDeriv r w))).prod
  (ContinuousLinearMap.pi (splitWriteDeriv (amplitudes dev alpha15 lay r w) (deltas r w)
    (amplitudeDeriv dev alpha15 lay r w) (deltaDeriv r w)))

/-- A row with a column has a supported one. -/
theorem sum_gated_pos (hdev : dev.Exact) (i : Fin n) :
    0 < ∑ j, gated (amplitudes dev alpha15 lay r w) (deltas r w) j := by
  have hne : (rowAt none (midpoint r w)).columns.Nonempty := ⟨i, Row.mem_columns.2 (by simp [Row.valid])⟩
  have hsum := @sum_supported n dev.toDevice alpha15 none lay (midpoint r w) hdev.toDevice hne
  obtain ⟨j, hj⟩ : (supported dev.toDevice alpha15 none lay (midpoint r w)).Nonempty := by
    by_contra hempty
    rw [not_nonempty_iff_eq_empty.1 hempty, sum_empty] at hsum
    exact zero_ne_one hsum
  exact sum_pos' (fun j _ => gated_nonneg j) ⟨j, mem_univ j, gated_pos hj⟩

theorem hasFDerivAt_unionForward (hdev : dev.Exact) (hloc : UnionLocallyConstant dev alpha15 lay r w) :
    HasFDerivAt (unionForward dev alpha15 lay r w) (unionJacobian dev alpha15 lay r w) (r, w) := by
  have hp := hasFDerivAt_amplitudes hdev hloc
  have hdelta := hasFDerivAt_frozen r w
  have hself := frozen_self r w
  refine HasFDerivAt.prodMk (hasFDerivAt_pi.2 fun i => ?_) (hasFDerivAt_pi.2 fun i => ?_)
  · have h := hasFDerivAt_splitRead (hp i) (hdelta i)
    rwa [hself] at h
  · have hne : ∑ j, gated (amplitudes dev alpha15 lay r w) (frozen r w (r, w)) j ≠ 0 := by
      rw [hself]
      exact (sum_gated_pos hdev i).ne'
    have h := hasFDerivAt_splitWrite hp hdelta hne i
    rwa [hself] at h

/-- What the gradients of the halves are as gradients of the logits. -/
noncomputable def midGrad (dev : UnionDevice ℝ) (alpha15 : Bool) (lay : Layout n) (r w dRead dWrite : Fin n → ℝ) :
    Fin n → ℝ :=
  solveJacobian dev alpha15 lay r w (ampGrad (supported dev.toDevice alpha15 none lay (midpoint r w))
    (amplitudes dev alpha15 lay r w) (deltas r w) dRead dWrite)

noncomputable def logitGrad (dev : UnionDevice ℝ) (alpha15 : Bool) (lay : Layout n) (r w dRead dWrite : Fin n → ℝ)
    (i : Fin n) : ℝ :=
  deltaGrad (amplitudes dev alpha15 lay r w) (deltas r w) dRead dWrite i *
    if (overflowFreeDelta (r i) (w i)).2 then 0 else 1

theorem unionJacobian_adjoint (r w dRead dWrite : Fin n → ℝ) (d : (Fin n → ℝ) × (Fin n → ℝ)) :
    ∑ i, dRead i * (unionJacobian dev alpha15 lay r w d).1 i + ∑ i, dWrite i * (unionJacobian dev alpha15 lay r w d).2 i =
      ∑ i, (1 / 2 * midGrad dev alpha15 lay r w dRead dWrite i + logitGrad dev alpha15 lay r w dRead dWrite i) * d.1 i +
      ∑ i, (1 / 2 * midGrad dev alpha15 lay r w dRead dWrite i - logitGrad dev alpha15 lay r w dRead dWrite i) * d.2 i := by
  have hsplit := split_adjoint (supported dev.toDevice alpha15 none lay (midpoint r w)) (amplitudes dev alpha15 lay r w)
    (deltas r w) dRead dWrite (solveJacobian dev alpha15 lay r w (midpoint d.1 d.2)) (fun i => deltaDeriv r w i d)
    (fun i hi => (amplitudes_pos hi).ne') fun i hi =>
      ⟨amplitudes_off hi, by rw [solveJacobian, jacobian_apply, if_neg hi]⟩
  have hamp : ∀ i, amplitudeDeriv dev alpha15 lay r w i d = solveJacobian dev alpha15 lay r w (midpoint d.1 d.2) i :=
    fun i => by rw [← midpointMap_apply]; rfl
  have hread : ∀ i, (unionJacobian dev alpha15 lay r w d).1 i =
      sigmoid (deltas r w i) * solveJacobian dev alpha15 lay r w (midpoint d.1 d.2) i +
        amplitudes dev alpha15 lay r w i * (sigmoid (deltas r w i) * sigmoid (-deltas r w i)) * deltaDeriv r w i d :=
    fun i => by rw [← hamp]; rfl
  have hwrite : ∀ i, (unionJacobian dev alpha15 lay r w d).2 i =
      (∑ j, gated (amplitudes dev alpha15 lay r w) (deltas r w) j)⁻¹ *
        ((sigmoid (-deltas r w i) * solveJacobian dev alpha15 lay r w (midpoint d.1 d.2) i -
          amplitudes dev alpha15 lay r w i * (sigmoid (deltas r w i) * sigmoid (-deltas r w i)) * deltaDeriv r w i d) -
        splitWrite (amplitudes dev alpha15 lay r w) (deltas r w) i *
          ∑ j, (sigmoid (-deltas r w j) * solveJacobian dev alpha15 lay r w (midpoint d.1 d.2) j -
            amplitudes dev alpha15 lay r w j * (sigmoid (deltas r w j) * sigmoid (-deltas r w j)) * deltaDeriv r w j d)) := by
    intro i
    simp only [unionJacobian, ContinuousLinearMap.prod_apply, ContinuousLinearMap.pi_apply, splitWriteDeriv, gatedDeriv,
      weighted_apply, total_apply, hamp, neg_mul, ← sub_eq_add_neg]
    ring
  have hdelta : ∀ i, deltaGrad (amplitudes dev alpha15 lay r w) (deltas r w) dRead dWrite i * deltaDeriv r w i d =
      logitGrad dev alpha15 lay r w dRead dWrite i * (d.1 i - d.2 i) := by
    intro i
    rw [deltaDeriv, logitGrad]
    split
    · simp
    · rw [mul_one]
      rfl
  simp only [hread, hwrite]
  rw [hsplit, solveJacobian, jacobian_adjoint, ← solveJacobian]
  simp only [hdelta]
  rw [← sum_add_distrib, ← sum_add_distrib]
  refine sum_congr rfl fun i _ => ?_
  rw [midGrad, midpoint]
  ring

/-! ### The backward's row -/

/-- What the backward of the row reads: what the forward stored, and the gradients of its halves. -/
noncomputable def savedUnion (dev : UnionDevice ℝ) (alpha15 : Bool) (lay : Layout n) (r w : Fin n → ℝ)
    (dRead dWrite : ℕ → ℝ) : UnionGrad ℝ where
  toUnionRow := unionAt r w
  midpointValues col := unionValue dev alpha15 lay.LW lay.IPT (unionAt r w) (col % lay.LW) (col / lay.LW)
  word col := unionSupport dev alpha15 lay.LW lay.IPT (unionAt r w) (col % lay.LW) (col / lay.LW) &&
    (decide (unionRead dev alpha15 lay.LW lay.IPT (unionAt r w) (col % lay.LW) (col / lay.LW) ≠ 0) ||
      decide (unionWrite dev alpha15 lay.LW lay.IPT (unionAt r w) (col % lay.LW) (col / lay.LW) ≠ 0))
  readValues col := unionRead dev alpha15 lay.LW lay.IPT (unionAt r w) (col % lay.LW) (col / lay.LW)
  writeValues col := unionWrite dev alpha15 lay.LW lay.IPT (unionAt r w) (col % lay.LW) (col / lay.LW)
  dRead := dRead
  dWrite := dWrite

section Saved

variable {dRead dWrite : ℕ → ℝ} {lay' : Layout n}

theorem load_savedUnion (plane : ℕ → ℝ) (i : Fin n) : (savedUnion dev alpha15 lay r w dRead dWrite).load plane i = plane i :=
  if_pos i.isLt

theorem load_savedUnion_past (plane : ℕ → ℝ) {col : ℕ} (hcol : n ≤ col) :
    (savedUnion dev alpha15 lay r w dRead dWrite).load plane col = 0 :=
  if_neg (not_lt.2 hcol)

theorem sup_savedUnion (hdev : dev.Exact) (i : Fin n) : (savedUnion dev alpha15 lay r w dRead dWrite).sup i = true ↔
    i ∈ supported dev.toDevice alpha15 none lay (midpoint r w) := by
  unfold UnionGrad.sup
  have hlt : decide ((i : ℕ) < (savedUnion dev alpha15 lay r w dRead dWrite).width) = true := decide_eq_true i.isLt
  rw [hlt, Bool.true_and]
  simp only [savedUnion, unionSupport_unionAt, Bool.and_eq_true, Bool.or_eq_true, decide_eq_true_eq]
  rw [supported, mem_filter, and_iff_right (mem_univ i)]
  refine and_iff_left_of_imp fun h => .inl ?_
  rw [unionRead_eq hdev]
  exact (mul_pos (amplitudes_pos (mem_filter.2 ⟨mem_univ i, h⟩)) (Real.sigmoid_pos _)).ne'

theorem sup_savedUnion_past {col : ℕ} (hcol : n ≤ col) :
    (savedUnion dev alpha15 lay r w dRead dWrite).sup col = false := by
  unfold UnionGrad.sup
  have hge : decide (col < (savedUnion dev alpha15 lay r w dRead dWrite).width) = false := decide_eq_false (not_lt.2 hcol)
  rw [hge, Bool.false_and]

theorem delta_savedUnion (i : Fin n) : (savedUnion dev alpha15 lay r w dRead dWrite).delta i =
    overflowFreeDelta (r i) (w i) := by
  rw [UnionGrad.delta, load_savedUnion, load_savedUnion]
  change overflowFreeDelta ((unionAt r w).read i) ((unionAt r w).write i) = _
  rw [unionAt_read, unionAt_write]

theorem gates_savedUnion (hdev : dev.Exact) (i : Fin n) :
    (savedUnion dev alpha15 lay r w dRead dWrite).readGate dev i = sigmoid (deltas r w i) ∧
    (savedUnion dev alpha15 lay r w dRead dWrite).writeGate dev i = sigmoid (-deltas r w i) := by
  rw [UnionGrad.readGate, UnionGrad.writeGate, delta_savedUnion, hdev.exp, Real.sigmoid_def, Real.sigmoid_def, neg_neg,
    one_div, one_div]
  exact ⟨rfl, rfl⟩

theorem dot_savedUnion (hdev : dev.Exact) : (savedUnion dev alpha15 lay r w dRead dWrite).dot lay'.LW lay'.IPT =
    ∑ i : Fin n, dWrite i * splitWrite (amplitudes dev alpha15 lay r w) (deltas r w) i := by
  unfold UnionGrad.dot
  refine (warpSum_row lay' (f := fun col => (savedUnion dev alpha15 lay r w dRead dWrite).load
    (savedUnion dev alpha15 lay r w dRead dWrite).dWrite col * (savedUnion dev alpha15 lay r w dRead dWrite).load
      (savedUnion dev alpha15 lay r w dRead dWrite).writeValues col) fun col hcol => ?_).trans ?_
  · rw [load_savedUnion_past _ hcol, zero_mul]
  · refine sum_congr rfl fun i _ => ?_
    rw [load_savedUnion, load_savedUnion, ← unionWrite_eq hdev]
    rfl

theorem dlw_savedUnion (hdev : dev.Exact) (i : Fin n) :
    (savedUnion dev alpha15 lay r w dRead dWrite).dlw lay'.LW lay'.IPT i =
      logGrad (amplitudes dev alpha15 lay r w) (deltas r w) (fun i : Fin n => dWrite i) i := by
  rw [UnionGrad.dlw, load_savedUnion, load_savedUnion, dot_savedUnion hdev, logGrad, ← unionWrite_eq hdev]
  rfl

theorem midpointValues_savedUnion (i : Fin n) : (savedUnion dev alpha15 lay r w dRead dWrite).load
    (savedUnion dev alpha15 lay r w dRead dWrite).midpointValues i = amplitudes dev alpha15 lay r w i := by
  rw [load_savedUnion, ← unionValue_unionAt]
  rfl

theorem dMid_savedUnion (hdev : dev.Exact) (i : Fin n) :
    (savedUnion dev alpha15 lay r w dRead dWrite).dMid dev lay'.LW lay'.IPT i =
      ampGrad (supported dev.toDevice alpha15 none lay (midpoint r w)) (amplitudes dev alpha15 lay r w) (deltas r w)
        (fun i : Fin n => dRead i) (fun i : Fin n => dWrite i) i := by
  rw [UnionGrad.dMid, load_savedUnion, (gates_savedUnion hdev i).1, dlw_savedUnion hdev, ampGrad]
  by_cases hi : i ∈ supported dev.toDevice alpha15 none lay (midpoint r w)
  · have hsup := (@sup_savedUnion dev n alpha15 lay r w dRead dWrite hdev i).2 hi
    have hne : decide (amplitudes dev alpha15 lay r w i ≠ 0) = true := decide_eq_true (amplitudes_pos hi).ne'
    rw [if_pos hi, if_pos hsup, UnionGrad.safe, midpointValues_savedUnion, hsup, hne, Bool.and_self, if_pos rfl]
    rfl
  · rw [if_neg hi, if_neg fun h => hi ((sup_savedUnion hdev i).1 h)]
    rfl

theorem dDelta_savedUnion (hdev : dev.Exact) (i : Fin n) :
    (savedUnion dev alpha15 lay r w dRead dWrite).dDelta dev lay'.LW lay'.IPT i =
      logitGrad dev alpha15 lay r w (fun i : Fin n => dRead i) (fun i : Fin n => dWrite i) i := by
  rw [UnionGrad.dDelta, load_savedUnion, load_savedUnion, (gates_savedUnion hdev i).1, (gates_savedUnion hdev i).2,
    dlw_savedUnion hdev, delta_savedUnion, logitGrad, deltaGrad, ← unionRead_eq hdev]
  rfl

theorem si_savedUnion (hdev : dev.Exact) (i : Fin n) :
    (savedUnion dev alpha15 lay r w dRead dWrite).si dev alpha15 i =
      if i ∈ supported dev.toDevice alpha15 none lay (midpoint r w) then
        slopes dev.toDevice alpha15 none lay (midpoint r w) i else 0 := by
  rw [UnionGrad.si, midpointValues_savedUnion]
  by_cases hi : i ∈ supported dev.toDevice alpha15 none lay (midpoint r w)
  · rw [if_pos hi, if_pos ((sup_savedUnion hdev i).2 hi), slopeOf, slopes, slope, hdev.toDevice.sqrt]
    cases alpha15
    · rfl
    · rw [if_pos rfl, if_pos rfl, amplitudes, factorForward_eq, if_pos hi,
        sqrt_amplitude (sub_pos.2 (mem_supported.1 hi).2).le]
  · rw [if_neg hi, if_neg fun h => hi ((sup_savedUnion hdev i).1 h)]

theorem si_savedUnion_past {col : ℕ} (hcol : n ≤ col) :
    (savedUnion dev alpha15 lay r w dRead dWrite).si dev alpha15 col = 0 := by
  rw [UnionGrad.si, sup_savedUnion_past hcol, if_neg (by simp)]

theorem dMl_savedUnion (hdev : dev.Exact) (i : Fin n) :
    (savedUnion dev alpha15 lay r w dRead dWrite).dMl dev alpha15 lay'.LW lay'.IPT i =
      midGrad dev alpha15 lay r w (fun i : Fin n => dRead i) (fun i : Fin n => dWrite i) i := by
  have hnum : (savedUnion dev alpha15 lay r w dRead dWrite).num dev alpha15 lay'.LW lay'.IPT =
      ∑ i ∈ supported dev.toDevice alpha15 none lay (midpoint r w),
        slopes dev.toDevice alpha15 none lay (midpoint r w) i *
          ampGrad (supported dev.toDevice alpha15 none lay (midpoint r w)) (amplitudes dev alpha15 lay r w) (deltas r w)
            (fun i : Fin n => dRead i) (fun i : Fin n => dWrite i) i := by
    have hpast : ∀ col, n ≤ col → (savedUnion dev alpha15 lay r w dRead dWrite).si dev alpha15 col *
        (savedUnion dev alpha15 lay r w dRead dWrite).dMid dev lay'.LW lay'.IPT col = 0 := fun col hcol => by
      rw [si_savedUnion_past hcol, zero_mul]
    rw [sum_mem]
    refine (warpSum_row lay' hpast).trans ?_
    refine sum_congr rfl fun i _ => ?_
    rw [si_savedUnion hdev, dMid_savedUnion hdev, ite_mul, zero_mul]
  have hden : warpSum lay'.LW lay'.IPT (fun lane i =>
      (savedUnion dev alpha15 lay r w dRead dWrite).si dev alpha15 (lane + i * lay'.LW)) =
      ∑ i ∈ supported dev.toDevice alpha15 none lay (midpoint r w), slopes dev.toDevice alpha15 none lay (midpoint r w) i := by
    rw [sum_mem]
    refine (warpSum_row lay' fun col hcol => si_savedUnion_past hcol).trans ?_
    exact sum_congr rfl fun i _ => si_savedUnion hdev i
  rw [midGrad, solveJacobian, jacobian_apply, UnionGrad.dMl, si_savedUnion hdev]
  by_cases hi : i ∈ supported dev.toDevice alpha15 none lay (midpoint r w)
  · have hpos : 0 < ∑ i ∈ supported dev.toDevice alpha15 none lay (midpoint r w),
        slopes dev.toDevice alpha15 none lay (midpoint r w) i :=
      sum_pos (fun j hj => slope_pos (sub_pos.2 (mem_supported.1 hj).2)) ⟨i, hi⟩
    rw [if_pos hi, if_pos hi, dMid_savedUnion hdev, hnum, UnionGrad.den, hden, orOne, if_pos hpos, weightedMean_apply]
  · rw [if_neg hi, if_neg hi, zero_mul]

theorem dReadLogits_savedUnion (hdev : dev.Exact) (i : Fin n) :
    (savedUnion dev alpha15 lay r w dRead dWrite).dReadLogits dev alpha15 lay'.LW lay'.IPT i =
      1 / 2 * midGrad dev alpha15 lay r w (fun i : Fin n => dRead i) (fun i : Fin n => dWrite i) i +
        logitGrad dev alpha15 lay r w (fun i : Fin n => dRead i) (fun i : Fin n => dWrite i) i := by
  rw [UnionGrad.dReadLogits, dMl_savedUnion hdev, dDelta_savedUnion hdev]

theorem dWriteLogits_savedUnion (hdev : dev.Exact) (i : Fin n) :
    (savedUnion dev alpha15 lay r w dRead dWrite).dWriteLogits dev alpha15 lay'.LW lay'.IPT i =
      1 / 2 * midGrad dev alpha15 lay r w (fun i : Fin n => dRead i) (fun i : Fin n => dWrite i) i -
        logitGrad dev alpha15 lay r w (fun i : Fin n => dRead i) (fun i : Fin n => dWrite i) i := by
  rw [UnionGrad.dWriteLogits, dMl_savedUnion hdev, dDelta_savedUnion hdev]

end Saved

theorem grads_layout (hdev : dev.Exact) (lay lay' : Layout n) (dRead dWrite : Fin n → ℝ) :
    midGrad dev alpha15 lay' r w dRead dWrite = midGrad dev alpha15 lay r w dRead dWrite ∧
    logitGrad dev alpha15 lay' r w dRead dWrite = logitGrad dev alpha15 lay r w dRead dWrite := by
  have hamp : amplitudes dev alpha15 lay' r w = amplitudes dev alpha15 lay r w :=
    factorForward_layout hdev.toDevice lay lay'
  have hsolve : solveJacobian dev alpha15 lay' r w = solveJacobian dev alpha15 lay r w :=
    jacobian_layout hdev.toDevice lay lay'
  refine ⟨?_, ?_⟩
  · rw [midGrad, midGrad, hamp, hsolve, supported_layout hdev.toDevice lay lay']
  · funext i
    rw [logitGrad, logitGrad, hamp]

/-! ### The backwards -/

/-- Where the support does not change the backwards apply the transposes of the forwards' Jacobians to
the gradients. A factor row's result is zero off the support and sums to zero, and on an unmasked row is
the torch lowering's. Neither result depends on the layouts that solved and read the row. -/
theorem backward_exact (hdev : dev.Exact) (alpha15 : Bool) (lay lay' : Layout n) :
    (∀ (mask : Option (ℕ → Bool)) (z : Fin n → ℝ) (g : ℕ → ℝ) (g2 : Option (ℕ → ℝ)),
      (LocallyConstant dev.toDevice alpha15 mask lay z → ∃ J : (Fin n → ℝ) →L[ℝ] (Fin n → ℝ),
        HasFDerivAt (factorForward dev.toDevice alpha15 mask lay) J z ∧
        ∀ d, ∑ i : Fin n, (g i + g2.elim 0 (· i)) * J d i =
          ∑ i : Fin n, (savedRow dev.toDevice alpha15 mask lay z g g2).dz dev.sqrt alpha15 lay'.LW lay'.IPT i * d i) ∧
      (∀ i ∉ supported dev.toDevice alpha15 mask lay z,
        (savedRow dev.toDevice alpha15 mask lay z g g2).dz dev.sqrt alpha15 lay'.LW lay'.IPT i = 0) ∧
      (∑ i : Fin n, (savedRow dev.toDevice alpha15 mask lay z g g2).dz dev.sqrt alpha15 lay'.LW lay'.IPT i = 0) ∧
      (mask = none → g2 = none →
        sortedBackward dev.sqrt alpha15 (sortedSolve dev.toDevice alpha15 ((List.range n).map (rowAt none z).logit))
          ((List.range n).map g) =
        (List.range n).map ((savedRow dev.toDevice alpha15 mask lay z g g2).dz dev.sqrt alpha15 lay.LW lay.IPT)) ∧
      ∀ (lay₂ lay₂' : Layout n) (i : Fin n),
        (savedRow dev.toDevice alpha15 mask lay₂ z g g2).dz dev.sqrt alpha15 lay₂'.LW lay₂'.IPT i =
          (savedRow dev.toDevice alpha15 mask lay z g g2).dz dev.sqrt alpha15 lay'.LW lay'.IPT i) ∧
    ∀ (r w : Fin n → ℝ) (dRead dWrite : ℕ → ℝ),
      (unionForward dev alpha15 lay r w (r, w) =
        (fun i : Fin n => unionRead dev alpha15 lay.LW lay.IPT (unionAt r w) (i % lay.LW) (i / lay.LW),
          fun i : Fin n => unionWrite dev alpha15 lay.LW lay.IPT (unionAt r w) (i % lay.LW) (i / lay.LW))) ∧
      (UnionLocallyConstant dev alpha15 lay r w →
        ∃ J : (Fin n → ℝ) × (Fin n → ℝ) →L[ℝ] (Fin n → ℝ) × (Fin n → ℝ),
          HasFDerivAt (unionForward dev alpha15 lay r w) J (r, w) ∧
          ∀ d, ∑ i : Fin n, dRead i * (J d).1 i + ∑ i : Fin n, dWrite i * (J d).2 i =
            ∑ i : Fin n, (savedUnion dev alpha15 lay r w dRead dWrite).dReadLogits dev alpha15 lay'.LW lay'.IPT i *
              d.1 i +
            ∑ i : Fin n, (savedUnion dev alpha15 lay r w dRead dWrite).dWriteLogits dev alpha15 lay'.LW lay'.IPT i *
              d.2 i) ∧
      ∀ (lay₂ lay₂' : Layout n) (i : Fin n),
        (savedUnion dev alpha15 lay₂ r w dRead dWrite).dReadLogits dev alpha15 lay₂'.LW lay₂'.IPT i =
          (savedUnion dev alpha15 lay r w dRead dWrite).dReadLogits dev alpha15 lay'.LW lay'.IPT i ∧
        (savedUnion dev alpha15 lay₂ r w dRead dWrite).dWriteLogits dev alpha15 lay₂'.LW lay₂'.IPT i =
          (savedUnion dev alpha15 lay r w dRead dWrite).dWriteLogits dev alpha15 lay'.LW lay'.IPT i := by
  refine ⟨fun mask z g g2 => ⟨fun hloc => ⟨_, hasFDerivAt_factorForward hdev.toDevice hloc, fun d => ?_⟩, fun i hi => ?_,
    sum_dz_savedRow hdev.toDevice lay', ?_, fun lay₂ lay₂' i => ?_⟩, fun r w dRead dWrite =>
    ⟨unionForward_self hdev r w, fun hloc => ⟨_, hasFDerivAt_unionForward hdev hloc, fun d => ?_⟩, fun lay₂ lay₂' i => ?_⟩⟩
  · rw [jacobian_adjoint]
    exact sum_congr rfl fun i _ => by rw [dz_savedRow hdev.toDevice]
  · rw [dz_savedRow hdev.toDevice, jacobian_apply, if_neg hi]
  · rintro rfl rfl
    exact sortedBackward_eq hdev.toDevice lay z g
  · rw [dz_savedRow hdev.toDevice, dz_savedRow hdev.toDevice, jacobian_layout hdev.toDevice lay lay₂]
  · simp only [dReadLogits_savedUnion hdev, dWriteLogits_savedUnion hdev]
    exact unionJacobian_adjoint r w (fun i : Fin n => dRead i) (fun i : Fin n => dWrite i) d
  · obtain ⟨hmid, hlogit⟩ := @grads_layout dev n alpha15 r w hdev lay lay₂ (fun i => dRead i) (fun i => dWrite i)
    refine ⟨?_, ?_⟩
    · rw [dReadLogits_savedUnion hdev, dReadLogits_savedUnion hdev, hmid, hlogit]
    · rw [dWriteLogits_savedUnion hdev, dWriteLogits_savedUnion hdev, hmid, hlogit]

/-! ### Two equal entries -/

noncomputable def exactUnionDevice : UnionDevice ℝ where
  toDevice := exactDevice
  exp := Real.exp
  log := Real.log
  log1p x := Real.log (1 + x)

theorem exactUnionDevice_exact : exactUnionDevice.Exact := ⟨exactDevice_exact, rfl, rfl, rfl⟩

def pairLayout : Layout 2 := ⟨1, 0, le_rfl⟩

/-- Two entries less than one apart are both supported. -/
theorem supported_pair {z : Fin 2 → ℝ} (h : |z 0 - z 1| < 1) : supported exactDevice false none pairLayout z = univ := by
  obtain ⟨hlo, hhi⟩ := abs_lt.1 h
  have hcolumns : (rowAt none z).columns = range 2 := by
    refine filter_true_of_mem fun col hcol => ?_
    simpa [Row.valid] using hcol
  have hthreshold : threshold exactDevice false (rowAt none z) pairLayout = (z 0 + z 1 - 1) / 2 := by
    refine threshold_unique (sum_amplitude_threshold exactDevice_exact ⟨0, by rw [hcolumns]; simp⟩) ?_
    have h0 : amplitude false (z 0 - (z 0 + z 1 - 1) / 2) = z 0 - (z 0 + z 1 - 1) / 2 := amplitude_of_nonneg (by linarith)
    have h1 : amplitude false (z 1 - (z 0 + z 1 - 1) / 2) = z 1 - (z 0 + z 1 - 1) / 2 := amplitude_of_nonneg (by linarith)
    rw [hcolumns, sum_range, Fin.sum_univ_two, rowAt_logit, rowAt_logit, h0, h1]
    ring
  refine eq_univ_of_forall fun i => mem_supported.2 ⟨?_, ?_⟩
  · rw [← Row.mem_columns, hcolumns]
    exact mem_range.2 i.isLt
  · rw [hthreshold]
    fin_cases i
    · show _ < z 0
      linarith
    · show _ < z 1
      linarith

theorem backward_exact_pair :
    (∃ J : (Fin 2 → ℝ) →L[ℝ] (Fin 2 → ℝ), HasFDerivAt (factorForward exactDevice false none pairLayout) J 0 ∧
      ∀ d, ∑ i : Fin 2, ((fun col : ℕ => (col : ℝ)) i + (none : Option (ℕ → ℝ)).elim 0 (· i)) * J d i =
        ∑ i : Fin 2, (savedRow exactDevice false none pairLayout 0 (fun col => col) none).dz exactDevice.sqrt false
          pairLayout.LW pairLayout.IPT i * d i) ∧
    ∃ J : (Fin 2 → ℝ) × (Fin 2 → ℝ) →L[ℝ] (Fin 2 → ℝ) × (Fin 2 → ℝ),
      HasFDerivAt (unionForward exactUnionDevice false pairLayout 0 0) J (0, 0) ∧
      ∀ d, ∑ i : Fin 2, (fun col : ℕ => (col : ℝ)) i * (J d).1 i + ∑ i : Fin 2, (fun _ : ℕ => (1 : ℝ)) i * (J d).2 i =
        ∑ i : Fin 2, (savedUnion exactUnionDevice false pairLayout 0 0 (fun col => col) fun _ => 1).dReadLogits
          exactUnionDevice false pairLayout.LW pairLayout.IPT i * d.1 i +
        ∑ i : Fin 2, (savedUnion exactUnionDevice false pairLayout 0 0 (fun col => col) fun _ => 1).dWriteLogits
          exactUnionDevice false pairLayout.LW pairLayout.IPT i * d.2 i := by
  have h := backward_exact exactUnionDevice_exact false pairLayout pairLayout
  have hzero : supported exactDevice false none pairLayout 0 = univ := supported_pair (by simp)
  have hmid : midpoint (0 : Fin 2 → ℝ) 0 = 0 := by
    funext i
    simp [midpoint]
  refine ⟨(h.1 none 0 (fun col => col) none).1 ?_, (h.2 0 0 (fun col => col) fun _ => 1).2.1 ?_⟩
  · have hc : Continuous fun z : Fin 2 → ℝ => |z 0 - z 1| := by fun_prop
    have hnear : ∀ᶠ z in 𝓝 (0 : Fin 2 → ℝ), |z 0 - z 1| < 1 := hc.tendsto 0 |>.eventually (gt_mem_nhds (by simp))
    filter_upwards [hnear] with z hz
    exact (supported_pair hz).trans hzero.symm
  · have hc : Continuous fun e : (Fin 2 → ℝ) × (Fin 2 → ℝ) => |midpoint e.1 e.2 0 - midpoint e.1 e.2 1| := by
      unfold midpoint
      fun_prop
    have hnear : ∀ᶠ e in 𝓝 (0 : (Fin 2 → ℝ) × (Fin 2 → ℝ)), |midpoint e.1 e.2 0 - midpoint e.1 e.2 1| < 1 :=
      hc.tendsto 0 |>.eventually (gt_mem_nhds (by simp [midpoint]))
    filter_upwards [hnear] with e he
    rw [hmid]
    exact (supported_pair he).trans hzero.symm

end Rola.Entmax
