import Rola.UnionJacobian

/-!
# The union split's torch lowering

`rola/routing/entmax/production.py`, `_torch_union_split`: the sorted solve of the midpoints, the read half
gated, the write half a softmax of its support's log weights. A row is a list; an amplitude masked off
weighs nothing in the softmax.
-/

namespace Rola.Entmax
open Finset hiding sum_apply
open Real (sigmoid)

attribute [local instance] atLeastTwo_two

section Model

variable {K : Type*} [Field K] [LinearOrder K] (dev : UnionDevice K) (alpha15 : Bool)

/-- `_overflow_free_delta`, with `finfo.max` of the logits' type. -/
def torchDelta (finfoMax r w : K) : K :=
  let readNegative := decide (r < 0)
  let oppositeSign := readNegative != decide (w < 0)
  let hi := max |r| |w|
  let lo := min |r| |w|
  let oppositeMagnitude := hi + min lo (finfoMax - hi)
  let oppositeDelta := if readNegative then -oppositeMagnitude else oppositeMagnitude
  let sameDelta := (if oppositeSign then 0 else r) - (if oppositeSign then 0 else w)
  if oppositeSign then oppositeDelta else sameDelta

/-- `torch.sigmoid`, and `logsigmoid`. -/
def torchSigmoid (x : K) : K := 1 / (1 + dev.exp (-x))

def torchLogSigmoid (x : K) : K := dev.log (torchSigmoid dev x)

/-- `torch.softmax` of a row. -/
def torchSoftmax (row : List (WithBot K)) : List K :=
  let weights := row.map fun x => (x.map dev.exp).unbotD 0
  weights.map fun weight => weight / weights.sum

/-- `_torch_union_split`. -/
def torchUnionSplit (finfoMax : K) (readLogits writeLogits : List K) : List K × List K :=
  let z := List.zipWith (fun r w => 1 / 2 * r + 1 / 2 * w) readLogits writeLogits
  let solved := sortedSolve dev.toDevice alpha15 z
  let values := solved.map Prod.fst
  let support := solved.map Prod.snd
  let delta := List.zipWith (torchDelta finfoMax) readLogits writeLogits
  let read := List.zipWith (fun value d => value * torchSigmoid dev d) values delta
  let safe := List.zipWith (fun s value => if s then value else 1) support values
  let logWrite : List (WithBot K) := List.zipWith (fun s x => if s then x else ⊥) support
    (List.zipWith (fun value d => ((dev.log value + torchLogSigmoid dev (-d) : K) : WithBot K)) safe delta)
  let hasSupport := support.any id
  let write := torchSoftmax dev (logWrite.map fun x => if hasSupport then x else ((0 : K) : WithBot K))
  (read, List.zipWith (fun s weight => if hasSupport && s then weight else 0) support write)

end Model

/-! ### The difference -/

theorem torchDelta_kMax (r w : ℝ) : torchDelta kMax r w = (overflowFreeDelta r w).1 := rfl

/-- Between finite logits the difference saturates at the greatest finite value. -/
theorem torchDelta_clamp {M r w : ℝ} (hr : |r| ≤ M) (hw : |w| ≤ M) : torchDelta M r w = max (-M) (min M (r - w)) := by
  have hsum : max |r| |w| + min (min |r| |w|) (M - max |r| |w|) = min M (|r| + |w|) := by
    rw [← min_add_add_left, max_add_min, add_sub_cancel, min_comm]
  have hrle := abs_le.1 hr
  have hwle := abs_le.1 hw
  unfold torchDelta
  dsimp only
  rw [hsum]
  by_cases hrneg : r < 0 <;> by_cases hwneg : w < 0
  · simp only [hrneg, hwneg, decide_true, bne_self_eq_false, Bool.false_eq_true, if_false]
    rw [min_eq_right (by linarith), max_eq_right (by linarith)]
  · simp only [hrneg, hwneg, decide_true, decide_false, Bool.bne_false, if_true]
    rw [abs_of_neg hrneg, abs_of_nonneg (not_lt.1 hwneg), min_eq_right (by linarith : r - w ≤ M)]
    rcases le_total M (-r + w) with h | h
    · rw [min_eq_left h, max_eq_left (by linarith)]
    · rw [min_eq_right h, max_eq_right (by linarith)]
      ring
  · simp only [hrneg, hwneg, decide_true, decide_false, Bool.bne_true, Bool.not_false, if_true, Bool.false_eq_true, if_false]
    rw [abs_of_nonneg (not_lt.1 hrneg), abs_of_neg hwneg]
    rw [max_eq_right (by rw [le_min_iff]; exact ⟨by linarith, by linarith⟩), sub_eq_add_neg]
  · simp only [hrneg, hwneg, decide_false, bne_self_eq_false, Bool.false_eq_true, if_false]
    rw [min_eq_right (by linarith), max_eq_right (by linarith)]

/-! ### The lowering's rows -/

variable {dev : UnionDevice ℝ} {n : ℕ} {alpha15 : Bool} {lay : Layout n} {r w : Fin n → ℝ}

theorem torchSigmoid_eq (hdev : dev.Exact) (x : ℝ) : torchSigmoid dev x = sigmoid x := by
  rw [torchSigmoid, hdev.exp, Real.sigmoid_def, one_div]

/-- The sorted solve of the midpoints. -/
theorem sortedSolve_midpoint (hdev : dev.Exact) (lay : Layout n) (r w : Fin n → ℝ) :
    sortedSolve dev.toDevice alpha15 ((List.finRange n).map (midpoint r w)) = (List.finRange n).map fun i =>
      (amplitudes dev alpha15 lay r w i, decide (i ∈ supported dev.toDevice alpha15 none lay (midpoint r w))) := by
  have hrow : (List.finRange n).map (midpoint r w) = (List.range n).map (rowAt none (midpoint r w)).logit := by
    rw [← List.map_coe_finRange_eq_range, List.map_map]
    exact List.map_congr_left fun i _ => (rowAt_logit none (midpoint r w) i).symm
  rw [hrow, @sortedSolve_eq dev.toDevice alpha15 (rowAt none (midpoint r w)) lay hdev.toDevice rfl,
    ← List.map_coe_finRange_eq_range, List.map_map]
  refine List.map_congr_left fun i _ => Prod.ext rfl ?_
  rw [Bool.eq_iff_iff, decide_eq_true_eq, supported, mem_filter, and_iff_right (mem_univ i), Function.comp_apply]

/-- A masked softmax of log weights is their shares. -/
theorem torchSoftmax_weights (hexp : dev.exp = Real.exp) {S : Finset (Fin n)} (x : Fin n → ℝ) :
    torchSoftmax dev ((List.finRange n).map fun i => if i ∈ S then (x i : WithBot ℝ) else ⊥) =
      (List.finRange n).map fun i => (if i ∈ S then Real.exp (x i) else 0) / ∑ j ∈ S, Real.exp (x j) := by
  have hweight : ∀ i, ((if i ∈ S then (x i : WithBot ℝ) else ⊥).map dev.exp).unbotD 0 = if i ∈ S then Real.exp (x i) else 0 := by
    intro i
    split
    · rw [hexp]
      rfl
    · rfl
  have hsum : ((List.finRange n).map fun i => if i ∈ S then Real.exp (x i) else 0).sum = ∑ j ∈ S, Real.exp (x j) := by
    rw [← List.ofFn_eq_map, List.sum_ofFn, sum_ite_mem, univ_inter]
  unfold torchSoftmax
  simp only [List.map_map, Function.comp_def, hweight, hsum]

theorem sum_gated_supported (p delta : Fin n → ℝ) {S : Finset (Fin n)} (hoff : ∀ i, i ∉ S → p i = 0) :
    ∑ j ∈ S, gated p delta j = ∑ j, gated p delta j := by
  refine sum_subset (subset_univ S) fun j _ hj => ?_
  rw [gated, hoff j hj, zero_mul]

/-- The lowering's rows are the split of the midpoints' amplitudes. -/
theorem torchUnionSplit_eq (hdev : dev.Exact) (lay : Layout n) (M : ℝ) (r w : Fin n → ℝ) :
    torchUnionSplit dev alpha15 M (List.ofFn r) (List.ofFn w) =
      (List.ofFn (splitRead (amplitudes dev alpha15 lay r w) fun i => torchDelta M (r i) (w i)),
        List.ofFn (splitWrite (amplitudes dev alpha15 lay r w) fun i => torchDelta M (r i) (w i))) := by
  have hmid : List.zipWith (fun r w => 1 / 2 * r + 1 / 2 * w) (List.ofFn r) (List.ofFn w) =
      (List.finRange n).map (midpoint r w) := by
    rw [List.ofFn_eq_map, List.ofFn_eq_map, List.zipWith_map, List.zipWith_self]
    rfl
  have hlog : ∀ d, dev.log (torchSigmoid dev d) = Real.log (sigmoid d) := fun d => by rw [torchSigmoid_eq hdev, hdev.log]
  unfold torchUnionSplit
  dsimp only
  rw [hmid, sortedSolve_midpoint hdev lay]
  simp only [List.ofFn_eq_map, List.zipWith_map, List.zipWith_self, List.map_map, Function.comp_def, List.any_map, id_eq,
    decide_eq_true_eq]
  have hpos : ∀ i ∈ supported dev.toDevice alpha15 none lay (midpoint r w), 0 < amplitudes dev alpha15 lay r w i :=
    fun i hi => amplitudes_pos hi
  have hoff : ∀ i, i ∉ supported dev.toDevice alpha15 none lay (midpoint r w) → amplitudes dev alpha15 lay r w i = 0 :=
    fun i hi => amplitudes_off hi
  generalize amplitudes dev alpha15 lay r w = v at hpos hoff
  generalize supported dev.toDevice alpha15 none lay (midpoint r w) = S at hpos hoff
  refine Prod.ext (List.map_congr_left fun i _ => ?_) ?_
  · rw [torchSigmoid_eq hdev, splitRead]
  dsimp only
  rcases S.eq_empty_or_nonempty with rfl | hne
  · simp only [torchSoftmax, List.map_map, List.zipWith_map, List.zipWith_self]
    refine List.map_congr_left fun i _ => ?_
    rw [splitWrite, gated, hoff i (notMem_empty i), zero_mul, zero_div]
    simp
  · have hany : ((List.finRange n).any fun i => decide (i ∈ S)) = true := by
      obtain ⟨i, hi⟩ := hne
      exact List.any_eq_true.2 ⟨i, List.mem_finRange i, decide_eq_true hi⟩
    have hweight : ∀ i ∈ S, Real.exp (dev.log (if i ∈ S then v i else 1) + torchLogSigmoid dev (-torchDelta M (r i) (w i))) =
        gated v (fun i => torchDelta M (r i) (w i)) i := by
      intro i hi
      rw [if_pos hi, torchLogSigmoid, hlog, Real.exp_add, hdev.log, Real.exp_log (hpos i hi), Real.exp_log (Real.sigmoid_pos _), gated]
    simp only [hany, if_true, Bool.true_and]
    rw [torchSoftmax_weights hdev.exp, List.zipWith_map, List.zipWith_self, sum_congr rfl hweight, sum_gated_supported _ _ hoff]
    refine List.map_congr_left fun i _ => ?_
    by_cases hi : i ∈ S
    · rw [if_pos (decide_eq_true hi), if_pos hi, hweight i hi, splitWrite]
    · rw [if_neg (by simpa using hi), splitWrite, gated, hoff i hi, zero_mul, zero_div]

/-! ### The split -/

/-- The entmax of a row: amplitudes above one threshold, of sum one. -/
structure IsEntmax (alpha15 : Bool) (z v : Fin n → ℝ) : Prop where
  above : ∃ t, ∀ i, v i = amplitude alpha15 (z i - t)
  sum_one : ∑ i, v i = 1

namespace IsEntmax

variable {z v v' : Fin n → ℝ}

theorem unique (h : IsEntmax alpha15 z v) (h' : IsEntmax alpha15 z v') : v' = v := by
  obtain ⟨t, ht⟩ := h.above
  obtain ⟨t', ht'⟩ := h'.above
  have hsum : ∑ i, amplitude alpha15 (z i - t) = 1 := by
    rw [← h.sum_one]
    exact sum_congr rfl fun i _ => (ht i).symm
  have hsum' : ∑ i, amplitude alpha15 (z i - t') = 1 := by
    rw [← h'.sum_one]
    exact sum_congr rfl fun i _ => (ht' i).symm
  funext i
  rw [ht, ht', threshold_unique hsum hsum']

theorem nonneg (h : IsEntmax alpha15 z v) (i : Fin n) : 0 ≤ v i := by
  obtain ⟨t, ht⟩ := h.above
  rw [ht]
  exact amplitude_nonneg alpha15 _

theorem exists_pos (h : IsEntmax alpha15 z v) : ∃ i, 0 < v i := by
  by_contra hnone
  push Not at hnone
  have hzero : ∑ i, v i ≤ 0 := sum_nonpos fun i _ => hnone i
  rw [h.sum_one] at hzero
  linarith

theorem permute (h : IsEntmax alpha15 z v) (e : Equiv.Perm (Fin n)) : IsEntmax alpha15 (z ∘ e) (v ∘ e) := by
  obtain ⟨t, ht⟩ := h.above
  exact ⟨⟨t, fun i => ht (e i)⟩, (Equiv.sum_comp e v).trans h.sum_one⟩

theorem sum_gated_pos (h : IsEntmax alpha15 z v) (delta : Fin n → ℝ) : 0 < ∑ i, gated v delta i := by
  obtain ⟨i, hi⟩ := h.exists_pos
  exact sum_pos' (fun j _ => mul_nonneg (h.nonneg j) (Real.sigmoid_pos _).le) ⟨i, mem_univ i, mul_pos hi (Real.sigmoid_pos _)⟩

theorem splitRead_ne_zero (delta : Fin n → ℝ) (i : Fin n) : splitRead v delta i ≠ 0 ↔ v i ≠ 0 := by
  rw [splitRead, mul_ne_zero_iff, and_iff_left (Real.sigmoid_pos _).ne']

theorem splitWrite_ne_zero (h : IsEntmax alpha15 z v) (delta : Fin n → ℝ) (i : Fin n) : splitWrite v delta i ≠ 0 ↔ v i ≠ 0 := by
  rw [splitWrite, div_ne_zero_iff, and_iff_left (h.sum_gated_pos delta).ne', gated, mul_ne_zero_iff,
    and_iff_left (Real.sigmoid_pos _).ne']

theorem sum_splitWrite (h : IsEntmax alpha15 z v) (delta : Fin n → ℝ) : ∑ i, splitWrite v delta i = 1 := by
  unfold splitWrite
  rw [← sum_div, div_self (h.sum_gated_pos delta).ne']

theorem sum_splitRead_lt (h : IsEntmax alpha15 z v) (delta : Fin n → ℝ) : ∑ i, splitRead v delta i < 1 := by
  obtain ⟨i, hi⟩ := h.exists_pos
  rw [← h.sum_one]
  refine sum_lt_sum (fun j _ => ?_) ⟨i, mem_univ i, ?_⟩
  · exact mul_le_of_le_one_right (h.nonneg j) (Real.sigmoid_lt_one _).le
  · exact mul_lt_of_lt_one_right hi (Real.sigmoid_lt_one _)

end IsEntmax

theorem amplitudes_isEntmax (hdev : dev.Exact) (hn : 0 < n) (lay : Layout n) (r w : Fin n → ℝ) :
    IsEntmax alpha15 (midpoint r w) (amplitudes dev alpha15 lay r w) := by
  have hcolumns : ((rowAt none (midpoint r w)).columns).Nonempty :=
    ⟨0, Row.mem_columns.2 (by simp [Row.valid, hn])⟩
  refine ⟨⟨threshold dev.toDevice alpha15 (rowAt none (midpoint r w)) lay, fun i => ?_⟩, ?_⟩
  · rw [amplitudes, factorForward_eq]
    split
    · rfl
    · rename_i hno
      have hvalid : (rowAt none (midpoint r w)).valid i = true := by simp [Row.valid]
      rw [mem_supported, and_iff_right hvalid, not_lt] at hno
      exact (amplitude_of_nonpos (by linarith)).symm
  · rw [← @sum_forwardValue dev.toDevice alpha15 (rowAt none (midpoint r w)) lay hdev.toDevice hcolumns, sum_range]
    rfl

theorem splitWrite_permute (v delta : Fin n → ℝ) (e : Equiv.Perm (Fin n)) (i : Fin n) :
    splitWrite (v ∘ e) (delta ∘ e) i = splitWrite v delta (e i) := by
  have hsum : ∑ j, gated (v ∘ e) (delta ∘ e) j = ∑ j, gated v delta j := Equiv.sum_comp e (gated v delta)
  rw [splitWrite, hsum, splitWrite, gated, gated, Function.comp_apply, Function.comp_apply]

/-- The kernel's rows, and the lowering's, are the gated split of the entmax of the midpoints. -/
theorem union_split_exact (hdev : dev.Exact) (alpha15 : Bool) (hn : 0 < n) (lay : Layout n) (r w : Fin n → ℝ) :
    ∃ v, IsEntmax alpha15 (midpoint r w) v ∧ (∀ v', IsEntmax alpha15 (midpoint r w) v' → v' = v) ∧
      (∀ i, |r i| ≤ kMax → |w i| ≤ kMax → deltas r w i = max (-kMax) (min kMax (r i - w i))) ∧
      ∃ read write : Fin n → ℝ,
        (∀ i, read i = unionRead dev alpha15 lay.LW lay.IPT (unionAt r w) (i % lay.LW) (i / lay.LW)) ∧
        (∀ i, write i = unionWrite dev alpha15 lay.LW lay.IPT (unionAt r w) (i % lay.LW) (i / lay.LW)) ∧
        (∀ i, read i = v i * sigmoid (deltas r w i)) ∧
        (∀ i, write i = v i * sigmoid (-deltas r w i) / ∑ j, v j * sigmoid (-deltas r w j)) ∧
        (∀ i, (read i ≠ 0 ↔ v i ≠ 0) ∧ (write i ≠ 0 ↔ v i ≠ 0)) ∧ ∑ i, write i = 1 ∧ ∑ i, read i < 1 ∧
        torchUnionSplit dev alpha15 kMax (List.ofFn r) (List.ofFn w) = (List.ofFn read, List.ofFn write) ∧
        ∀ (lay' : Layout n) (e : Equiv.Perm (Fin n)) (i : Fin n),
          unionRead dev alpha15 lay'.LW lay'.IPT (unionAt (r ∘ e) (w ∘ e)) (i % lay'.LW) (i / lay'.LW) = read (e i) ∧
          unionWrite dev alpha15 lay'.LW lay'.IPT (unionAt (r ∘ e) (w ∘ e)) (i % lay'.LW) (i / lay'.LW) = write (e i) := by
  have hv := @amplitudes_isEntmax dev n alpha15 hdev hn lay r w
  refine ⟨amplitudes dev alpha15 lay r w, hv, fun v' hv' => hv.unique hv', fun i hr hw => torchDelta_clamp hr hw,
    splitRead (amplitudes dev alpha15 lay r w) (deltas r w), splitWrite (amplitudes dev alpha15 lay r w) (deltas r w),
    fun i => (unionRead_eq hdev i).symm, fun i => (unionWrite_eq hdev i).symm, fun i => rfl, fun i => rfl,
    fun i => ⟨IsEntmax.splitRead_ne_zero _ i, hv.splitWrite_ne_zero _ i⟩, hv.sum_splitWrite _, hv.sum_splitRead_lt _,
    torchUnionSplit_eq hdev lay kMax r w, fun lay' e i => ?_⟩
  have hpermuted : amplitudes dev alpha15 lay' (r ∘ e) (w ∘ e) = amplitudes dev alpha15 lay r w ∘ e :=
    (hv.permute e).unique (amplitudes_isEntmax hdev hn lay' (r ∘ e) (w ∘ e))
  rw [unionRead_eq hdev, unionWrite_eq hdev, hpermuted]
  exact ⟨rfl, splitWrite_permute (amplitudes dev alpha15 lay r w) (deltas r w) e i⟩

theorem union_split_exact_three : ∃ read write : Fin 3 → ℝ, ∑ i, write i = 1 ∧ ∑ i, read i < 1 ∧
    torchUnionSplit exactUnionDevice true kMax (List.ofFn fun i : Fin 3 => (i : ℝ)) (List.ofFn fun i : Fin 3 => -(i : ℝ)) =
      (List.ofFn read, List.ofFn write) := by
  obtain ⟨v, -, -, -, read, write, -, -, -, -, -, hwrite, hread, htorch, -⟩ :=
    union_split_exact exactUnionDevice_exact true (by decide) ⟨1, 1, by decide⟩ (fun i : Fin 3 => (i : ℝ)) fun i => -(i : ℝ)
  exact ⟨read, write, hwrite, hread, htorch⟩

end Rola.Entmax
