import Rola.EntmaxOutput

/-!
# The torch lowering of the solve

`production.py`, `_sorted_solve`: the whole row as one tensor, sorted, its prefixes scanned and the last
candidate gathered. Both lowerings select a threshold that gives the row sum one, so they agree.
-/

namespace Rola.Entmax
open Finset

variable {dev : Device ℝ} {alpha15 : Bool} {row : Row ℝ} {lay : Layout row.width}

theorem sum_take (l : List ℝ) (k : ℕ) : (l.take k).sum = ∑ i ∈ range k, l.getD i 0 := by
  induction l generalizing k with
  | nil => simp
  | cons x l ih =>
    cases k with
    | zero => rfl
    | succ k =>
      rw [List.take_succ_cons, List.sum_cons, ih, sum_range_succ']
      exact add_comm _ _

theorem cumsum_getD (l : List ℝ) {c : ℕ} (hc : c < l.length) :
    (cumsum l).getD c 0 = ∑ i ∈ range (c + 1), l.getD i 0 := by
  rw [cumsum, List.getD_eq_getElem _ _ (by simpa using hc), List.getElem_map, List.getElem_range, sum_take]

theorem sum_map_getD {M : Type*} [AddCommMonoid M] (g : ℝ → M) (l : List ℝ) :
    (l.map g).sum = ∑ i ∈ range l.length, g (l.getD i 0) := by
  induction l with
  | nil => rfl
  | cons x l ih =>
    rw [List.map_cons, List.sum_cons, ih, List.length_cons, sum_range_succ']
    exact add_comm _ _

/-- The last candidate of the sorted columns is `chosen`. -/
theorem max_candidate {cand : ℕ → Bool} {n : ℕ} (hn : 0 < n) (h0 : cand 0 = true) :
    ∃ r < n, cand r = true ∧ (∀ r', r < r' → r' < n → cand r' = false) ∧
      ((List.range n).map fun c => if cand c then (c : ℤ) else -1).max?.getD (-1) = r := by
  obtain ⟨m, hm⟩ : ∃ m, ((List.range n).map fun c => if cand c then (c : ℤ) else -1).max? = some m := by
    cases h : ((List.range n).map fun c => if cand c then (c : ℤ) else -1).max? with
    | none =>
      rw [List.max?_eq_none_iff, List.map_eq_nil_iff, List.range_eq_nil] at h
      omega
    | some m => exact ⟨m, rfl⟩
  have hmax := hm
  rw [List.max?_eq_some_iff] at hmax
  obtain ⟨hmem, hle⟩ := hmax
  have hbound : ∀ c < n, cand c = true → (c : ℤ) ≤ m := fun c hc hcand =>
    hle _ (List.mem_map.2 ⟨c, List.mem_range.2 hc, if_pos hcand⟩)
  obtain ⟨r, hr, hval⟩ := List.mem_map.1 hmem
  rw [List.mem_range] at hr
  split at hval
  · rename_i hcand
    subst hval
    refine ⟨r, hr, hcand, fun r' hlt hr' => ?_, by rw [hm]; rfl⟩
    by_contra hno
    rw [Bool.not_eq_false] at hno
    have := hbound r' hr' hno
    omega
  · have := hbound 0 hn h0
    omega

theorem cumsum_sq_getD (l : List ℝ) {c : ℕ} (hc : c < l.length) :
    (cumsum (l.map fun x => x * x)).getD c 0 = ∑ i ∈ range (c + 1), l.getD i 0 * l.getD i 0 := by
  rw [cumsum_getD _ (by rwa [List.length_map])]
  refine sum_congr rfl fun i hi => ?_
  rw [mem_range] at hi
  rw [List.getD_eq_getElem _ _ (by rw [List.length_map]; omega), List.getElem_map, List.getD_eq_getElem _ _ (by omega)]

theorem sortDescending_perm (l : List ℝ) : (sortDescending l).Perm l := List.mergeSort_perm ..

theorem sortDescending_le (l : List ℝ) {i j : ℕ} (hij : i ≤ j) (hj : j < l.length) :
    (sortDescending l).getD j 0 ≤ (sortDescending l).getD i 0 := by
  rcases Nat.eq_or_lt_of_le hij with rfl | hlt
  · exact le_rfl
  · have hpair : (sortDescending l).Pairwise fun x y => decide (y ≤ x) = true :=
      List.pairwise_mergeSort
        (fun _ _ _ hab hbc => decide_eq_true ((of_decide_eq_true hbc).trans (of_decide_eq_true hab)))
        (fun a b => by simpa using le_total b a) _
    rw [← (sortDescending_perm l).length_eq] at hj
    rw [List.getD_eq_getElem _ _ hj, List.getD_eq_getElem _ _ (hlt.trans hj)]
    exact of_decide_eq_true (List.pairwise_iff_getElem.1 hpair i j (hlt.trans hj) hj hlt)

/-- The lowering selects the same candidate of its sorted row. -/
theorem sum_amplitude_sortedTau (hsqrt : dev.sqrt = Real.sqrt) {z : List ℝ} (hz : 0 < z.length) :
    (z.map fun x => amplitude alpha15 (x - sortedTau dev alpha15 z)).sum = 1 := by
  have hlen := (sortDescending_perm z).length_eq
  have hcand : ∀ c < z.length, isCandidate dev.sqrt alpha15 (c + 1 : ℕ) ((cumsum (sortDescending z)).getD c 0)
      ((cumsum ((sortDescending z).map fun x => x * x)).getD c 0) ((sortDescending z).getD c 0) =
      candidateAt alpha15 (fun i => (sortDescending z).getD i 0) c := fun c hc => by
    rw [cumsum_getD _ (by omega), cumsum_sq_getD _ (by omega), hsqrt]
    rfl
  obtain ⟨r, hr, hyes, hlast, hchosen⟩ := @max_candidate
    (fun c => isCandidate dev.sqrt alpha15 (c + 1 : ℕ) ((cumsum (sortDescending z)).getD c 0)
      ((cumsum ((sortDescending z).map fun x => x * x)).getD c 0) ((sortDescending z).getD c 0)) _ hz
    (by rw [hcand 0 hz, candidateAt_zero])
  have htau : sortedTau dev alpha15 z = tauAt alpha15 (fun i => (sortDescending z).getD i 0) r := by
    unfold sortedTau
    simp only [hchosen]
    rw [if_pos (by omega), max_eq_left (by omega), Int.toNat_natCast, cumsum_getD _ (by omega),
      cumsum_sq_getD _ (by omega), hsqrt]
    rfl
  rw [← ((sortDescending_perm z).map _).sum_eq, sum_map_getD, hlen, htau]
  refine sum_amplitude_tauAt (fun i j hij hj => sortDescending_le z hij hj) hr ?_ fun r' hlt hr' => ?_
  · rw [← hcand r hr]
    exact hyes
  · rw [← hcand r' hr']
    exact hlast r' hlt hr'

theorem support_amplitude (x t : ℝ) :
    (if decide (t < x) then if alpha15 then
        max ((if alpha15 then 1 / 2 else 1) * (x - t)) 0 * max ((if alpha15 then 1 / 2 else 1) * (x - t)) 0 else
        max ((if alpha15 then 1 / 2 else 1) * (x - t)) 0 else 0) = amplitude alpha15 (x - t) := by
  by_cases h : t < x
  · rw [if_pos (decide_eq_true h)]
    rfl
  · rw [if_neg (by simpa using h), amplitude_of_nonpos (by linarith)]

/-- On an unmasked row the lowering returns what the kernel writes. -/
theorem sortedSolve_eq (hdev : dev.Exact) (hmask : row.mask = none) :
    sortedSolve dev alpha15 ((List.range row.width).map row.logit) = (List.range row.width).map fun col =>
      (forwardValue dev alpha15 lay.LW lay.IPT row col, forwardSupport dev alpha15 lay.LW lay.IPT row col) := by
  have hvalid : ∀ col < row.width, row.valid col = true := fun col hcol => by simp [Row.valid, hmask, hcol]
  have hcolumns : row.columns = range row.width := filter_true_of_mem fun col hcol => hvalid col (mem_range.1 hcol)
  unfold sortedSolve
  generalize ((List.range row.width).map row.logit).max?.getD 0 = zmax
  simp only [List.map_map]
  refine List.map_congr_left fun col hcol => ?_
  rw [List.mem_range] at hcol
  have hsum := @sum_amplitude_sortedTau dev alpha15 hdev.sqrt
    ((List.range row.width).map ((fun x => x - zmax) ∘ row.logit)) (by
      rw [List.length_map, List.length_range]
      omega)
  generalize sortedTau dev alpha15 ((List.range row.width).map ((fun x => x - zmax) ∘ row.logit)) = t at hsum
  have htau : threshold dev alpha15 row lay = zmax + t := by
    refine threshold_unique (sum_amplitude_threshold hdev ⟨col, by rw [hcolumns, mem_range]; exact hcol⟩) ?_
    rw [← hsum, List.map_map, sum_map_range, hcolumns]
    exact sum_congr rfl fun col _ => by rw [Function.comp, Function.comp, sub_sub]
  rw [forwardValue_eq, forwardSupport_eq, hvalid col hcol, if_pos rfl, Bool.true_and, htau]
  simp only [Function.comp]
  rw [support_amplitude, sub_sub, Prod.mk.injEq, decide_eq_decide, lt_sub_iff_add_lt']
  exact ⟨rfl, Iff.rfl⟩

/-! ### The solve -/

/-- The last candidate gives the one threshold of the row, the amplitudes are a distribution on what
lies above it, and only the unmasked entries decide them. -/
theorem forward_exact (hdev : dev.Exact) (alpha15 : Bool) (row : Row ℝ) (lay : Layout row.width) :
    (row.columns.Nonempty →
      (Multiset.map (sortedRow dev row lay) (range row.columns.card).val =
        Multiset.map (fun col => row.logit col - rowMax lay.LW lay.IPT row) row.columns.val) ∧
      (∀ x y, x ≤ y → y < row.columns.card → sortedRow dev row lay y ≤ sortedRow dev row lay x) ∧
      (∃ r < row.columns.card, candidateAt alpha15 (sortedRow dev row lay) r = true ∧
        (∀ r', r < r' → r' < row.columns.card → candidateAt alpha15 (sortedRow dev row lay) r' = false) ∧
        tau dev alpha15 lay.LW lay.IPT row = tauAt alpha15 (sortedRow dev row lay) r) ∧
      (∀ t, ∑ col ∈ row.columns, amplitude alpha15 (row.logit col - rowMax lay.LW lay.IPT row - t) = 1 ↔
        t = tau dev alpha15 lay.LW lay.IPT row) ∧
      ∑ col ∈ range row.width, forwardValue dev alpha15 lay.LW lay.IPT row col = 1) ∧
    (∀ col, 0 ≤ forwardValue dev alpha15 lay.LW lay.IPT row col ∧
      (0 < forwardValue dev alpha15 lay.LW lay.IPT row col ↔ row.valid col = true ∧
        tau dev alpha15 lay.LW lay.IPT row < row.logit col - rowMax lay.LW lay.IPT row)) ∧
    (∀ (row' : Row ℝ) (lay' : Layout row'.width) (e : ℕ → ℕ), SameEntries row row' e → ∀ col ∈ row.columns,
      forwardValue dev alpha15 lay'.LW lay'.IPT row' (e col) = forwardValue dev alpha15 lay.LW lay.IPT row col ∧
      forwardSupport dev alpha15 lay'.LW lay'.IPT row' (e col) = forwardSupport dev alpha15 lay.LW lay.IPT row col) ∧
    (row.mask = none → sortedSolve dev alpha15 ((List.range row.width).map row.logit) =
      (List.range row.width).map fun col =>
        (forwardValue dev alpha15 lay.LW lay.IPT row col, forwardSupport dev alpha15 lay.LW lay.IPT row col)) ∧
    (row.columns = ∅ → ∀ col, forwardValue dev alpha15 lay.LW lay.IPT row col = 0) := by
  refine ⟨fun hne => ⟨?_, fun x y hxy hy => sortedRow_le hdev lay hxy hy, tau_eq_tauAt hdev hne, fun t => ⟨fun ht => ?_, ?_⟩,
    sum_forwardValue hdev hne⟩, fun col => ⟨forwardValue_nonneg col, ?_⟩,
    fun row' lay' e h col hcol => h.forward_eq hdev hcol, sortedSolve_eq hdev,
    fun hempty col => (forwardValue_of_empty hempty col).1⟩
  · have h := sum_sortedRow hdev lay fun v => ({v} : Multiset ℝ)
    have hmap : ∀ (s : Finset ℕ) (f : ℕ → ℝ), ∑ x ∈ s, ({f x} : Multiset ℝ) = s.val.map f := fun s f => by
      rw [← Multiset.sum_map_singleton (s.val.map f), Multiset.map_map]
      rfl
    rwa [hmap, hmap] at h
  · exact threshold_unique ht (sum_amplitude_tau hdev hne)
  · rintro rfl
    exact sum_amplitude_tau hdev hne
  · rw [forwardValue_pos, forwardSupport_eq, Bool.and_eq_true, decide_eq_true_eq, threshold, lt_sub_iff_add_lt']

/-- A device that does what it documents. -/
noncomputable def exactDevice : Device ℝ where
  sqrt := Real.sqrt
  mergeSort LW IPT keys := fun lane i =>
    (sortDescending ((List.range (LW * IPT)).map (flat IPT keys))).getD (lane * IPT + i) 0

theorem flat_mergeSort (LW IPT : ℕ) (keys : Keys ℝ) (x : ℕ) : flat IPT (exactDevice.mergeSort LW IPT keys) x =
    (sortDescending ((List.range (LW * IPT)).map (flat IPT keys))).getD x 0 := by
  rw [flat, exactDevice]
  dsimp only
  rw [Nat.div_add_mod']

theorem exactDevice_exact : exactDevice.Exact where
  sqrt := rfl
  sorted LW IPT keys x y hxy hy := by
    rw [flat_mergeSort, flat_mergeSort]
    exact sortDescending_le _ hxy (by simpa using hy)
  perm LW IPT keys := by
    have hlen := (sortDescending_perm ((List.range (LW * IPT)).map (flat IPT keys))).length_eq
    rw [List.length_map, List.length_range] at hlen
    rw [List.map_congr_left fun x _ => flat_mergeSort LW IPT keys x]
    refine List.Perm.trans (List.Perm.of_eq ?_) (sortDescending_perm _)
    refine List.ext_getElem (by simp [hlen]) fun x h h' => ?_
    rw [List.getElem_map, List.getElem_range, List.getD_eq_getElem _ _ h']

theorem forward_exact_masked :
    ∑ col ∈ range 3, forwardValue exactDevice true 2 2 ⟨3, fun col => col, some fun col => col != 1⟩ col = 1 :=
  ((forward_exact exactDevice_exact true ⟨3, fun col => col, some fun col => col != 1⟩ ⟨1, 1, by norm_num⟩).1
    ⟨0, by rw [Row.mem_columns]; rfl⟩).2.2.2.2

end Rola.Entmax
