import Rola.EntmaxForward
import Rola.RangeSums

/-!
# The solve selects the row's threshold

The sorted keys begin with the row's unmasked entries and end with its padding, so the prefixes the
scan runs over are the sorted row's, and the last candidate's threshold is the row's own.
-/

namespace Rola.Entmax
open Finset

/-! ### Layouts -/

section Layout

variable {M : Type*} [AddCommMonoid M]

theorem flat_lane {α : Type*} (keys : Keys α) {IPT lane i : ℕ} (hi : i < IPT) :
    flat IPT keys (lane * IPT + i) = keys lane i := by
  rw [flat, Nat.mul_comm, Nat.mul_add_div (by omega), Nat.div_eq_of_lt hi, Nat.mul_add_mod, Nat.mod_eq_of_lt hi,
    Nat.add_zero]

theorem sum_flat {α : Type*} (g : α → M) (keys : Keys α) (LW IPT : ℕ) :
    ∑ x ∈ range (LW * IPT), g (flat IPT keys x) = ∑ lane ∈ range LW, ∑ i ∈ range IPT, g (keys lane i) := by
  rw [sum_blocks]
  exact sum_congr rfl fun lane _ => sum_congr rfl fun i hi => by rw [flat_lane keys (mem_range.1 hi)]

theorem sum_perm {α : Type*} (g : α → M) {u v : ℕ → α} {n : ℕ}
    (h : ((List.range n).map u).Perm ((List.range n).map v)) : ∑ x ∈ range n, g (u x) = ∑ x ∈ range n, g (v x) := by
  have := (h.map g).sum_eq
  rwa [List.map_map, List.map_map, sum_map_range, sum_map_range] at this

end Layout

variable {row : Row ℝ} {LW IPT : ℕ}

/-- The row's unmasked columns. -/
def Row.columns (row : Row ℝ) : Finset ℕ := (range row.width).filter fun col => row.valid col = true

theorem Row.valid_lt {col : ℕ} (h : row.valid col = true) : col < row.width := by
  unfold Row.valid at h
  simp only [Bool.and_eq_true, decide_eq_true_eq] at h
  exact h.1

theorem Row.mem_columns {col : ℕ} : col ∈ row.columns ↔ row.valid col = true := by
  simp only [columns, mem_filter, mem_range, and_iff_right_iff_imp]
  exact Row.valid_lt

theorem sum_columns {M : Type*} [AddCommMonoid M] (hw : row.width ≤ LW * IPT) (f : ℕ → M) :
    ∑ lane ∈ range LW, ∑ i ∈ range IPT, (if row.valid (lane + i * LW) then f (lane + i * LW) else 0) =
      ∑ col ∈ row.columns, f col := by
  rw [sum_striped (fun col => if row.valid col then f col else 0), ← sum_filter]
  refine sum_congr (ext fun col => ?_) fun _ _ => rfl
  rw [Row.mem_columns, mem_filter, mem_range]
  exact and_iff_right_of_imp fun h => (Row.valid_lt h).trans_le hw

theorem validCount_eq (hw : row.width ≤ LW * IPT) : validCount LW IPT row = row.columns.card := by
  unfold validCount
  split
  · rename_i hmask
    rw [Row.columns, filter_true_of_mem fun col hcol => ?_, card_range]
    simp [Row.valid, hmask, mem_range.1 hcol]
  · rw [sum_map_range, card_eq_sum_ones, ← sum_columns hw]
    refine sum_congr rfl fun lane _ => ?_
    rw [localValid]
    have := foldl_add (fun i => if row.valid (lane + i * LW) then 1 else 0) IPT 0
    rw [zero_add] at this
    rw [← this]
    congr 1
    funext n i
    split <;> rfl

/-! ### The padding -/

/-- A running minimum is at most every entry it took. -/
theorem foldl_min_le (p : ℕ → Bool) (f : ℕ → ℝ) {n i : ℕ} (m : WithTop ℝ) (hi : i < n) (hp : p i = true) :
    (List.range n).foldl (fun (m : WithTop ℝ) i => if p i then min m (f i : WithTop ℝ) else m) m ≤ f i := by
  induction n with
  | zero => omega
  | succ n ih =>
    rw [List.range_succ, List.foldl_append, List.foldl_cons, List.foldl_nil]
    rcases Nat.lt_succ_iff_lt_or_eq.1 hi with hlt | rfl
    · split
      · exact (min_le_left ..).trans (ih hlt)
      · exact ih hlt
    · rw [if_pos hp]
      exact min_le_right ..

theorem foldl_min_map_le (f : ℕ → WithTop ℝ) {n i : ℕ} (m : WithTop ℝ) (hi : i < n) :
    ((List.range n).map f).foldl min m ≤ f i := by
  induction n with
  | zero => omega
  | succ n ih =>
    rw [List.range_succ, List.map_append, List.foldl_append]
    rcases Nat.lt_succ_iff_lt_or_eq.1 hi with hlt | rfl
    · exact (min_le_left ..).trans (ih hlt)
    · exact min_le_right ..

theorem lane_add_mul {col : ℕ} (LW : ℕ) : col % LW + col / LW * LW = col := by
  rw [Nat.mul_comm]
  exact Nat.mod_add_div col LW

theorem rowMin_le (hw : row.width ≤ LW * IPT) {col : ℕ} (hcol : row.valid col = true) :
    rowMin LW IPT row ≤ row.logit col := by
  have hlt : col < LW * IPT := (Row.valid_lt hcol).trans_le hw
  have hLW : 0 < LW := Nat.pos_of_ne_zero (by rintro rfl; simp at hlt)
  have hmin : ((List.range LW).map (localMin LW IPT row)).foldl min ⊤ ≤ (row.logit col : WithTop ℝ) := by
    refine (foldl_min_map_le _ ⊤ (Nat.mod_lt col hLW)).trans ?_
    have := foldl_min_le (fun i => row.valid (col % LW + i * LW)) (fun i => row.logit (col % LW + i * LW)) ⊤
      (Nat.div_lt_of_lt_mul hlt) (by rw [lane_add_mul]; exact hcol)
    rwa [lane_add_mul] at this
  unfold rowMin
  generalize ((List.range LW).map (localMin LW IPT row)).foldl min ⊤ = m at hmin
  cases m with
  | top => exact absurd (top_le_iff.1 hmin) (WithTop.coe_ne_top)
  | coe m => exact WithTop.coe_le_coe.1 hmin

theorem sentinel_lt (hw : row.width ≤ LW * IPT) {col : ℕ} (hcol : row.valid col = true) :
    sentinel LW IPT row < row.logit col - rowMax LW IPT row := by
  have hcount : 0 < validCount LW IPT row := by
    rw [validCount_eq hw]
    exact card_pos.2 ⟨col, Row.mem_columns.2 hcol⟩
  have := rowMin_le hw hcol
  rw [sentinel, if_pos hcount]
  linarith

/-! ### The sorted keys -/

/-- The layout's block sort leaves any keys in descending blocked order. -/
def SortsRow (dev : Device ℝ) (LW IPT : ℕ) : Prop := ∀ keys,
  (∀ x y, x ≤ y → y < LW * IPT → flat IPT (sortRow dev LW IPT keys) y ≤ flat IPT (sortRow dev LW IPT keys) x) ∧
  ((List.range (LW * IPT)).map (flat IPT (sortRow dev LW IPT keys))).Perm
    ((List.range (LW * IPT)).map (flat IPT keys))

variable {dev : Device ℝ}

/-- A function of the keys that ignores the padding is summed over the row's own columns. -/
theorem sum_sorted {M : Type*} [AddCommMonoid M] (hsort : SortsRow dev LW IPT) (hw : row.width ≤ LW * IPT) (g : ℝ → M) :
    (∑ x ∈ range (LW * IPT), if sentinel LW IPT row < flat IPT (sortRow dev LW IPT (paddedKeys LW IPT row)) x then
        g (flat IPT (sortRow dev LW IPT (paddedKeys LW IPT row)) x) else 0) =
      ∑ col ∈ row.columns, g (row.logit col - rowMax LW IPT row) := by
  rw [sum_perm (fun v => if sentinel LW IPT row < v then g v else 0) (hsort _).2,
    sum_flat (fun v => if sentinel LW IPT row < v then g v else 0), ← sum_columns hw]
  refine sum_congr rfl fun lane _ => sum_congr rfl fun i _ => ?_
  unfold paddedKeys shifted
  by_cases hvalid : row.valid (lane + i * LW) = true
  · rw [if_pos hvalid, if_pos hvalid, if_pos (sentinel_lt hw hvalid), if_pos hvalid]
  · rw [if_neg hvalid, if_neg (lt_irrefl _), if_neg hvalid]

/-- The row's own entries come first. -/
theorem sentinel_lt_sorted (hsort : SortsRow dev LW IPT) (hw : row.width ≤ LW * IPT) {x : ℕ} (hx : x < LW * IPT) :
    sentinel LW IPT row < flat IPT (sortRow dev LW IPT (paddedKeys LW IPT row)) x ↔ x < validCount LW IPT row := by
  obtain ⟨cut, hle, hcut⟩ := @Bitonic.exists_cut (LW * IPT)
    (fun x => decide (sentinel LW IPT row < flat IPT (sortRow dev LW IPT (paddedKeys LW IPT row)) x))
    fun x y hxy hy => by
      rw [Bool.le_iff_imp]
      intro h
      exact decide_eq_true ((of_decide_eq_true h).trans_le ((hsort _).1 x y hxy hy))
  have hcount := sum_sorted hsort hw (fun _ => 1)
  rw [← card_eq_sum_ones, ← validCount_eq hw] at hcount
  have hiff : ∀ y < LW * IPT, sentinel LW IPT row < flat IPT (sortRow dev LW IPT (paddedKeys LW IPT row)) y ↔ y < cut :=
    fun y hy => decide_eq_decide.1 (hcut y hy)
  have hcutCount : cut = validCount LW IPT row := by
    rw [← hcount, sum_congr rfl fun y hy => by rw [if_congr (hiff y (mem_range.1 hy)) rfl rfl],
      ← sum_filter, ← card_eq_sum_ones]
    have hfilter : (range (LW * IPT)).filter (· < cut) = range cut := by
      ext y
      simp only [mem_filter, mem_range]
      omega
    rw [hfilter, card_range]
  rw [hiff x hx, hcutCount]

/-! ### The scan -/

/-- The last candidate of the ranks from `lo` up to `hi`, as a packed key. -/
def LastCandidate (cand : ℕ → Bool) (t : ℕ → ℝ) (lo hi : ℕ) (key : ℕ × ℝ) : Prop :=
  (key = (0, 0) ∧ ∀ r, lo ≤ r → r < hi → cand r = false) ∨
  ∃ r, lo ≤ r ∧ r < hi ∧ cand r = true ∧ key = (r + 1, t r) ∧ ∀ r', r < r' → r' < hi → cand r' = false

section LastCandidate

variable {cand : ℕ → Bool} {t : ℕ → ℝ} {lo mid hi : ℕ} {key key' : ℕ × ℝ}

theorem LastCandidate.empty (cand : ℕ → Bool) (t : ℕ → ℝ) (lo : ℕ) : LastCandidate cand t lo lo (0, 0) :=
  .inl ⟨rfl, fun _ _ _ => by omega⟩

theorem LastCandidate.step (h : LastCandidate cand t lo hi key) (hle : lo ≤ hi) :
    LastCandidate cand t lo (hi + 1) (if cand hi then (hi + 1, t hi) else key) := by
  split
  · rename_i hcand
    exact .inr ⟨hi, hle, by omega, hcand, rfl, fun _ _ _ => by omega⟩
  · rename_i hcand
    rw [Bool.not_eq_true] at hcand
    have hlast : ∀ r, r < hi + 1 → (r < hi → cand r = false) → cand r = false := fun r hr hlow => by
      rcases Nat.lt_succ_iff_lt_or_eq.1 hr with hlt | rfl
      · exact hlow hlt
      · exact hcand
    rcases h with ⟨hkey, hnone⟩ | ⟨r, hlo, hr, hc, hkey, hnone⟩
    · exact .inl ⟨hkey, fun r hlo hr => hlast r hr (hnone r hlo)⟩
    · exact .inr ⟨r, hlo, by omega, hc, hkey, fun r' hr' hhi => hlast r' hhi (hnone r' hr')⟩

/-- The greater of two lanes' keys is the later lane's, where that found one. -/
theorem LastCandidate.pick (h : LastCandidate cand t lo mid key) (h' : LastCandidate cand t mid hi key')
    (hlo : lo ≤ mid) (hle : mid ≤ hi) : LastCandidate cand t lo hi (pick key key') := by
  unfold Entmax.pick
  rcases h' with ⟨rfl, hnone'⟩ | ⟨r', hmid, hr', hc', rfl, hnone'⟩
  · rw [if_neg (by simp)]
    rcases h with ⟨hkey, hnone⟩ | ⟨r, hlo, hr, hc, hkey, hnone⟩
    · refine .inl ⟨hkey, fun r hlo hhi => ?_⟩
      rcases Nat.lt_or_ge r mid with hlt | hge
      · exact hnone r hlo hlt
      · exact hnone' r hge hhi
    · refine .inr ⟨r, hlo, by omega, hc, hkey, fun r' hr' hhi => ?_⟩
      rcases Nat.lt_or_ge r' mid with hlt | hge
      · exact hnone r' hr' hlt
      · exact hnone' r' hge hhi
  · have hlt : key.1 < r' + 1 := by
      rcases h with ⟨rfl, -⟩ | ⟨r, -, hr, -, rfl, -⟩
      · exact Nat.succ_pos _
      · exact Nat.succ_lt_succ (by omega)
    rw [if_pos hlt]
    exact .inr ⟨r', hlo.trans hmid, hr', hc', rfl, hnone'⟩

end LastCandidate

section Scan

variable {alpha15 : Bool} {count : ℕ} {keys : Keys ℝ}

theorem localSum_eq (lane : ℕ) : localSum IPT keys lane =
    (∑ i ∈ range IPT, flat IPT keys (lane * IPT + i), ∑ i ∈ range IPT, flat IPT keys (lane * IPT + i) *
      flat IPT keys (lane * IPT + i)) := by
  have hfold : ∀ n, (List.range n).foldl (fun s i => (s.1 + keys lane i, s.2 + keys lane i * keys lane i)) (0, 0) =
      (∑ i ∈ range n, keys lane i, ∑ i ∈ range n, keys lane i * keys lane i) := fun n => by
    induction n with
    | zero => simp
    | succ n ih => rw [List.range_succ, List.foldl_append, ih, sum_range_succ, sum_range_succ]; rfl
  have hflat : ∀ i ∈ range IPT, keys lane i = flat IPT keys (lane * IPT + i) := fun i hi =>
    (flat_lane keys (mem_range.1 hi)).symm
  rw [localSum, hfold, Prod.mk.injEq]
  exact ⟨sum_congr rfl hflat, sum_congr rfl fun i hi => by rw [hflat i hi]⟩

theorem carryIn_eq (lane : ℕ) : carryIn IPT keys lane =
    (∑ x ∈ range (lane * IPT), flat IPT keys x, ∑ x ∈ range (lane * IPT), flat IPT keys x * flat IPT keys x) := by
  unfold carryIn
  induction lane with
  | zero => simp
  | succ lane ih =>
    rw [List.range_succ, List.foldl_append, ih, List.foldl_cons, List.foldl_nil, localSum_eq, Nat.succ_mul,
      sum_range_add, sum_range_add]

/-- The candidates the scan admits. -/
noncomputable def admitted (alpha15 : Bool) (count IPT : ℕ) (keys : Keys ℝ) (r : ℕ) : Bool :=
  decide (r < count) && candidateAt alpha15 (flat IPT keys) r

theorem laneScan_spec (hsqrt : dev.sqrt = Real.sqrt) (lane : ℕ) :
    LastCandidate (admitted alpha15 count IPT keys) (tauAt alpha15 (flat IPT keys)) (lane * IPT)
      (lane * IPT + IPT) (packedKey dev alpha15 IPT count keys lane) := by
  have hfold : ∀ m ≤ IPT, ∀ s, (List.range m).foldl (scanItem dev alpha15 IPT count keys lane)
      ⟨(carryIn IPT keys lane).1, (carryIn IPT keys lane).2, -1, 0⟩ = s →
      s.runP = ∑ x ∈ range (lane * IPT + m), flat IPT keys x ∧
      s.runQ = ∑ x ∈ range (lane * IPT + m), flat IPT keys x * flat IPT keys x ∧ -1 ≤ s.bestCol ∧
      LastCandidate (admitted alpha15 count IPT keys) (tauAt alpha15 (flat IPT keys)) (lane * IPT)
        (lane * IPT + m) ((s.bestCol + 1).toNat, s.bestTau) := by
    intro m hm
    induction m with
    | zero =>
      rintro s rfl
      rw [carryIn_eq]
      exact ⟨rfl, rfl, le_rfl, LastCandidate.empty ..⟩
    | succ m ih =>
      rintro s rfl
      obtain ⟨hp, hq, hcol, hlast⟩ := ih (by omega) _ rfl
      rw [List.range_succ, List.foldl_append, List.foldl_cons, List.foldl_nil]
      generalize (List.range m).foldl (scanItem dev alpha15 IPT count keys lane)
        ⟨(carryIn IPT keys lane).1, (carryIn IPT keys lane).2, -1, 0⟩ = s at hp hq hcol hlast
      have hkey : keys lane m = flat IPT keys (lane * IPT + m) := (flat_lane keys (by omega)).symm
      have hp' : s.runP + keys lane m = ∑ x ∈ range (lane * IPT + m + 1), flat IPT keys x := by
        rw [sum_range_succ, hp, hkey]
      have hq' : s.runQ + keys lane m * keys lane m =
          ∑ x ∈ range (lane * IPT + m + 1), flat IPT keys x * flat IPT keys x := by
        rw [sum_range_succ, hq, hkey]
      have hstep := hlast.step (by omega)
      have hcand : (decide (lane * IPT + m < count) && isCandidate dev.sqrt alpha15 ((lane * IPT + m + 1 : ℕ) : ℝ)
          (s.runP + keys lane m) (s.runQ + keys lane m * keys lane m) (keys lane m)) =
          admitted alpha15 count IPT keys (lane * IPT + m) := by
        rw [hp', hq', hkey, hsqrt]
        rfl
      have htau : candidateTau dev.sqrt alpha15 ((lane * IPT + m + 1 : ℕ) : ℝ) (s.runP + keys lane m)
          (s.runQ + keys lane m * keys lane m) = tauAt alpha15 (flat IPT keys) (lane * IPT + m) := by
        rw [hp', hq', hsqrt]
        rfl
      unfold scanItem
      simp only [hcand, htau]
      split
      · rename_i hyes
        rw [if_pos hyes] at hstep
        have hcol' : (((lane * IPT + m : ℕ) : ℤ) + 1).toNat = lane * IPT + m + 1 := by omega
        refine ⟨hp', hq', by dsimp only; omega, ?_⟩
        dsimp only
        rw [hcol']
        exact hstep
      · rename_i hno
        rw [if_neg hno] at hstep
        exact ⟨hp', hq', hcol, hstep⟩
  exact (hfold IPT le_rfl _ rfl).2.2.2

theorem foldl_pick_spec (hsqrt : dev.sqrt = Real.sqrt) (n : ℕ) :
    LastCandidate (admitted alpha15 count IPT keys) (tauAt alpha15 (flat IPT keys)) 0 (n * IPT)
      ((List.range n).foldl (fun best lane => pick best (packedKey dev alpha15 IPT count keys lane)) (0, 0)) := by
  induction n with
  | zero =>
    rw [Nat.zero_mul]
    exact LastCandidate.empty ..
  | succ n ih =>
    rw [List.range_succ, List.foldl_append, List.foldl_cons, List.foldl_nil, Nat.succ_mul]
    exact ih.pick (laneScan_spec hsqrt n) (Nat.zero_le _) (by omega)

/-- The scan selects the last admitted rank's threshold. -/
theorem selectTau_spec (hsqrt : dev.sqrt = Real.sqrt) (hcount : 0 < count) (hle : count ≤ LW * IPT) :
    ∃ r < count, candidateAt alpha15 (flat IPT keys) r = true ∧
      (∀ r', r < r' → r' < count → candidateAt alpha15 (flat IPT keys) r' = false) ∧
      selectTau dev alpha15 LW IPT count keys = tauAt alpha15 (flat IPT keys) r := by
  rcases @foldl_pick_spec IPT dev alpha15 count keys hsqrt LW with
    ⟨-, hnone⟩ | ⟨r, -, hr, hc, hkey, hnone⟩
  · have := hnone 0 le_rfl (by omega)
    rw [admitted, candidateAt_zero, decide_eq_true hcount] at this
    cases this
  · simp only [admitted, Bool.and_eq_true, decide_eq_true_eq] at hc
    refine ⟨r, hc.1, hc.2, fun r' hlt hr' => ?_, ?_⟩
    · have := hnone r' hlt (by omega)
      rwa [admitted, decide_eq_true hr', Bool.true_and] at this
    · unfold selectTau
      rw [hkey]
      simp

end Scan

end Rola.Entmax
