import Mathlib.Data.List.Sort
import Rola.EntmaxSolve

/-!
# What the forward writes

The row's amplitudes are those of the one threshold that gives them sum one, so nothing but the
unmasked entries decides them: neither masks nor padding, nor the order of the columns, nor the lanes
that hold them. The torch lowering's solve of a whole row has the same threshold.
-/

namespace Rola.Entmax
open Finset

/-- The square root is exact, and the block sort above four items a lane does what it documents. -/
structure Device.Exact (dev : Device ℝ) : Prop where
  sqrt : dev.sqrt = Real.sqrt
  sorted : ∀ LW IPT keys x y, x ≤ y → y < LW * IPT →
    flat IPT (dev.mergeSort LW IPT keys) y ≤ flat IPT (dev.mergeSort LW IPT keys) x
  perm : ∀ LW IPT keys, ((List.range (LW * IPT)).map (flat IPT (dev.mergeSort LW IPT keys))).Perm
    ((List.range (LW * IPT)).map (flat IPT keys))

/-- A logical warp of a power of two lanes, a power of two columns each, wide enough for the row. -/
structure Layout (width : ℕ) where
  lanes : ℕ
  items : ℕ
  width_le : width ≤ 2 ^ lanes * 2 ^ items

namespace Layout

variable {width : ℕ}

def LW (lay : Layout width) : ℕ := 2 ^ lay.lanes

def IPT (lay : Layout width) : ℕ := 2 ^ lay.items

theorem LW_pos (lay : Layout width) : 0 < lay.LW := Nat.two_pow_pos _

end Layout

variable {dev : Device ℝ} {alpha15 : Bool} {row : Row ℝ} {lay : Layout row.width}

theorem Device.Exact.sortsRow (hdev : dev.Exact) (lay : Layout row.width) : SortsRow dev lay.LW lay.IPT := by
  intro keys
  unfold sortRow
  split
  · exact RowSort.sort_sorts lay.lanes lay.items keys
  · exact ⟨hdev.sorted _ _ keys, hdev.perm _ _ keys⟩

theorem Layout.card_columns_le (lay : Layout row.width) : row.columns.card ≤ lay.LW * lay.IPT := by
  refine (card_le_card (filter_subset _ _)).trans ?_
  rw [card_range]
  exact lay.width_le

/-- The row sorted, as the scan ranks it. -/
noncomputable def sortedRow (dev : Device ℝ) (row : Row ℝ) (lay : Layout row.width) : ℕ → ℝ :=
  flat lay.IPT (sortRow dev lay.LW lay.IPT (paddedKeys lay.LW lay.IPT row))

/-! ### The threshold -/

/-- The scan selects the largest `k` whose threshold lies below the `k`-th value. -/
theorem tau_eq_tauAt (hdev : dev.Exact) (hne : row.columns.Nonempty) : ∃ r < row.columns.card,
    candidateAt alpha15 (sortedRow dev row lay) r = true ∧
    (∀ r', r < r' → r' < row.columns.card → candidateAt alpha15 (sortedRow dev row lay) r' = false) ∧
    tau dev alpha15 lay.LW lay.IPT row = tauAt alpha15 (sortedRow dev row lay) r := by
  have hcount := validCount_eq lay.width_le
  have hle := lay.card_columns_le
  rw [← hcount] at hle ⊢
  exact selectTau_spec hdev.sqrt (by rw [hcount]; exact card_pos.2 hne) hle

/-- The first ranks are the row's entries, its maximum taken off. -/
theorem sum_sortedRow {M : Type*} [AddCommMonoid M] (hdev : dev.Exact) (lay : Layout row.width) (g : ℝ → M) :
    ∑ x ∈ range row.columns.card, g (sortedRow dev row lay x) =
      ∑ col ∈ row.columns, g (row.logit col - rowMax lay.LW lay.IPT row) := by
  have hsort := hdev.sortsRow lay
  have hle := lay.card_columns_le
  have hcount : validCount lay.LW lay.IPT row = row.columns.card := validCount_eq lay.width_le
  rw [← sum_sorted hsort lay.width_le g]
  -- the ranks at or past the count hold padding
  refine sum_subset_zero_on_sdiff (fun x hx => ?_) (fun x hx => ?_) fun x hx => ?_
  · simp only [mem_range] at hx ⊢
    omega
  · simp only [mem_sdiff, mem_range] at hx
    refine if_neg fun h => hx.2 ?_
    rw [← hcount]
    exact (sentinel_lt_sorted hsort lay.width_le hx.1).1 h
  · rw [mem_range, ← hcount] at hx
    exact (if_pos ((sentinel_lt_sorted hsort lay.width_le (by omega)).2 hx)).symm

theorem sortedRow_le (hdev : dev.Exact) (lay : Layout row.width) {x y : ℕ} (hxy : x ≤ y)
    (hy : y < row.columns.card) : sortedRow dev row lay y ≤ sortedRow dev row lay x :=
  (hdev.sortsRow lay _).1 x y hxy (hy.trans_le lay.card_columns_le)

theorem sum_amplitude_tau (hdev : dev.Exact) (hne : row.columns.Nonempty) :
    ∑ col ∈ row.columns, amplitude alpha15
      (row.logit col - rowMax lay.LW lay.IPT row - tau dev alpha15 lay.LW lay.IPT row) = 1 := by
  obtain ⟨r, hr, hcand, hlast, htau⟩ := @tau_eq_tauAt dev alpha15 row lay hdev hne
  rw [← sum_sortedRow hdev lay fun x => amplitude alpha15 (x - tau dev alpha15 lay.LW lay.IPT row), htau]
  exact sum_amplitude_tauAt (fun i j hij hj => sortedRow_le hdev lay hij hj) hr hcand hlast

/-- The threshold of the row as it was given, before its maximum is taken off. -/
noncomputable def threshold (dev : Device ℝ) (alpha15 : Bool) (row : Row ℝ) (lay : Layout row.width) : ℝ :=
  rowMax lay.LW lay.IPT row + tau dev alpha15 lay.LW lay.IPT row

theorem sum_amplitude_threshold (hdev : dev.Exact) (hne : row.columns.Nonempty) :
    ∑ col ∈ row.columns, amplitude alpha15 (row.logit col - threshold dev alpha15 row lay) = 1 := by
  rw [← @sum_amplitude_tau dev alpha15 row lay hdev hne]
  exact sum_congr rfl fun col _ => by rw [threshold, sub_sub]

/-! ### The amplitudes -/

theorem forwardSupport_eq (col : ℕ) : forwardSupport dev alpha15 lay.LW lay.IPT row col =
    (row.valid col && decide (threshold dev alpha15 row lay < row.logit col)) := by
  unfold forwardSupport support shifted
  rw [lane_add_mul]
  cases hvalid : row.valid col
  · rfl
  · rw [if_pos rfl, Bool.true_and, Bool.true_and, threshold, decide_eq_decide, lt_sub_iff_add_lt']

theorem forwardValue_eq (col : ℕ) : forwardValue dev alpha15 lay.LW lay.IPT row col =
    if row.valid col then amplitude alpha15 (row.logit col - threshold dev alpha15 row lay) else 0 := by
  have hsup := @forwardSupport_eq dev alpha15 row lay col
  unfold forwardSupport at hsup
  unfold forwardValue mass
  rw [hsup]
  cases hvalid : row.valid col
  · cases alpha15
    · simp
    · simp
  · have hshift : shifted lay.LW lay.IPT row (col % lay.LW) (col / lay.LW) - tau dev alpha15 lay.LW lay.IPT row =
        row.logit col - threshold dev alpha15 row lay := by
      rw [shifted, lane_add_mul, if_pos hvalid, threshold, sub_sub]
    rw [hshift, Bool.true_and, if_pos rfl]
    by_cases hlt : threshold dev alpha15 row lay < row.logit col
    · rw [decide_eq_true hlt]
      rfl
    · rw [decide_eq_false hlt, amplitude_of_nonpos (by linarith)]
      cases alpha15
      · simp
      · simp

theorem sum_forwardValue (hdev : dev.Exact) (hne : row.columns.Nonempty) :
    ∑ col ∈ range row.width, forwardValue dev alpha15 lay.LW lay.IPT row col = 1 := by
  rw [← @sum_amplitude_threshold dev alpha15 row lay hdev hne, Row.columns, sum_filter]
  exact sum_congr rfl fun col _ => forwardValue_eq col

theorem forwardValue_nonneg (col : ℕ) : 0 ≤ forwardValue dev alpha15 lay.LW lay.IPT row col := by
  rw [forwardValue_eq]
  split
  · exact amplitude_nonneg ..
  · exact le_rfl

theorem forwardValue_pos (col : ℕ) : 0 < forwardValue dev alpha15 lay.LW lay.IPT row col ↔
    forwardSupport dev alpha15 lay.LW lay.IPT row col = true := by
  rw [forwardValue_eq, forwardSupport_eq, Bool.and_eq_true, decide_eq_true_eq]
  split
  · rename_i hvalid
    rw [amplitude_pos, sub_pos, hvalid, eq_self, true_and]
  · rename_i hvalid
    simp [hvalid]

theorem forwardValue_of_empty (hempty : row.columns = ∅) (col : ℕ) :
    forwardValue dev alpha15 lay.LW lay.IPT row col = 0 ∧ forwardSupport dev alpha15 lay.LW lay.IPT row col = false := by
  have hvalid : row.valid col = false := by
    rw [← Bool.not_eq_true, ← Row.mem_columns, hempty]
    exact notMem_empty col
  rw [forwardValue_eq, forwardSupport_eq, hvalid]
  exact ⟨rfl, rfl⟩

/-! ### What the amplitudes depend on -/

/-- The unmasked entries of one row are those of the other, wherever each holds them. -/
structure SameEntries (row row' : Row ℝ) (e : ℕ → ℕ) : Prop where
  bij : Set.BijOn e row.columns row'.columns
  logit : ∀ col ∈ row.columns, row'.logit (e col) = row.logit col

variable {row' : Row ℝ} {lay' : Layout row'.width} {e : ℕ → ℕ}

theorem SameEntries.sum_eq (h : SameEntries row row' e) (f : ℝ → ℝ) :
    ∑ col ∈ row'.columns, f (row'.logit col) = ∑ col ∈ row.columns, f (row.logit col) := by
  symm
  exact sum_nbij e (fun col hcol => h.bij.mapsTo hcol) h.bij.injOn h.bij.surjOn
    fun col hcol => by rw [h.logit col hcol]

theorem SameEntries.threshold_eq (h : SameEntries row row' e) (hdev : dev.Exact) (hne : row.columns.Nonempty) :
    threshold dev alpha15 row' lay' = threshold dev alpha15 row lay := by
  obtain ⟨col, hcol⟩ := hne
  refine threshold_unique ?_ (@sum_amplitude_threshold dev alpha15 row lay hdev ⟨col, hcol⟩)
  rw [← h.sum_eq fun x => amplitude alpha15 (x - threshold dev alpha15 row' lay')]
  exact sum_amplitude_threshold hdev ⟨e col, h.bij.mapsTo hcol⟩

/-- Neither masked and padding columns, nor the order of the entries, nor the layout changes an
entry's amplitude. -/
theorem SameEntries.forward_eq (h : SameEntries row row' e) (hdev : dev.Exact) {col : ℕ} (hcol : col ∈ row.columns) :
    forwardValue dev alpha15 lay'.LW lay'.IPT row' (e col) = forwardValue dev alpha15 lay.LW lay.IPT row col ∧
    forwardSupport dev alpha15 lay'.LW lay'.IPT row' (e col) = forwardSupport dev alpha15 lay.LW lay.IPT row col := by
  rw [forwardValue_eq, forwardValue_eq, forwardSupport_eq, forwardSupport_eq, h.logit col hcol,
    @SameEntries.threshold_eq dev alpha15 row lay row' lay' e h hdev ⟨col, hcol⟩, Row.mem_columns.1 hcol,
    Row.mem_columns.1 (h.bij.mapsTo hcol)]
  exact ⟨rfl, rfl⟩

end Rola.Entmax
