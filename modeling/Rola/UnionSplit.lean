import Rola.FactorJacobian
import Rola.UnionGradient

/-!
# The union forward is a gated split

In exact arithmetic the kernel's logarithms cancel: its read half is the midpoints' amplitude by the
logistic gate, its write half the other gate's share, divided by the row's. The difference it gates by is
the logits' own unless it saturates.
-/

namespace Rola.Entmax
open Finset hiding sum_apply
open Real (sigmoid)

attribute [local instance] atLeastTwo_two

structure UnionDevice.Exact (dev : UnionDevice ℝ) : Prop where
  toDevice : dev.toDevice.Exact
  exp : dev.exp = Real.exp
  log : dev.log = Real.log
  log1p : dev.log1p = fun x => Real.log (1 + x)

/-! ### The gates -/

theorem overflowFreeDelta_unsaturated {r w : ℝ} (h : (overflowFreeDelta r w).2 = false) :
    (overflowFreeDelta r w).1 = r - w := by
  have hmax : (kMax : ℝ) = kHalfMax + kHalfMax := by
    unfold kMax kHalfMax
    norm_num
  unfold overflowFreeDelta at h ⊢
  dsimp only at h ⊢
  by_cases hopp : (decide (r < 0) != decide (w < 0)) = true
  · rw [if_pos hopp]
    have hroom : min |r| |w| ≤ kMax - max |r| |w| := by
      simp only [hopp, Bool.true_and, Bool.and_eq_false_iff, decide_eq_false_iff_not, not_lt] at h
      rcases h with hhalf | hroom
      · have : min |r| |w| ≤ max |r| |w| := min_le_max
        linarith
      · exact hroom
    rw [min_eq_left hroom, max_add_min]
    by_cases hr : r < 0
    · have hw : 0 ≤ w := by simpa [hr] using hopp
      rw [if_pos (decide_eq_true hr), abs_of_neg hr, abs_of_nonneg hw]
      ring
    · have hw : w < 0 := by simpa [hr] using hopp
      rw [if_neg (by simpa using hr), abs_of_nonneg (not_lt.1 hr), abs_of_neg hw]
      ring
  · rw [if_neg hopp, if_neg hopp, if_neg hopp]

variable {dev : UnionDevice ℝ}

theorem exp_logWriteGate (hdev : dev.Exact) (delta : ℝ) : Real.exp (logWriteGate dev delta) = sigmoid (-delta) := by
  have hlog : ∀ x : ℝ, 0 < 1 + Real.exp x := fun x => by positivity
  rw [logWriteGate, hdev.exp, hdev.log1p, Real.sigmoid_def, neg_neg, Real.exp_neg, Real.exp_add,
    Real.exp_log (hlog _)]
  congr 1
  rcases le_total 0 delta with h | h
  · rw [max_eq_left h, abs_of_nonneg h, mul_add, ← Real.exp_add]
    simp [add_comm]
  · rw [max_eq_right h, abs_of_nonpos h]
    simp

/-! ### The row -/

variable {n : ℕ} {alpha15 : Bool} {lay : Layout n} {r w : Fin n → ℝ}

/-- The row with the given logits. -/
noncomputable abbrev unionAt (r w : Fin n → ℝ) : UnionRow ℝ :=
  ⟨n, fun col => if h : col < n then r ⟨col, h⟩ else 0, fun col => if h : col < n then w ⟨col, h⟩ else 0⟩

theorem unionAt_read (r w : Fin n → ℝ) (i : Fin n) : (unionAt r w).read i = r i := dif_pos i.isLt

theorem unionAt_write (r w : Fin n → ℝ) (i : Fin n) : (unionAt r w).write i = w i := dif_pos i.isLt

noncomputable def midpoint (r w : Fin n → ℝ) (i : Fin n) : ℝ := 1 / 2 * r i + 1 / 2 * w i

theorem midpoints_unionAt (r w : Fin n → ℝ) : (unionAt r w).midpoints = rowAt none (midpoint r w) := by
  unfold UnionRow.midpoints midpointRow rowAt
  congr 1
  funext col
  by_cases h : col < n
  · rw [dif_pos h, unionAt_read r w ⟨col, h⟩, unionAt_write r w ⟨col, h⟩, midpoint]
  · simp [h]

/-- The midpoints' amplitudes. -/
noncomputable def amplitudes (dev : UnionDevice ℝ) (alpha15 : Bool) (lay : Layout n) (r w : Fin n → ℝ) : Fin n → ℝ :=
  factorForward dev.toDevice alpha15 none lay (midpoint r w)

noncomputable def deltas (r w : Fin n → ℝ) (i : Fin n) : ℝ := (overflowFreeDelta (r i) (w i)).1

theorem unionDelta_unionAt (i : Fin n) : unionDelta (unionAt r w) i = deltas r w i := by
  unfold unionDelta deltas
  rw [if_pos i.isLt, if_pos i.isLt, unionAt_read, unionAt_write]

theorem unionValue_unionAt (i : Fin n) :
    unionValue dev alpha15 lay.LW lay.IPT (unionAt r w) (i % lay.LW) (i / lay.LW) = amplitudes dev alpha15 lay r w i := by
  unfold unionValue
  rw [midpoints_unionAt]
  rfl

theorem unionSupport_unionAt (col : ℕ) :
    unionSupport dev alpha15 lay.LW lay.IPT (unionAt r w) (col % lay.LW) (col / lay.LW) =
      forwardSupport dev.toDevice alpha15 lay.LW lay.IPT (rowAt none (midpoint r w)) col := by
  unfold unionSupport
  rw [midpoints_unionAt]
  rfl

theorem unionRead_eq (hdev : dev.Exact) (i : Fin n) :
    unionRead dev alpha15 lay.LW lay.IPT (unionAt r w) (i % lay.LW) (i / lay.LW) =
      splitRead (amplitudes dev alpha15 lay r w) (deltas r w) i := by
  rw [unionRead, unionValue_unionAt, lane_add_mul, unionDelta_unionAt, hdev.exp, splitRead, Real.sigmoid_def, one_div]

/-! ### The write half -/

theorem warpSum_congr {LW IPT : ℕ} {f f' : ℕ → ℕ → ℝ} (h : ∀ lane < LW, ∀ i, f lane i = f' lane i) :
    warpSum LW IPT f = warpSum LW IPT f' := by
  unfold warpSum
  congr 1
  refine List.map_congr_left fun lane hlane => ?_
  congr 1
  funext s i
  rw [h lane (List.mem_range.1 hlane) i]

/-- A running maximum is at least every entry it took. -/
theorem le_foldl_max (p : ℕ → Bool) (f : ℕ → WithBot ℝ) {n i : ℕ} (hi : i < n) (hp : p i = true) :
    f i ≤ (List.range n).foldl (fun m i => if p i then max m (f i) else m) ⊥ := by
  induction n with
  | zero => omega
  | succ n ih =>
    rw [List.range_succ, List.foldl_append, List.foldl_cons, List.foldl_nil]
    rcases Nat.lt_succ_iff_lt_or_eq.1 hi with hlt | rfl
    · split
      · exact (ih hlt).trans (le_max_left ..)
      · exact ih hlt
    · rw [if_pos hp]
      exact le_max_right ..

theorem le_foldl_max_map (f : ℕ → WithBot ℝ) {n i : ℕ} (hi : i < n) : f i ≤ ((List.range n).map f).foldl max ⊥ := by
  induction n with
  | zero => omega
  | succ n ih =>
    rw [List.range_succ, List.map_append, List.foldl_append]
    rcases Nat.lt_succ_iff_lt_or_eq.1 hi with hlt | rfl
    · exact (ih hlt).trans (le_max_left ..)
    · exact le_max_right ..

/-- A row with a supported column has mass. -/
theorem hasMass_of_support {LW IPT : ℕ} {row : UnionRow ℝ} {lane i : ℕ} (hlane : lane < LW) (hi : i < IPT)
    (hsup : unionSupport dev alpha15 LW IPT row lane i = true) : hasMass dev alpha15 LW IPT row = true := by
  refine decide_eq_true (lt_of_lt_of_le ?_ ((le_foldl_max (fun i => unionSupport dev alpha15 LW IPT row lane i)
    (fun i => logWeight dev alpha15 LW IPT row lane i) hi hsup).trans
      (le_foldl_max_map (localLw dev alpha15 LW IPT row) hlane)))
  rw [logWeight, if_pos hsup]
  exact WithBot.bot_lt_coe _

theorem amplitudes_pos {i : Fin n} (hi : i ∈ supported dev.toDevice alpha15 none lay (midpoint r w)) :
    0 < amplitudes dev alpha15 lay r w i := by
  rw [amplitudes, factorForward_eq, if_pos hi, amplitude_pos, sub_pos]
  exact (mem_supported.1 hi).2

theorem amplitudes_off {i : Fin n} (hi : i ∉ supported dev.toDevice alpha15 none lay (midpoint r w)) :
    amplitudes dev alpha15 lay r w i = 0 := by
  rw [amplitudes, factorForward_eq, if_neg hi]

theorem gated_pos {i : Fin n} (hi : i ∈ supported dev.toDevice alpha15 none lay (midpoint r w)) :
    0 < gated (amplitudes dev alpha15 lay r w) (deltas r w) i :=
  mul_pos (amplitudes_pos hi) (Real.sigmoid_pos _)

theorem gated_nonneg (i : Fin n) : 0 ≤ gated (amplitudes dev alpha15 lay r w) (deltas r w) i := by
  by_cases hi : i ∈ supported dev.toDevice alpha15 none lay (midpoint r w)
  · exact (gated_pos hi).le
  · rw [gated, amplitudes_off hi, zero_mul]

/-- The scaled weights are the gated amplitudes, all by one factor. -/
theorem scaled_unionAt (hdev : dev.Exact) (i : Fin n) :
    scaled dev alpha15 lay.LW lay.IPT (unionAt r w) (i % lay.LW) (i / lay.LW) =
      gated (amplitudes dev alpha15 lay r w) (deltas r w) i *
        Real.exp (-safeMax dev alpha15 lay.LW lay.IPT (unionAt r w)) := by
  have hlt : (i : ℕ) < lay.LW * lay.IPT := i.isLt.trans_le lay.width_le
  have hsup := @unionSupport_unionAt dev n alpha15 lay r w i
  rw [scaled]
  by_cases hi : i ∈ supported dev.toDevice alpha15 none lay (midpoint r w)
  · have hyes : unionSupport dev alpha15 lay.LW lay.IPT (unionAt r w) (i % lay.LW) (i / lay.LW) = true := by
      rw [hsup]
      exact (mem_filter.1 hi).2
    have hmass := hasMass_of_support (Nat.mod_lt _ lay.LW_pos) (Nat.div_lt_of_lt_mul hlt) hyes
    rw [hyes, hmass, Bool.and_self, if_pos rfl, logWeight, if_pos hyes, WithBot.unbotD_coe, unionValue_unionAt,
      lane_add_mul, unionDelta_unionAt, hdev.exp, hdev.log, sub_eq_add_neg, Real.exp_add, Real.exp_add,
      Real.exp_log (amplitudes_pos hi), exp_logWriteGate hdev, gated]
  · have hno : unionSupport dev alpha15 lay.LW lay.IPT (unionAt r w) (i % lay.LW) (i / lay.LW) = false := by
      rw [hsup, ← Bool.not_eq_true]
      exact fun h => hi (mem_filter.2 ⟨mem_univ i, h⟩)
    rw [hno, Bool.false_and, if_neg (by simp), gated, amplitudes_off hi, zero_mul, zero_mul]

theorem den_unionAt (hdev : dev.Exact) : den dev alpha15 lay.LW lay.IPT (unionAt r w) =
    (∑ j, gated (amplitudes dev alpha15 lay r w) (deltas r w) j) *
      Real.exp (-safeMax dev alpha15 lay.LW lay.IPT (unionAt r w)) := by
  have hcol : ∀ lane < lay.LW, ∀ i, scaled dev alpha15 lay.LW lay.IPT (unionAt r w) lane i =
      (fun col => scaled dev alpha15 lay.LW lay.IPT (unionAt r w) (col % lay.LW) (col / lay.LW)) (lane + i * lay.LW) :=
    fun lane hlane i => by
      dsimp only
      rw [Nat.add_mul_mod_self_right, Nat.mod_eq_of_lt hlane, Nat.add_mul_div_right _ _ lay.LW_pos,
        Nat.div_eq_of_lt hlane, Nat.zero_add]
  have hpast : ∀ col, n ≤ col → scaled dev alpha15 lay.LW lay.IPT (unionAt r w) (col % lay.LW) (col / lay.LW) = 0 := by
    intro col hle
    have hno : unionSupport dev alpha15 lay.LW lay.IPT (unionAt r w) (col % lay.LW) (col / lay.LW) = false := by
      rw [unionSupport_unionAt, ← Bool.not_eq_true]
      intro h
      rw [@forwardSupport_eq dev.toDevice alpha15 (rowAt none (midpoint r w)) lay, Bool.and_eq_true] at h
      have : col < n := Row.valid_lt h.1
      omega
    rw [scaled, hno, Bool.false_and, if_neg (by simp)]
  refine ((warpSum_congr hcol).trans (warpSum_row lay hpast)).trans ?_
  rw [sum_mul]
  exact sum_congr rfl fun i _ => scaled_unionAt hdev i

theorem unionWrite_eq (hdev : dev.Exact) (i : Fin n) :
    unionWrite dev alpha15 lay.LW lay.IPT (unionAt r w) (i % lay.LW) (i / lay.LW) =
      splitWrite (amplitudes dev alpha15 lay r w) (deltas r w) i := by
  rw [unionWrite]
  by_cases hi : i ∈ supported dev.toDevice alpha15 none lay (midpoint r w)
  · have hsum : 0 < ∑ j, gated (amplitudes dev alpha15 lay r w) (deltas r w) j :=
      sum_pos' (fun j _ => gated_nonneg j) ⟨i, mem_univ i, gated_pos hi⟩
    have hpos : 0 < den dev alpha15 lay.LW lay.IPT (unionAt r w) := by
      rw [den_unionAt hdev]
      exact mul_pos hsum (Real.exp_pos _)
    have hyes := (unionSupport_unionAt i).trans (mem_filter.1 hi).2
    simp only [hyes, decide_eq_true hpos, Bool.and_self, if_true]
    rw [scaled_unionAt hdev, den_unionAt hdev, mul_div_mul_right _ _ (Real.exp_pos _).ne', splitWrite]
  · have hno : unionSupport dev alpha15 lay.LW lay.IPT (unionAt r w) (i % lay.LW) (i / lay.LW) = false := by
      rw [unionSupport_unionAt, ← Bool.not_eq_true]
      exact fun h => hi (mem_filter.2 ⟨mem_univ i, h⟩)
    rw [hno, splitWrite, gated, amplitudes_off hi]
    simp

end Rola.Entmax
