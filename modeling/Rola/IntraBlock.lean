import Rola.IntraPair

/-!
# A row block's sums

A consumed tile pair adds each row's weighted values at the columns at or before it. Over the column tiles
that is one sum over the window's tokens; a row's mass is in four lanes' shares of it.
-/

namespace Rola.Intra
open Finset

variable {K : Type*} [CommRing K] {arm : Arm} {p : IntraParams K} {masks : ℕ → ℕ → ℕ → ℕ → BitVec 32} {bh wbase rt0 ct : ℕ}

/-- The weight of a write at a read: its gain and the levels' products. -/
def pairWeight (arm : Arm) (p : IntraParams K) (bh t s : ℕ) : K := gainAt p bh s * ∏ l ∈ range arm.D, inner arm p bh t s l

/-- What a read takes of the write `x` into its window. -/
def taken (arm : Arm) (p : IntraParams K) (bh wbase t x : ℕ) : K := if wbase + x ≤ t then pairWeight arm p bh t (wbase + x) else 0

theorem foldl_mul_range' (f : ℕ → K) (n : ℕ) : (List.range' 1 n).foldl (fun a l => a * f l) (f 0) = ∏ l ∈ range (n + 1), f l := by
  induction n with
  | zero => simp
  | succ n ih => rw [List.range'_concat, List.foldl_append, ih, prod_range_succ _ (n + 1), Nat.add_comm 1]; simp

theorem weight_spec {sm : Smem K} {gram : Gram K} {warp row col : ℕ} (hv : Valued p bh wbase ct sm)
    (hwarp : warp < kWarpsPerTile * rowTilesOf arm.W) (hlow : ct ≤ rt0 + mine arm warp) (hrow : row < kWarpRows) (hcol : col < kTile)
    (hgram : ∀ level < arm.D, gram warp level row col =
      inner arm p bh (warpToken wbase rt0 warp row) (wbase + ct * kTile + col) level) :
    weight arm (rt0 + mine arm warp) ct sm gram warp row col =
      taken arm p bh wbase (warpToken wbase rt0 warp row) (ct * kTile + col) := by
  have hlevels : arm.D - 1 + 1 = arm.D := Nat.succ_pred_eq_of_pos arm.levels_pos
  have hprod : ∏ l ∈ range arm.D, gram warp l row col =
      ∏ l ∈ range arm.D, inner arm p bh (warpToken wbase rt0 warp row) (wbase + (ct * kTile + col)) l :=
    prod_congr rfl fun l hl => by rw [hgram l (mem_range.1 hl), Nat.add_assoc]
  have hdiag : (rt0 + mine arm warp = ct ∧ warp % kWarpsPerTile * kWarpRows + row < col) ↔
      ¬ wbase + (ct * kTile + col) ≤ warpToken wbase rt0 warp row := by
    rw [warpToken_eq hwarp]
    unfold kWarpsPerTile kWarpRows kTile at *
    omega
  unfold weight taken pairWeight
  dsimp only
  rw [foldl_mul_range' (fun l => gram warp l row col), hlevels, hprod, hv.gains col hcol, Nat.add_assoc wbase,
    mul_comm _ (gainAt p bh _), if_congr hdiag rfl rfl, ite_not]

/-- After the column tiles before `n` the accumulators hold the tokens before them. -/
structure BlockInv (arm : Arm) (p : IntraParams K) (bh wbase rt0 n : ℕ) (acc : Acc K) : Prop where
  outs : ∀ warp < kWarpsPerTile * rowTilesOf arm.W, ∀ row < kWarpRows, ∀ ch < kValueWidth,
    acc.oacc warp row ch = ∑ x ∈ range (n * kTile),
      taken arm p bh wbase (warpToken wbase rt0 warp row) x * valueAt p bh (wbase + x) ch
  masses : ∀ warp < kWarpsPerTile * rowTilesOf arm.W, ∀ lane < 32, ∀ h < 2,
    acc.dacc warp lane h = ∑ ct ∈ range n, ∑ q ∈ range 8,
      (taken arm p bh wbase (warpToken wbase rt0 warp ((lane >>> 2) + h * 8)) (ct * kTile + (q * 8 + (lane &&& 3) * 2)) +
        taken arm p bh wbase (warpToken wbase rt0 warp ((lane >>> 2) + h * 8)) (ct * kTile + (q * 8 + (lane &&& 3) * 2 + 1)))

/-- Nothing is taken of a column tile past the row's. -/
theorem taken_eq_zero {warp row col : ℕ} (hwarp : warp < kWarpsPerTile * rowTilesOf arm.W) (hhigh : ¬ ct ≤ rt0 + mine arm warp)
    (hrow : row < kWarpRows) : taken arm p bh wbase (warpToken wbase rt0 warp row) (ct * kTile + col) = 0 := by
  refine if_neg ?_
  rw [warpToken_eq hwarp]
  unfold kWarpRows kTile at *
  omega

theorem BlockInv.consume {n : ℕ} {sm : Smem K} {gram : Gram K} {acc : Acc K} (h : BlockInv arm p bh wbase rt0 n acc)
    (hv : Valued p bh wbase n sm)
    (hgram : ∀ warp < kWarpsPerTile * rowTilesOf arm.W, n ≤ rt0 + mine arm warp → ∀ level < arm.D, ∀ row < kWarpRows, ∀ col < kTile,
      gram warp level row col = inner arm p bh (warpToken wbase rt0 warp row) (wbase + n * kTile + col) level) :
    BlockInv arm p bh wbase rt0 (n + 1) (Intra.consume arm rt0 n sm gram acc) := by
  refine ⟨fun warp hwarp row hrow ch hch => ?_, fun warp hwarp lane hlane h' hh' => ?_⟩
  · have hsplit : (n + 1) * kTile = n * kTile + 4 * 16 := by rw [Nat.succ_mul, kTile]
    unfold Intra.consume
    dsimp only
    rw [hsplit, sum_range_add, ← h.outs warp hwarp row hrow ch hch, sum_blocks]
    split
    · rename_i hlow
      rw [foldl_add]
      refine congrArg _ (sum_congr rfl fun kb hkb => sum_congr rfl fun k hk => ?_)
      rw [mem_range] at hkb hk
      have hcol : kb * 16 + k < kTile := by unfold kTile; omega
      rw [weight_spec hv hwarp hlow hrow hcol fun level hlevel => hgram warp hwarp hlow level hlevel row hrow _ hcol,
        hv.values _ hcol ch hch, Nat.add_assoc wbase]
    · rename_i hhigh
      rw [sum_eq_zero, add_zero]
      exact fun kb _ => sum_eq_zero fun k _ => by rw [taken_eq_zero hwarp hhigh hrow, zero_mul]
  · have hrow : (lane >>> 2) + h' * 8 < kWarpRows := by
      rw [Nat.shiftRight_eq_div_pow, kWarpRows]
      omega
    have hpart : lane &&& 3 < 4 := by
      have : lane &&& 3 = lane % 4 := Nat.and_two_pow_sub_one_eq_mod lane 2
      omega
    unfold Intra.consume
    dsimp only
    rw [sum_range_succ, ← h.masses warp hwarp lane hlane h' hh']
    split
    · rename_i hlow
      rw [foldl_add]
      refine congrArg _ (sum_congr rfl fun q hq => ?_)
      rw [mem_range] at hq
      have hcol : q * 8 + (lane &&& 3) * 2 + 1 < kTile := by unfold kTile; omega
      have hgram' := fun col hcol level hlevel => hgram warp hwarp hlow level hlevel _ hrow col hcol
      rw [weight_spec hv hwarp hlow hrow (by omega) (hgram' _ (by omega)), weight_spec hv hwarp hlow hrow hcol (hgram' _ hcol)]
    · rename_i hhigh
      rw [sum_eq_zero, add_zero]
      exact fun q _ => by rw [taken_eq_zero hwarp hhigh hrow, taken_eq_zero hwarp hhigh hrow, add_zero]

theorem BlockInv.tilePair {n : ℕ} {st : BlockState K} (landings : ℕ → ℕ → Landing K) (hs : Sound arm p masks bh wbase)
    (hrt0 : rt0 + rowTilesOf arm.W ≤ tilesOf arm.W) (h : BlockInv arm p bh wbase rt0 n st.acc) :
    BlockInv arm p bh wbase rt0 (n + 1) (Intra.tilePair arm p masks bh wbase landings rt0 st n).acc := by
  obtain ⟨hvalued, hgram⟩ := @pairLoop_spec _ _ _ _ _ _ _ n _ (landings n) st.pipe hs hrt0
  exact h.consume hvalued hgram

theorem BlockInv.run (landings : ℕ → ℕ → Landing K) (hs : Sound arm p masks bh wbase)
    (hrt0 : rt0 + rowTilesOf arm.W ≤ tilesOf arm.W) (pipe : Pipe K) (n : ℕ) :
    BlockInv arm p bh wbase rt0 n ((List.range n).foldl (Intra.tilePair arm p masks bh wbase landings rt0)
      ⟨pipe, fun _ _ _ => 0, fun _ _ _ => 0⟩).acc := by
  induction n with
  | zero => exact ⟨fun _ _ _ _ _ _ => by simp, fun _ _ _ _ _ _ => by simp⟩
  | succ n ih =>
    rw [List.range_succ, List.foldl_append]
    exact ih.tilePair landings hs hrt0

/-- A row's four lanes are consecutive, and hold its columns two by two. -/
theorem lanes_of_row : ∀ r < kWarpRows, 4 * (r % 8) < 29 ∧ r / 8 < 2 ∧ ∀ c < 4,
    ((4 * (r % 8) + c) >>> 2) + r / 8 * 8 = r ∧ (4 * (r % 8) + c) &&& 3 = c := by decide

theorem lanes_folded : ∀ r < kWarpRows, 4 * (r % 8) ^^^ 1 = 4 * (r % 8) + 1 ∧ 4 * (r % 8) ^^^ 2 = 4 * (r % 8) + 2 ∧
    (4 * (r % 8) + 2) ^^^ 1 = 4 * (r % 8) + 3 := by decide

/-- The lanes' shares of eight column pairs are the tile's columns. -/
theorem sum_lanes (f : ℕ → K) :
    ∑ c ∈ range 4, ∑ q ∈ range 8, (f (q * 8 + c * 2) + f (q * 8 + c * 2 + 1)) = ∑ col ∈ range kTile, f col := by
  have hpairs : ∀ q, ∑ c ∈ range 4, (f (q * 8 + c * 2) + f (q * 8 + c * 2 + 1)) = ∑ b ∈ range 8, f (q * 8 + b) := by
    intro q
    have hblocks := sum_blocks (fun b => f (q * 8 + b)) 4 2
    rw [hblocks]
    refine sum_congr rfl fun c _ => ?_
    rw [sum_range_succ, sum_range_one, Nat.add_zero, Nat.add_assoc (q * 8)]
    rfl
  rw [sum_comm, sum_congr rfl fun q _ => hpairs q, ← sum_blocks f 8 8, kTile]

/-- The folded mass of a row is the window's tokens', before the tiles taken. -/
theorem BlockInv.foldedMass {n : ℕ} {acc : Acc K} (h : BlockInv arm p bh wbase rt0 n acc) {warp r : ℕ}
    (hwarp : warp < kWarpsPerTile * rowTilesOf arm.W) (hr : r < kWarpRows) :
    Intra.foldedMass acc warp (4 * (r % 8)) (r / 8) =
      ∑ x ∈ range (n * kTile), taken arm p bh wbase (warpToken wbase rt0 warp r) x := by
  obtain ⟨hlane, hhalf, hrow⟩ := lanes_of_row r hr
  obtain ⟨hone, htwo, hthree⟩ := lanes_folded r hr
  have hshare : ∀ c < 4, acc.dacc warp (4 * (r % 8) + c) (r / 8) = ∑ ct ∈ range n, ∑ q ∈ range 8,
      (taken arm p bh wbase (warpToken wbase rt0 warp r) (ct * kTile + (q * 8 + c * 2)) +
        taken arm p bh wbase (warpToken wbase rt0 warp r) (ct * kTile + (q * 8 + c * 2 + 1))) := by
    intro c hc
    rw [h.masses warp hwarp _ (by omega) _ hhalf, (hrow c hc).1, (hrow c hc).2]
  have hfold : Intra.foldedMass acc warp (4 * (r % 8)) (r / 8) =
      ∑ c ∈ range 4, acc.dacc warp (4 * (r % 8) + c) (r / 8) := by
    unfold Intra.foldedMass
    simp only [List.foldl_cons, List.foldl_nil, hone, htwo, hthree, sum_range_succ, sum_range_zero, Nat.add_zero]
    ring
  rw [hfold, sum_congr rfl fun c hc => hshare c (mem_range.1 hc), sum_comm, sum_blocks]
  exact sum_congr rfl fun ct _ => sum_lanes fun col => taken arm p bh wbase (warpToken wbase rt0 warp r) (ct * kTile + col)

end Rola.Intra
