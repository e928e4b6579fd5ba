import Mathlib.Tactic.IntervalCases
import Rola.IntraMasks

/-!
# What a block's threads stage

Each thread copies its share of a token's digits; together a stage's column slab is whole, and so are the
row slabs of the tiles named. Nothing else changes.
-/

namespace Rola.Intra

/-- Each step writes one value to a cell or keeps it. -/
theorem foldl_cell {σ ι α : Type*} (cell : σ → α) {step : σ → ι → σ} (hit : ι → Prop) [DecidablePred hit] {val : ι → α}
    (hstep : ∀ s i, cell (step s i) = if hit i then val i else cell s) (x : α)
    (hval : ∀ i, hit i → val i = x) (xs : List ι) (s : σ) : cell (xs.foldl step s) = if ∃ i ∈ xs, hit i then x else cell s := by
  induction xs generalizing s with
  | nil => simp
  | cons i xs ih =>
    rw [List.foldl_cons, ih, hstep]
    by_cases hi : hit i
    · simp [hi, hval i hi]
    · simp [hi]

namespace Arm

variable (arm : Arm)

theorem width_ge : 16 ≤ arm.B := by
  obtain ⟨b, hb⟩ := arm.width
  rw [hb, kSlabDigits]
  have := Nat.one_le_two_pow (n := b)
  omega

theorem levelDigits_eq : levelDigits arm.B = arm.B := by
  have := arm.width_ge
  rw [levelDigits, kSlabDigits, if_neg (by omega)]

theorem stageDigits_cases : stageDigits arm.B = 16 ∨ stageDigits arm.B = 32 ∨ stageDigits arm.B = 64 := by
  rw [stageDigits, levelDigits_eq, kStageCap]
  obtain ⟨b, hb⟩ := arm.width
  rw [kSlabDigits] at hb
  rcases Nat.lt_or_ge b 2 with h | h
  · interval_cases b <;> simp [hb]
  · have := Nat.pow_le_pow_right (n := 2) (by omega) h
    rw [if_neg (by omega)]
    simp

theorem stages_mul : stagesPerLevel arm.B * stageDigits arm.B = arm.B := by
  refine Nat.div_mul_cancel ?_ |>.trans arm.levelDigits_eq
  rw [stageDigits, levelDigits_eq, kStageCap]
  obtain ⟨b, hb⟩ := arm.width
  rw [kSlabDigits] at hb
  split
  · exact dvd_rfl
  · rw [hb]
    rcases Nat.lt_or_ge b 2 with h | h
    · interval_cases b <;> omega
    · have h64 : 64 = 2 ^ 2 * 16 := rfl
      rw [h64]
      exact Nat.mul_dvd_mul_right (pow_dvd_pow 2 h) 16

theorem slabs_mul : slabsPerStage arm.B * kSlabDigits = stageDigits arm.B := by
  rw [slabsPerStage, kSlabDigits]
  rcases arm.stageDigits_cases with h | h | h <;> rw [h]

theorem stages_pos : 0 < stagesPerLevel arm.B := by
  refine Nat.pos_of_ne_zero fun h => ?_
  have hmul := arm.stages_mul
  have hge := arm.width_ge
  rw [h, Nat.zero_mul] at hmul
  omega

theorem stageDigits_le : stageDigits arm.B ≤ arm.B := by
  have h := Nat.le_mul_of_pos_left (stageDigits arm.B) arm.stages_pos
  rwa [arm.stages_mul] at h

theorem rowTiles_cases (W : ℕ) : rowTilesOf W = 1 ∨ rowTilesOf W = 2 := by
  rw [rowTilesOf]
  split <;> simp

theorem threadsOf_eq (W : ℕ) : threadsOf W = 128 * rowTilesOf W := by
  rw [threadsOf, rowsOf, kTile, kWarpRows]
  omega

/-- A thread's share of a token's digits, and of its channels, is whole granules. -/
theorem share : threadsOf arm.W / kTile = 2 * rowTilesOf arm.W ∧
    (threadsOf arm.W / kTile) * (stageDigits arm.B / (threadsOf arm.W / kTile)) = stageDigits arm.B ∧
    stageDigits arm.B / (threadsOf arm.W / kTile) / 8 * 8 = stageDigits arm.B / (threadsOf arm.W / kTile) := by
  have hcol := arm.colDigits
  rw [threadsOf_eq, kTile] at hcol ⊢
  rcases rowTiles_cases arm.W with hr | hr <;> rcases arm.stageDigits_cases with h | h | h <;>
    rw [hr, h] at hcol ⊢ <;> revert hcol <;> decide

end Arm

section Stage

variable {K : Type*} {arm : Arm} {p : IntraParams K} {bh wbase rt0 ct l stage buf : ℕ} {rows : BitVec 32}

theorem and_tile (n : ℕ) : n &&& (kTile - 1) = n % 64 := Nat.and_two_pow_sub_one_eq_mod n 6

theorem stageSlabs_vslab (sm : Smem K) :
    (stageSlabs arm p bh wbase rt0 ct l stage buf rows sm).vslab = sm.vslab := by
  unfold stageSlabs
  induction List.range (threadsOf arm.W) generalizing sm with
  | nil => rfl
  | cons tid tids ih => exact ih _

theorem stageSlabs_gain (sm : Smem K) :
    (stageSlabs arm p bh wbase rt0 ct l stage buf rows sm).gain = sm.gain := by
  unfold stageSlabs
  induction List.range (threadsOf arm.W) generalizing sm with
  | nil => rfl
  | cons tid tids ih => exact ih _

/-- Threads take consecutive tokens, `C` a token, and each `Q` consecutive places of it. -/
theorem exists_share {C Q : ℕ} (n row k : ℕ) (hC : 0 < C) (hQ : 0 < Q) :
    (∃ tid < n * C, row = tid / C ∧ tid % C * Q ≤ k ∧ k < tid % C * Q + Q) ↔ row < n ∧ k < C * Q := by
  constructor
  · rintro ⟨tid, htid, rfl, -, hk⟩
    refine ⟨(Nat.div_lt_iff_lt_mul hC).2 htid, hk.trans_le ?_⟩
    rw [← Nat.succ_mul]
    exact Nat.mul_le_mul_right Q (Nat.mod_lt tid hC)
  · rintro ⟨hrow, hk⟩
    have hpart : k / Q < C := (Nat.div_lt_iff_lt_mul hQ).2 hk
    have hdiv : (row * C + k / Q) / C = row := by
      rw [Nat.add_comm, Nat.add_mul_div_right _ _ hC, Nat.div_eq_of_lt hpart, Nat.zero_add]
    have hmod : (row * C + k / Q) % C = k / Q := by rw [Nat.mul_add_mod', Nat.mod_eq_of_lt hpart]
    refine ⟨row * C + k / Q, ?_, hdiv.symm, ?_, ?_⟩
    · calc row * C + k / Q < (row + 1) * C := by rw [Nat.succ_mul]; omega
        _ ≤ n * C := Nat.mul_le_mul_right C hrow
    · rw [hmod]
      exact Nat.div_mul_le_self k Q
    · rw [hmod, Nat.mul_comm]
      exact Nat.lt_mul_div_succ k hQ |>.trans_eq (Nat.mul_succ Q (k / Q))

theorem stageSlabs_wslab (sm : Smem K) (b row k : ℕ) :
    (stageSlabs arm p bh wbase rt0 ct l stage buf rows sm).wslab b row k =
      if b = buf ∧ row < kTile ∧ k < stageDigits arm.B then
        amplitude arm p 1 bh (wbase + ct * kTile + row) l (stage * stageDigits arm.B + k)
      else sm.wslab b row k := by
  obtain ⟨hcol, hshare, hoct⟩ := arm.share
  have hB := arm.stageDigits_le
  have hC : 0 < threadsOf arm.W / kTile := by
    rcases Arm.rowTiles_cases arm.W with h | h <;> rw [hcol, h] <;> decide
  have hQ : 0 < stageDigits arm.B / (threadsOf arm.W / kTile) := lt_of_lt_of_le (by decide) arm.colDigits
  have hthreads : kTile * (threadsOf arm.W / kTile) = threadsOf arm.W := by
    rw [hcol, Arm.threadsOf_eq, kTile]
    omega
  refine (foldl_cell (fun sm : Smem K => sm.wslab b row k) _ (fun sm tid => rfl)
    (amplitude arm p 1 bh (wbase + ct * kTile + row) l (stage * stageDigits arm.B + k)) ?_ _ sm).trans ?_
  · rintro tid ⟨-, -, rfl, -, -⟩
    refine congrArg p.pwrite ?_
    ring
  · refine if_congr ?_ rfl rfl
    have hcover := exists_share kTile row k hC hQ
    rw [hshare, hthreads] at hcover
    rw [hoct, ← hcover]
    constructor
    · rintro ⟨tid, htid, -, hb, hrow, hlo, hhi⟩
      exact ⟨hb, tid, List.mem_range.1 htid, hrow, hlo, hhi⟩
    · rintro ⟨hb, tid, htid, hrow, hlo, hhi⟩
      have hk := (hcover.1 ⟨tid, htid, hrow, hlo, hhi⟩).2
      exact ⟨tid, List.mem_range.2 htid, by omega, hb, hrow, hlo, hhi⟩

theorem stageSlabs_rslab (sm : Smem K) (b row k : ℕ) :
    (stageSlabs arm p bh wbase rt0 ct l stage buf rows sm).rslab b row k =
      if b = buf ∧ (row < rowsOf arm.W ∧ k < stageDigits arm.B) ∧ rows.getLsbD (row / kTile) = true then
        amplitude arm p 0 bh (wbase + rt0 * kTile + row) l (stage * stageDigits arm.B + k)
      else sm.rslab b row k := by
  have hB := arm.stageDigits_le
  have heven : 2 * (stageDigits arm.B / 2) = stageDigits arm.B ∧
      stageDigits arm.B / 16 * 8 = stageDigits arm.B / 2 ∧ 0 < stageDigits arm.B / 2 := by
    rcases arm.stageDigits_cases with h | h | h <;> rw [h] <;> decide
  obtain ⟨htwo, hhex, hQ⟩ := heven
  have hthreads : rowsOf arm.W * 2 = threadsOf arm.W := by
    rw [Arm.threadsOf_eq, rowsOf, kTile]
    omega
  -- a thread's tile and token are its row
  have hrowOf : ∀ tid, tid / (2 * kTile) * kTile + (tid >>> 1 &&& (kTile - 1)) = tid / 2 := by
    intro tid
    rw [and_tile, Nat.shiftRight_eq_div_pow, kTile]
    omega
  have hbit : ∀ tid : ℕ, tid &&& 1 = tid % 2 := fun tid => Nat.and_two_pow_sub_one_eq_mod tid 1
  refine (foldl_cell (fun sm : Smem K => sm.rslab b row k) _ (fun sm tid => rfl)
    (amplitude arm p 0 bh (wbase + rt0 * kTile + row) l (stage * stageDigits arm.B + k)) ?_ _ sm).trans ?_
  · rintro tid ⟨-, -, rfl, -, -⟩
    refine congrArg p.pread ?_
    ring
  · refine if_congr ?_ rfl rfl
    have hcover := exists_share (rowsOf arm.W) row k two_pos hQ
    rw [htwo, hthreads] at hcover
    simp only [hrowOf, hhex, hbit]
    constructor
    · rintro ⟨tid, htid, ⟨hlive, -⟩, hb, hrow, hlo, hhi⟩
      refine ⟨hb, hcover.1 ⟨tid, List.mem_range.1 htid, hrow, hlo, hhi⟩, ?_⟩
      rwa [hrow, Nat.div_div_eq_div_mul]
    · rintro ⟨hb, hin, hlive⟩
      obtain ⟨tid, htid, hrow, hlo, hhi⟩ := hcover.2 hin
      refine ⟨tid, List.mem_range.2 htid, ⟨?_, by omega⟩, hb, hrow, hlo, hhi⟩
      rwa [hrow, Nat.div_div_eq_div_mul] at hlive

theorem stageValues_rslab (sm : Smem K) : (stageValues arm p bh wbase ct sm).rslab = sm.rslab := by
  unfold stageValues
  induction List.range (threadsOf arm.W) generalizing sm with
  | nil => rfl
  | cons tid tids ih => exact ih _

theorem stageValues_wslab (sm : Smem K) : (stageValues arm p bh wbase ct sm).wslab = sm.wslab := by
  unfold stageValues
  induction List.range (threadsOf arm.W) generalizing sm with
  | nil => rfl
  | cons tid tids ih => exact ih _

theorem stageValues_gain (sm : Smem K) {row : ℕ} (hrow : row < kTile) :
    (stageValues arm p bh wbase ct sm).gain row = gainAt p bh (wbase + ct * kTile + row) := by
  refine (foldl_cell (fun sm : Smem K => sm.gain row) _ (fun sm tid => rfl)
    (gainAt p bh (wbase + ct * kTile + row)) ?_ _ sm).trans ?_
  · rintro tid -
    refine congrArg p.gwrite ?_
    ring
  refine if_pos ⟨row / 8, List.mem_range.2 ?_, ?_⟩
  · have := Arm.rowTiles_cases arm.W
    rw [Arm.threadsOf_eq]
    unfold kTile at hrow
    omega
  · unfold kTile at hrow ⊢
    omega

theorem stageValues_vslab (sm : Smem K) {row k : ℕ} (hrow : row < kTile) (hk : k < kValueWidth) :
    (stageValues arm p bh wbase ct sm).vslab row k =
      valueAt p bh (wbase + ct * kTile + row) k := by
  obtain ⟨hcol, -, -⟩ := arm.share
  refine (foldl_cell (fun sm : Smem K => sm.vslab row k) _ (fun sm tid => rfl)
    (valueAt p bh (wbase + ct * kTile + row) k) ?_ _ sm).trans ?_
  · rintro tid ⟨rfl, -, -⟩
    refine congrArg p.v ?_
    ring
  · refine if_pos ?_
    have hC : 0 < threadsOf arm.W / kTile ∧ 0 < kValueWidth / (threadsOf arm.W / kTile) ∧
        threadsOf arm.W / kTile * (kValueWidth / (threadsOf arm.W / kTile)) = kValueWidth ∧
        kValueWidth / (threadsOf arm.W / kTile) / 8 * 8 = kValueWidth / (threadsOf arm.W / kTile) ∧
        kTile * (threadsOf arm.W / kTile) = threadsOf arm.W := by
      rw [Arm.threadsOf_eq]
      rcases Arm.rowTiles_cases arm.W with h | h <;> rw [h] <;> decide
    obtain ⟨hC, hQ, hshare, hoct, hthreads⟩ := hC
    have hcover := exists_share kTile row k hC hQ
    rw [hshare, hthreads] at hcover
    obtain ⟨tid, htid, hin⟩ := hcover.2 ⟨hrow, hk⟩
    refine ⟨tid, List.mem_range.2 htid, ?_⟩
    rwa [hoct]

end Stage

end Rola.Intra
