import Rola.IntraStage
import Rola.RangeSums

/-!
# The loops over a tile pair

A stage's products are accumulated while the next stage's slabs are in flight to the other buffer. The
invariant is about what will have landed (`Pipe.full`): a live stage's slabs, and the column tile's values
and gains. What a read finds in this stage's buffer is the same either side of the copies in flight.
-/

namespace Rola.Intra
open Finset

namespace Pipe

variable {K : Type*}

/-- The operand memory once everything in flight has landed. -/
def full (pipe : Pipe K) : Smem K := pipe.flight.foldl (fun sm group => group sm) pipe.landed

theorem commit_full (pipe : Pipe K) (group : Smem K → Smem K) : (pipe.commit group).full = group pipe.full := by
  simp [commit, full]

theorem commit_wait (pipe : Pipe K) (group : Smem K → Smem K) : (pipe.commit group).wait 1 = ⟨pipe.full, [group]⟩ := by
  simp [commit, wait, full]

end Pipe

/-- A slab the masks drop holds no product of two tokens of the window. -/
def Sound {K : Type*} [CommRing K] (arm : Arm) (p : IntraParams K) (masks : ℕ → ℕ → ℕ → ℕ → BitVec 32) (bh wbase : ℕ) : Prop :=
  ∀ l < arm.D, ∀ rt < tilesOf arm.W, ∀ ct < tilesOf arm.W, ∀ slab, slabLive p masks rt ct l slab = false →
    ∀ off < kTile, ∀ off' < kTile, ∀ k < kSlabDigits, slab * kSlabDigits + k < arm.B →
      amplitude arm p 0 bh (wbase + rt * kTile + off) l (slab * kSlabDigits + k) *
        amplitude arm p 1 bh (wbase + ct * kTile + off') l (slab * kSlabDigits + k) = 0

section Pair

variable {K : Type*} [CommRing K] (arm : Arm) (p : IntraParams K) (masks : ℕ → ℕ → ℕ → ℕ → BitVec 32) (bh wbase rt0 ct : ℕ)

/-- A stage's slabs in a buffer: the column tile's, and those of the live row tiles. -/
structure Staged (l stage buf : ℕ) (rows : BitVec 32) (sm : Smem K) : Prop where
  cols : ∀ col < kTile, ∀ k < stageDigits arm.B,
    sm.wslab buf col k = amplitude arm p 1 bh (wbase + ct * kTile + col) l (stage * stageDigits arm.B + k)
  live : ∀ row < rowsOf arm.W, ∀ k < stageDigits arm.B, rows.getLsbD (row / kTile) = true →
    sm.rslab buf row k = amplitude arm p 0 bh (wbase + rt0 * kTile + row) l (stage * stageDigits arm.B + k)

/-- The column tile's values and gains. -/
structure Valued (sm : Smem K) : Prop where
  values : ∀ col < kTile, ∀ ch < kValueWidth, sm.vslab col ch = valueAt p bh (wbase + ct * kTile + col) ch
  gains : ∀ col < kTile, sm.gain col = gainAt p bh (wbase + ct * kTile + col)

def rowsAt (i : ℕ) : BitVec 32 :=
  if i < arm.D * stagesPerLevel arm.B then liveRows arm p masks rt0 ct (i / stagesPerLevel arm.B) (i % stagesPerLevel arm.B)
  else 0

/-- The copies of step `i`'s stage. -/
def groupAt (i : ℕ) (sm : Smem K) : Smem K :=
  if rowsAt arm p masks rt0 ct i ≠ 0 then
    stageSlabs arm p bh wbase rt0 ct (i / stagesPerLevel arm.B) (i % stagesPerLevel arm.B) (i &&& 1)
      (rowsAt arm p masks rt0 ct i) sm
  else sm

/-- The products of two tokens at a stage's digits. -/
def stageInner (t s l stage : ℕ) : K :=
  ∑ k ∈ range (stageDigits arm.B), amplitude arm p 0 bh t l (stage * stageDigits arm.B + k) *
    amplitude arm p 1 bh s l (stage * stageDigits arm.B + k)

/-- The token of a warp's row. -/
def warpToken (warp row : ℕ) : ℕ := wbase + rt0 * kTile + (warp * kWarpRows + row)

/-- What holds before step `i` of a tile pair. -/
structure PairInv (i : ℕ) (st : PairState K) : Prop where
  rows : st.rows = rowsAt arm p masks rt0 ct i
  valued : Valued p bh wbase ct st.pipe.full
  landed : 0 < i → Valued p bh wbase ct st.pipe.landed
  staged : st.rows ≠ 0 → Staged arm p bh wbase rt0 ct (i / stagesPerLevel arm.B) (i % stagesPerLevel arm.B) (i &&& 1)
    st.rows st.pipe.full
  gram : ∀ warp < kWarpsPerTile * rowTilesOf arm.W, ct ≤ rt0 + mine arm warp → ∀ level row, row < kWarpRows →
    ∀ col < kTile, st.gram warp level row col = ∑ j ∈ range i, if j / stagesPerLevel arm.B = level then
      stageInner arm p bh (warpToken wbase rt0 warp row) (wbase + ct * kTile + col) level (j % stagesPerLevel arm.B) else 0

end Pair

section Steps

variable {K : Type*} {arm : Arm} {p : IntraParams K} {masks : ℕ → ℕ → ℕ → ℕ → BitVec 32} {bh wbase rt0 ct : ℕ}

theorem sound_buildMasks [CommRing K] {BH : ℕ} (found : ℕ → ℕ → ℕ → ℕ → BitVec 32) (hsup : Supported arm p BH) (hbh : bh < BH)
    (hbase : wbase % kTile = 0) (hin : wbase + arm.W ≤ p.L) : Sound arm p (buildMasks arm p bh wbase found) bh wbase := by
  intro l hl rt hrt ct hct slab hdead off hoff off' hoff' k hk hd
  have hW := arm.tiles
  unfold kTile at hW
  refine mul_eq_zero_of_dead hsup hbh hl hbase hoff ?_ hoff' ?_ hk hd hdead
  · unfold kTile at hoff ⊢
    omega
  · unfold kTile at hoff' ⊢
    omega

theorem groupAt_vslab (i : ℕ) (sm : Smem K) : (groupAt arm p masks bh wbase rt0 ct i sm).vslab = sm.vslab := by
  unfold groupAt
  split
  · exact stageSlabs_vslab sm
  · rfl

theorem groupAt_gain (i : ℕ) (sm : Smem K) : (groupAt arm p masks bh wbase rt0 ct i sm).gain = sm.gain := by
  unfold groupAt
  split
  · exact stageSlabs_gain sm
  · rfl

theorem groupAt_wslab {i b : ℕ} (hb : b ≠ i &&& 1) (sm : Smem K) (row k : ℕ) :
    (groupAt arm p masks bh wbase rt0 ct i sm).wslab b row k = sm.wslab b row k := by
  unfold groupAt
  split
  · rw [stageSlabs_wslab, if_neg fun h => hb h.1]
  · rfl

theorem groupAt_rslab {i b : ℕ} (hb : b ≠ i &&& 1) (sm : Smem K) (row k : ℕ) :
    (groupAt arm p masks bh wbase rt0 ct i sm).rslab b row k = sm.rslab b row k := by
  unfold groupAt
  split
  · rw [stageSlabs_rslab, if_neg fun h => hb h.1]
  · rfl

theorem Valued.of_eq {sm sm' : Smem K} (h : Valued p bh wbase ct sm) (hv : sm'.vslab = sm.vslab) (hg : sm'.gain = sm.gain) :
    Valued p bh wbase ct sm' := by
  refine ⟨?_, ?_⟩
  · rw [hv]
    exact h.values
  · rw [hg]
    exact h.gains

theorem valued_stageValues (sm : Smem K) : Valued p bh wbase ct (stageValues arm p bh wbase ct sm) :=
  ⟨fun _ hcol _ hch => stageValues_vslab sm hcol hch, fun _ hcol => stageValues_gain sm hcol⟩

theorem staged_groupAt {i : ℕ} (hrows : rowsAt arm p masks rt0 ct i ≠ 0) (sm : Smem K) :
    Staged arm p bh wbase rt0 ct (i / stagesPerLevel arm.B) (i % stagesPerLevel arm.B) (i &&& 1)
      (rowsAt arm p masks rt0 ct i) (groupAt arm p masks bh wbase rt0 ct i sm) := by
  unfold groupAt
  rw [if_pos hrows]
  refine ⟨fun col hcol k hk => ?_, fun row hrow k hk hlive => ?_⟩
  · rw [stageSlabs_wslab, if_pos ⟨rfl, hcol, hk⟩]
  · rw [stageSlabs_rslab, if_pos ⟨rfl, ⟨hrow, hk⟩, hlive⟩]

/-- The other buffer's copies in flight are not seen in this one. -/
theorem Staged.seen {l stage i : ℕ} {rows : BitVec 32} {sm : Smem K} (landing : Landing K)
    (h : Staged arm p bh wbase rt0 ct l stage (i &&& 1) rows sm) :
    Staged arm p bh wbase rt0 ct l stage (i &&& 1) rows (landing.see sm (groupAt arm p masks bh wbase rt0 ct (i + 1) sm)) := by
  have hbuf : i &&& 1 ≠ (i + 1) &&& 1 := by
    rw [Nat.and_one_is_mod, Nat.and_one_is_mod]
    omega
  refine ⟨fun col hcol k hk => ?_, fun row hrow k hk hlive => ?_⟩
  · have hsee := landing.wslab sm (groupAt arm p masks bh wbase rt0 ct (i + 1) sm) (i &&& 1) col k
    rw [groupAt_wslab hbuf, or_self] at hsee
    rw [hsee, h.cols col hcol k hk]
  · have hsee := landing.rslab sm (groupAt arm p masks bh wbase rt0 ct (i + 1) sm) (i &&& 1) row k
    rw [groupAt_rslab hbuf, or_self] at hsee
    rw [hsee, h.live row hrow k hk hlive]

theorem Valued.seen {a b : Smem K} (landing : Landing K) (ha : Valued p bh wbase ct a) (hb : Valued p bh wbase ct b) :
    Valued p bh wbase ct (landing.see a b) := by
  refine ⟨fun col hcol ch hch => ?_, fun col hcol => ?_⟩
  · rcases landing.vslab a b col ch with h | h
    · rw [h, ha.values col hcol ch hch]
    · rw [h, hb.values col hcol ch hch]
  · rcases landing.gain a b col with h | h
    · rw [h, ha.gains col hcol]
    · rw [h, hb.gains col hcol]

theorem mine_eq {warp : ℕ} (hwarp : warp < kWarpsPerTile * rowTilesOf arm.W) : mine arm warp = warp / 4 := by
  have hper : kWarpsPerTile = 4 := by decide
  rw [hper] at hwarp
  rw [mine, hper]
  rcases Arm.rowTiles_cases arm.W with h | h <;> rw [h] at hwarp ⊢
  · rw [Nat.sub_self, Nat.and_zero]
    omega
  · have hmod : warp / 4 &&& (2 - 1) = warp / 4 % 2 := Nat.and_two_pow_sub_one_eq_mod _ 1
    rw [hmod]
    omega

theorem mine_lt {warp : ℕ} (hwarp : warp < kWarpsPerTile * rowTilesOf arm.W) : mine arm warp < rowTilesOf arm.W := by
  have hper : kWarpsPerTile = 4 := by decide
  rw [mine_eq hwarp]
  rw [hper] at hwarp
  omega

/-- A warp's rows are in its row tile. -/
theorem warpToken_eq {warp : ℕ} (hwarp : warp < kWarpsPerTile * rowTilesOf arm.W) (row : ℕ) :
    warpToken wbase rt0 warp row = wbase + (rt0 + mine arm warp) * kTile + (warp % 4 * kWarpRows + row) := by
  rw [warpToken, mine_eq hwarp, kTile, kWarpRows]
  omega

theorem rowsAt_of_lt {i : ℕ} (hi : i < arm.D * stagesPerLevel arm.B) : rowsAt arm p masks rt0 ct i =
    liveRows arm p masks rt0 ct (i / stagesPerLevel arm.B) (i % stagesPerLevel arm.B) := if_pos hi

variable [CommRing K]

/-- The slabs a stage keeps hold all of its products. -/
theorem accumulate_kept {l stage rt : ℕ} {off off' : ℕ} (hs : Sound arm p masks bh wbase) (hl : l < arm.D)
    (hstage : stage < stagesPerLevel arm.B) (hrt : rt < tilesOf arm.W) (hct : ct < tilesOf arm.W) (hoff : off < kTile)
    (hoff' : off' < kTile) (g : K) {a b : ℕ → K}
    (ha : ∀ k < stageDigits arm.B, a k = amplitude arm p 0 bh (wbase + rt * kTile + off) l (stage * stageDigits arm.B + k))
    (hb : ∀ k < stageDigits arm.B, b k = amplitude arm p 1 bh (wbase + ct * kTile + off') l (stage * stageDigits arm.B + k)) :
    (List.range (slabsPerStage arm.B)).foldl (fun acc sub =>
      if slabLive p masks rt ct l (stage * slabsPerStage arm.B + sub) then
        acc + ∑ k ∈ range kSlabDigits, a (sub * kSlabDigits + k) * b (sub * kSlabDigits + k)
      else acc) g = g + stageInner arm p bh (wbase + rt * kTile + off) (wbase + ct * kTile + off') l stage := by
  have hkeep : ∀ acc : K, ∀ sub ∈ List.range (slabsPerStage arm.B),
      (if slabLive p masks rt ct l (stage * slabsPerStage arm.B + sub) then
        acc + ∑ k ∈ range kSlabDigits, a (sub * kSlabDigits + k) * b (sub * kSlabDigits + k)
      else acc) = acc + ∑ k ∈ range kSlabDigits,
        amplitude arm p 0 bh (wbase + rt * kTile + off) l (stage * stageDigits arm.B + (sub * kSlabDigits + k)) *
          amplitude arm p 1 bh (wbase + ct * kTile + off') l (stage * stageDigits arm.B + (sub * kSlabDigits + k)) := by
    intro acc sub hsub
    rw [List.mem_range] at hsub
    have hin : ∀ k < kSlabDigits, sub * kSlabDigits + k < stageDigits arm.B := by
      intro k hk
      rw [← arm.slabs_mul]
      calc sub * kSlabDigits + k < (sub + 1) * kSlabDigits := by rw [Nat.succ_mul]; omega
        _ ≤ slabsPerStage arm.B * kSlabDigits := Nat.mul_le_mul_right _ hsub
    split
    · rw [sum_congr rfl]
      intro k hk
      rw [ha _ (hin k (mem_range.1 hk)), hb _ (hin k (mem_range.1 hk))]
    · rename_i hdead
      rw [sum_eq_zero, add_zero]
      intro k hk
      have hd : stage * stageDigits arm.B + (sub * kSlabDigits + k) =
          (stage * slabsPerStage arm.B + sub) * kSlabDigits + k := by
        rw [← arm.slabs_mul]
        ring
      have hlt : stage * stageDigits arm.B + (sub * kSlabDigits + k) < arm.B := by
        have hk := hin k (mem_range.1 hk)
        calc stage * stageDigits arm.B + (sub * kSlabDigits + k) < (stage + 1) * stageDigits arm.B := by
              rw [Nat.succ_mul]; omega
          _ ≤ stagesPerLevel arm.B * stageDigits arm.B := Nat.mul_le_mul_right _ hstage
          _ = arm.B := arm.stages_mul
      rw [hd] at hlt ⊢
      exact hs l hl rt hrt ct hct _ (by simpa using hdead) off hoff off' hoff' k (mem_range.1 hk) hlt
  have hsum := sum_blocks (fun d => amplitude arm p 0 bh (wbase + rt * kTile + off) l (stage * stageDigits arm.B + d) *
    amplitude arm p 1 bh (wbase + ct * kTile + off') l (stage * stageDigits arm.B + d)) (slabsPerStage arm.B) kSlabDigits
  rw [arm.slabs_mul] at hsum
  rw [List.foldl_ext _ _ _ hkeep, foldl_add, stageInner, hsum]

/-- A stage no slab of which is kept has no products. -/
theorem stageInner_eq_zero {l stage rt : ℕ} {off off' : ℕ} (hs : Sound arm p masks bh wbase) (hl : l < arm.D)
    (hstage : stage < stagesPerLevel arm.B) (hrt : rt < tilesOf arm.W) (hct : ct < tilesOf arm.W) (hoff : off < kTile)
    (hoff' : off' < kTile) (hdead : stageLive arm p masks rt ct l stage = false) :
    stageInner arm p bh (wbase + rt * kTile + off) (wbase + ct * kTile + off') l stage = 0 := by
  have hkept := accumulate_kept hs hl hstage hrt hct hoff hoff' 0 (fun _ _ => rfl) (fun _ _ => rfl)
  rw [zero_add] at hkept
  rw [← hkept]
  have hnone : ∀ sub ∈ List.range (slabsPerStage arm.B), slabLive p masks rt ct l (stage * slabsPerStage arm.B + sub) = false := by
    simpa [stageLive] using hdead
  generalize List.range (slabsPerStage arm.B) = subs at hnone ⊢
  clear hkept hdead
  induction subs with
  | nil => rfl
  | cons sub subs ih =>
    rw [List.foldl_cons, if_neg (by simp [hnone sub (by simp)])]
    exact ih fun sub' hsub' => hnone sub' (List.mem_cons_of_mem _ hsub')

/-- A stage's accumulation adds its products to its level's entries. -/
theorem accumulate_spec {l stage buf : ℕ} {sm : Smem K} {gram : Gram K} {warp row col : ℕ} (hs : Sound arm p masks bh wbase)
    (hl : l < arm.D) (hstage : stage < stagesPerLevel arm.B) (hrt0 : rt0 + rowTilesOf arm.W ≤ tilesOf arm.W)
    (hstaged : liveRows arm p masks rt0 ct l stage ≠ 0 →
      Staged arm p bh wbase rt0 ct l stage buf (liveRows arm p masks rt0 ct l stage) sm)
    (hwarp : warp < kWarpsPerTile * rowTilesOf arm.W) (hlow : ct ≤ rt0 + mine arm warp) (level : ℕ) (hrow : row < kWarpRows)
    (hcol : col < kTile) :
    accumulate arm p masks rt0 ct l stage buf (liveRows arm p masks rt0 ct l stage) sm gram warp level row col =
      gram warp level row col + if l = level then
        stageInner arm p bh (warpToken wbase rt0 warp row) (wbase + ct * kTile + col) level stage else 0 := by
  have hmine := mine_lt hwarp
  have hrt : rt0 + mine arm warp < tilesOf arm.W := by omega
  have hoff : warp % 4 * kWarpRows + row < kTile := by
    unfold kWarpRows kTile at *
    omega
  have hbit : (liveRows arm p masks rt0 ct l stage).getLsbD (mine arm warp) =
      stageLive arm p masks (rt0 + mine arm warp) ct l stage := by
    have htiles := Arm.rowTiles_cases arm.W
    rw [getLsbD_liveRows (by omega), decide_eq_true hmine, decide_eq_true hlow, Bool.true_and, Bool.true_and]
  unfold accumulate
  by_cases hlevel : level = l
  · subst hlevel
    rw [if_pos rfl]
    cases hlive : stageLive arm p masks (rt0 + mine arm warp) ct level stage with
    | false =>
      rw [if_neg (by rw [hbit, hlive]; simp), warpToken_eq hwarp,
        stageInner_eq_zero hs hl hstage hrt (lt_of_le_of_lt hlow hrt) hoff hcol hlive, add_zero]
    | true =>
      rw [if_pos ⟨rfl, by rw [hbit, hlive]⟩, warpToken_eq hwarp]
      have hst := hstaged (ne_zero_of_getLsbD (hbit.trans hlive))
      have hrowlt : warp * kWarpRows + row < rowsOf arm.W := by
        have hper : kWarpsPerTile = 4 := by decide
        rw [hper] at hwarp
        unfold kWarpRows at hrow ⊢
        rw [rowsOf, kTile]
        omega
      have hdiv : (warp * kWarpRows + row) / kTile = mine arm warp := by
        rw [mine_eq hwarp]
        unfold kWarpRows at hrow ⊢
        rw [kTile]
        omega
      refine accumulate_kept hs hl hstage hrt (lt_of_le_of_lt hlow hrt) hoff hcol _ (a := sm.rslab buf (warp * kWarpRows + row))
        (b := sm.wslab buf col) (fun k hk => ?_) (hst.cols col hcol)
      rw [hst.live _ hrowlt k hk (by rw [hdiv]; exact hbit.trans hlive), ← warpToken_eq hwarp, warpToken]
  · rw [if_neg fun h => hlevel h.1, if_neg (Ne.symm hlevel), add_zero]

/-- The next stage is the next step's. -/
theorem next_stage {kStages i : ℕ} (hpos : 0 < kStages) :
    (if i % kStages + 1 = kStages then i / kStages + 1 else i / kStages) = (i + 1) / kStages ∧
      (if i % kStages + 1 = kStages then 0 else i % kStages + 1) = (i + 1) % kStages := by
  have hdecomp := Nat.div_add_mod i kStages
  have hlt := Nat.mod_lt i hpos
  split
  · rename_i hlast
    have hi : i + 1 = kStages * (i / kStages + 1) := by rw [Nat.mul_succ]; omega
    rw [hi, Nat.mul_div_cancel_left _ hpos, Nat.mul_mod_right]
    exact ⟨rfl, rfl⟩
  · have hi : i + 1 = i % kStages + 1 + kStages * (i / kStages) := by omega
    have hin : i % kStages + 1 < kStages := by omega
    rw [hi, Nat.add_mul_div_left _ _ hpos, Nat.add_mul_mod_self_left, Nat.div_eq_of_lt hin, Nat.mod_eq_of_lt hin, Nat.zero_add]
    exact ⟨rfl, rfl⟩

theorem pairStep_eq (landing : ℕ → Landing K) (st : PairState K) (i : ℕ) :
    pairStep arm p masks bh wbase landing rt0 ct st i =
      ⟨⟨st.pipe.full, [groupAt arm p masks bh wbase rt0 ct (i + 1)]⟩, rowsAt arm p masks rt0 ct (i + 1),
        accumulate arm p masks rt0 ct (i / stagesPerLevel arm.B) (i % stagesPerLevel arm.B) (i &&& 1) st.rows
          ((landing i).see st.pipe.full (groupAt arm p masks bh wbase rt0 ct (i + 1) st.pipe.full)) st.gram⟩ := by
  have hpos := arm.stages_pos
  obtain ⟨hnl, hns⟩ := next_stage (i := i) hpos
  have hmore : (i + 1) / stagesPerLevel arm.B < arm.D ↔ i + 1 < arm.D * stagesPerLevel arm.B := Nat.div_lt_iff_lt_mul hpos
  have hrows : (if (i + 1) / stagesPerLevel arm.B < arm.D then
      liveRows arm p masks rt0 ct ((i + 1) / stagesPerLevel arm.B) ((i + 1) % stagesPerLevel arm.B) else 0) =
      rowsAt arm p masks rt0 ct (i + 1) := if_congr hmore rfl rfl
  have hgroup : (if (i + 1) / stagesPerLevel arm.B < arm.D ∧ rowsAt arm p masks rt0 ct (i + 1) ≠ 0 then
      stageSlabs arm p bh wbase rt0 ct ((i + 1) / stagesPerLevel arm.B) ((i + 1) % stagesPerLevel arm.B) ((i + 1) &&& 1)
        (rowsAt arm p masks rt0 ct (i + 1)) else id) = groupAt arm p masks bh wbase rt0 ct (i + 1) := by
    funext sm
    unfold groupAt
    by_cases hne : rowsAt arm p masks rt0 ct (i + 1) = 0
    · rw [if_neg fun h => h.2 hne, if_neg fun h => h hne]
      rfl
    · have hlt : (i + 1) / stagesPerLevel arm.B < arm.D := by
        rw [hmore]
        by_contra hge
        exact hne (if_neg hge)
      rw [if_pos ⟨hlt, hne⟩, if_pos hne]
  unfold pairStep
  simp only [hnl, hns, hrows, hgroup, Pipe.commit_wait]
  rfl

theorem PairInv.step {i : ℕ} {st : PairState K} (landing : ℕ → Landing K) (hs : Sound arm p masks bh wbase)
    (hrt0 : rt0 + rowTilesOf arm.W ≤ tilesOf arm.W) (hi : i < arm.D * stagesPerLevel arm.B)
    (h : PairInv arm p masks bh wbase rt0 ct i st) :
    PairInv arm p masks bh wbase rt0 ct (i + 1) (pairStep arm p masks bh wbase landing rt0 ct st i) := by
  rw [pairStep_eq]
  refine ⟨rfl, ?_, fun _ => h.valued, fun hrows => ?_, ?_⟩
  · exact h.valued.of_eq (groupAt_vslab _ _) (groupAt_gain _ _)
  · exact staged_groupAt hrows _
  · intro warp hwarp hlow level row hrow col hcol
    have hrows := h.rows
    rw [rowsAt_of_lt hi] at hrows
    dsimp only
    rw [hrows, accumulate_spec hs ((Nat.div_lt_iff_lt_mul arm.stages_pos).2 hi) (Nat.mod_lt i arm.stages_pos) hrt0 ?_ hwarp hlow
      level hrow hcol, h.gram warp hwarp hlow level row hrow col hcol, sum_range_succ]
    intro hne
    rw [← hrows] at hne ⊢
    exact (h.staged hne).seen (landing i)

theorem PairInv.init (landing : ℕ → Landing K) (pipe : Pipe K) : ∃ st, PairInv arm p masks bh wbase rt0 ct 0 st ∧
    pairLoop arm p masks bh wbase landing rt0 ct pipe =
      (List.range (arm.D * stagesPerLevel arm.B)).foldl (pairStep arm p masks bh wbase landing rt0 ct) st := by
  refine ⟨_, ?_, rfl⟩
  have hpos : 0 < arm.D * stagesPerLevel arm.B := Nat.mul_pos arm.levels_pos arm.stages_pos
  have hrows : rowsAt arm p masks rt0 ct 0 = liveRows arm p masks rt0 ct 0 0 := by
    rw [rowsAt_of_lt hpos, Nat.zero_div, Nat.zero_mod]
  have hgroup : ∀ sm : Smem K, (if liveRows arm p masks rt0 ct 0 0 ≠ 0 then
      stageSlabs arm p bh wbase rt0 ct 0 0 0 (liveRows arm p masks rt0 ct 0 0) sm else sm) =
      groupAt arm p masks bh wbase rt0 ct 0 sm := by
    intro sm
    rw [groupAt, hrows, Nat.zero_div, Nat.zero_mod]
    rfl
  refine ⟨hrows.symm, ?_, fun hlt => absurd hlt (by omega), fun hne => ?_, fun warp _ _ level row _ col _ => by simp⟩
  · dsimp only
    rw [Pipe.commit_full, hgroup]
    exact (valued_stageValues pipe.full).of_eq (groupAt_vslab _ _) (groupAt_gain _ _)
  · dsimp only at hne ⊢
    rw [Pipe.commit_full, hgroup]
    rw [← hrows] at hne ⊢
    exact staged_groupAt hne _

theorem PairInv.run (landing : ℕ → Landing K) (hs : Sound arm p masks bh wbase) (hrt0 : rt0 + rowTilesOf arm.W ≤ tilesOf arm.W)
    {st : PairState K} (h : PairInv arm p masks bh wbase rt0 ct 0 st) (n : ℕ) (hn : n ≤ arm.D * stagesPerLevel arm.B) :
    PairInv arm p masks bh wbase rt0 ct n ((List.range n).foldl (pairStep arm p masks bh wbase landing rt0 ct) st) := by
  induction n with
  | zero => exact h
  | succ n ih =>
    rw [List.range_succ, List.foldl_append]
    exact PairInv.step landing hs hrt0 (by omega) (ih (by omega))

/-- The read and write amplitudes' product at a level, over its digits. -/
def inner (arm : Arm) (p : IntraParams K) (bh t s l : ℕ) : K :=
  ∑ d ∈ range arm.B, amplitude arm p 0 bh t l d * amplitude arm p 1 bh s l d

/-- After a tile pair's loops every level's entries are whole, and the values and gains are the tile's. -/
theorem pairLoop_spec (landing : ℕ → Landing K) (pipe : Pipe K) (hs : Sound arm p masks bh wbase)
    (hrt0 : rt0 + rowTilesOf arm.W ≤ tilesOf arm.W) :
    Valued p bh wbase ct ((pairLoop arm p masks bh wbase landing rt0 ct pipe).pipe.seen
      (landing (arm.D * stagesPerLevel arm.B))) ∧
    ∀ warp < kWarpsPerTile * rowTilesOf arm.W, ct ≤ rt0 + mine arm warp → ∀ level < arm.D, ∀ row < kWarpRows, ∀ col < kTile,
      (pairLoop arm p masks bh wbase landing rt0 ct pipe).gram warp level row col =
        inner arm p bh (warpToken wbase rt0 warp row) (wbase + ct * kTile + col) level := by
  have hinit : ∃ st, PairInv arm p masks bh wbase rt0 ct 0 st ∧ pairLoop arm p masks bh wbase landing rt0 ct pipe = _ :=
    PairInv.init landing pipe
  obtain ⟨st, hinit, hrun⟩ := hinit
  rw [hrun]
  have hend := PairInv.run landing hs hrt0 hinit _ le_rfl
  refine ⟨Valued.seen _ (hend.landed (Nat.mul_pos arm.levels_pos arm.stages_pos)) hend.valued, ?_⟩
  intro warp hwarp hlow level hlevel row hrow col hcol
  rw [hend.gram warp hwarp hlow level row hrow col hcol, sum_blocks, inner]
  have hone : ∀ a ∈ range arm.D, (∑ b ∈ range (stagesPerLevel arm.B),
      if (a * stagesPerLevel arm.B + b) / stagesPerLevel arm.B = level then
        stageInner arm p bh (warpToken wbase rt0 warp row) (wbase + ct * kTile + col) level
          ((a * stagesPerLevel arm.B + b) % stagesPerLevel arm.B) else 0) =
      if a = level then ∑ b ∈ range (stagesPerLevel arm.B),
        stageInner arm p bh (warpToken wbase rt0 warp row) (wbase + ct * kTile + col) level b else 0 := by
    intro a _
    have hdiv : ∀ b ∈ range (stagesPerLevel arm.B), (a * stagesPerLevel arm.B + b) / stagesPerLevel arm.B = a ∧
        (a * stagesPerLevel arm.B + b) % stagesPerLevel arm.B = b := by
      intro b hb
      rw [mem_range] at hb
      rw [Nat.add_comm, Nat.add_mul_div_right _ _ arm.stages_pos, Nat.add_mul_mod_self_right, Nat.div_eq_of_lt hb,
        Nat.mod_eq_of_lt hb, Nat.zero_add]
      exact ⟨rfl, rfl⟩
    by_cases ha : a = level
    · rw [if_pos ha]
      refine sum_congr rfl fun b hb => ?_
      rw [(hdiv b hb).1, (hdiv b hb).2, if_pos ha]
    · rw [if_neg ha]
      refine sum_eq_zero fun b hb => ?_
      rw [(hdiv b hb).1, if_neg ha]
  rw [sum_congr rfl hone, sum_ite_eq' (range arm.D) level, if_pos (mem_range.2 hlevel)]
  have hsum := sum_blocks (fun d => amplitude arm p 0 bh (warpToken wbase rt0 warp row) level d *
    amplitude arm p 1 bh (wbase + ct * kTile + col) level d) (stagesPerLevel arm.B) (stageDigits arm.B)
  rw [arm.stages_mul] at hsum
  exact hsum.symm

end Steps

end Rola.Intra
