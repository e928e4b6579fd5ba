import Rola.ReadStream

/-!
# What a head leaves

Whatever the order of the warps' writes, a window's tokens lie in the order by their ranks, with their
masks beside them, and a tile's mask is its tokens' masks or-ed.
-/

namespace Rola

namespace ReadPlan

theorem warps_pos (P : ReadPlan) : 0 < P.warps := by
  rcases P.warps_shape with h | h <;> omega

/-- Two tiles a warp a pass, over whole passes. -/
theorem passes (P : ReadPlan) : kTiles / (2 * P.warps) * (2 * P.warps) = 32 ∧ rounds / P.warps * P.warps = 16 := by
  rcases P.warps_shape with h | h <;> rw [h] <;> decide

/-- A tile by its pass, its warp and its half of the warp. -/
theorem tile_split (P : ReadPlan) (k : ℕ) :
    k / (2 * P.warps) * 2 * P.warps + k % (2 * P.warps) / 2 * 2 + k % 2 = k := by
  have hsplit := Nat.div_add_mod k (2 * P.warps)
  have htwo : k % (2 * P.warps) % 2 = k % 2 := Nat.mod_mul_right_mod k 2 P.warps
  rw [Nat.mul_assoc, Nat.mul_comm (k / _)]
  omega

end ReadPlan

namespace ReadRun

variable {R : ReadRun} {win t v : ℕ}

theorem mem_share (hv : v < R.plan.warps) : t ∈ R.share v ↔ t < window ∧ t / 32 % R.plan.warps = v := by
  obtain ⟨-, hrounds⟩ := R.plan.passes
  have hpos := R.plan.warps_pos
  have hsplit := Nat.div_add_mod (t / 32) R.plan.warps
  simp only [share, List.mem_flatMap, List.mem_map, List.mem_range]
  constructor
  · rintro ⟨g, hg, lane, hlane, rfl⟩
    have hle : (g + 1) * R.plan.warps ≤ rounds / R.plan.warps * R.plan.warps := Nat.mul_le_mul_right _ hg
    rw [Nat.add_mul] at hle
    rw [show ((g * R.plan.warps + v) * 32 + lane) / 32 = g * R.plan.warps + v by omega, Nat.mul_add_mod_self_right,
      Nat.mod_eq_of_lt hv]
    refine ⟨?_, rfl⟩
    unfold window
    omega
  · rintro ⟨ht, hmod⟩
    unfold window at ht
    refine ⟨t / 32 / R.plan.warps, ?_, t % 32, Nat.mod_lt _ (by norm_num), ?_⟩
    · rw [Nat.div_lt_iff_lt_mul hpos, hrounds]
      omega
    · rw [Nat.mul_comm] at hsplit
      rw [← hmod, hsplit, Nat.div_add_mod']

theorem mem_tileShare (hv : v < R.plan.warps) {k : ℕ} :
    k ∈ R.tileShare v ↔ k < kTiles ∧ k % (2 * R.plan.warps) / 2 = v := by
  obtain ⟨htiles, -⟩ := R.plan.passes
  have hpos := R.plan.warps_pos
  have hsplit := Nat.div_add_mod k (2 * R.plan.warps)
  simp only [tileShare, List.mem_flatMap, List.mem_map, List.mem_range, Nat.mul_assoc]
  constructor
  · rintro ⟨pass, hpass, half, hhalf, rfl⟩
    have hle : (pass + 1) * (2 * R.plan.warps) ≤ kTiles / (2 * R.plan.warps) * (2 * R.plan.warps) :=
      Nat.mul_le_mul_right _ hpass
    rw [Nat.add_mul] at hle
    rw [Nat.add_assoc, Nat.mul_add_mod_self_right, Nat.mod_eq_of_lt (by omega)]
    refine ⟨?_, by omega⟩
    rw [show kTiles = 32 from rfl]
    omega
  · rintro ⟨hk, hmod⟩
    rw [show kTiles = 32 from rfl] at hk
    refine ⟨k / (2 * R.plan.warps), ?_, k % 2, Nat.mod_lt _ (by norm_num), ?_⟩
    · rw [Nat.div_lt_iff_lt_mul (by omega), htiles]
      exact hk
    · have hcell := R.plan.tile_split k
      rw [Nat.mul_assoc] at hcell
      omega

/-! ### Scattering -/

/-- A scatter of tokens writes their ranks and no other token's. -/
theorem scatter_apply {β : Type} (f : ℕ → β) {tokens : List ℕ} (htokens : ∀ s ∈ tokens, s < window)
    (ht : t < window) (order : ℕ → β) :
    tokens.foldl (fun order s => Function.update order ((R.words win).rank R.plan s) (f s)) order
        ((R.words win).rank R.plan t) =
      if t ∈ tokens then f t else order ((R.words win).rank R.plan t) := by
  induction tokens generalizing order with
  | nil => simp
  | cons s tokens ih =>
    rw [List.foldl_cons, ih fun s hs => htokens s (List.mem_cons_of_mem _ hs)]
    by_cases hmem : t ∈ tokens
    · simp [hmem]
    · rw [if_neg hmem]
      rcases eq_or_ne t s with rfl | hne
      · simp
      · have hrank : (R.words win).rank R.plan t ≠ (R.words win).rank R.plan s := fun h =>
          hne (ReadWords.rank_inj ht (htokens s List.mem_cons_self) h)
        simp [hne, hmem, Function.update_of_ne hrank]

end ReadRun

open Readers

namespace ReadRun

variable {R : ReadRun} {win t k r : ℕ}

/-- The order a head leaves, its masks and a tile's mask. -/
def orderOf (R : ReadRun) (win : ℕ) : ℕ → BitVec 16 :=
  scatterOrder R win (List.range window) fun _ => 0#16

def masksOf (R : ReadRun) (win : ℕ) : ℕ → BitVec 16 :=
  scatterMasks R win (List.range window) fun _ => 0#16

def maskOf (R : ReadRun) (win k : ℕ) : BitVec 16 :=
  ReadWords.orTile R.plan (R.masksOf win) (k / (2 * R.plan.warps)) (k % (2 * R.plan.warps) / 2) (k % 2)

theorem orderOf_rank (ht : t < window) : R.orderOf win ((R.words win).rank R.plan t) = BitVec.ofNat 16 t := by
  rw [orderOf, scatterOrder, scatter_apply (BitVec.ofNat 16) (fun s hs => List.mem_range.1 hs) ht,
    if_pos (List.mem_range.2 ht)]

theorem masksOf_rank (ht : t < window) : R.masksOf win ((R.words win).rank R.plan t) =
    ((R.words win).mask R.plan (t / 32) (t % 32)).setWidth 16 := by
  rw [masksOf, scatterMasks, scatter_apply (fun t => ((R.words win).mask R.plan (t / 32) (t % 32)).setWidth 16)
    (fun s hs => List.mem_range.1 hs) ht, if_pos (List.mem_range.2 ht)]

theorem exists_rank (win : ℕ) (hr : r < window) : ∃ t < window, (R.words win).rank R.plan t = r := by
  obtain ⟨t, ht, rfl⟩ := @CountingSort.exists_rank ((R.words win).key R.plan) _ _ hr
  exact ⟨t, ht, ReadWords.rank_eq ht⟩

/-- Ranks below the window's are all an order has. -/
theorem orderOf_eq {order : ℕ → BitVec 16} (h : ∀ t < window, order ((R.words win).rank R.plan t) = BitVec.ofNat 16 t)
    (hr : r < window) : order r = R.orderOf win r := by
  obtain ⟨t, ht, rfl⟩ := R.exists_rank win hr
  rw [h t ht, orderOf_rank ht]

theorem live_le (R : ReadRun) (win : ℕ) : R.live win ≤ window := by
  rw [live, ReadWords.live_eq]
  exact Nat.count_le _

theorem lt_tiles {i : ℕ} (hi : i < kTile) (h : k * kTile + i < R.live win) : k < R.tiles win := by
  unfold tiles kTile at *
  omega

theorem tiles_le (R : ReadRun) (win : ℕ) : R.tiles win ≤ kTiles := by
  have h := R.live_le win
  unfold tiles
  rw [show kTiles = 32 from rfl]
  unfold kTile window at *
  omega

theorem tileTokens_congr {order order' : ℕ → BitVec 16} (h : ∀ r < window, order r = order' r) :
    R.tileTokens win order k = R.tileTokens win order' k := by
  refine List.map_congr_left fun i hi => ?_
  have hlt := R.live_le win
  have hin : k * kTile + i < R.live win := by simpa using (List.mem_filter.1 hi).2
  rw [h _ (by omega)]

theorem maskOf_eq {masks : ℕ → BitVec 16} (h : ∀ r < window, masks r = R.masksOf win r) (hk : k < kTiles) :
    ReadWords.orTile R.plan masks (k / (2 * R.plan.warps)) (k % (2 * R.plan.warps) / 2) (k % 2) = R.maskOf win k := by
  rw [show kTiles = 32 from rfl] at hk
  refine BitVec.eq_of_getLsbD_eq fun i _ => Bool.eq_iff_iff.2 ?_
  rw [maskOf, ReadWords.orTile_getLsbD _ _ _ _ (Nat.mod_lt _ (by norm_num)),
    ReadWords.orTile_getLsbD _ _ _ _ (Nat.mod_lt _ (by norm_num)), R.plan.tile_split]
  refine exists_congr fun j => and_congr_right fun hj => ?_
  unfold kTile at hj ⊢
  rw [h _ (by unfold window; omega)]

/-! ### What the order is -/

theorem toNat_orderOf (ht : t < window) : (R.orderOf win ((R.words win).rank R.plan t)).toNat = t := by
  rw [orderOf_rank ht, BitVec.toNat_ofNat, Nat.mod_eq_of_lt]
  unfold window at ht
  omega

theorem scattered (R : ReadRun) (win : ℕ) : ∀ t < window,
    (fun r => (R.orderOf win r).toNat) (CountingSort.rank ((R.words win).key R.plan) window t) = t := by
  intro t ht
  rw [← ReadWords.rank_eq ht]
  exact toNat_orderOf ht

/-- A tile's mask has the boxes of its tokens. -/
theorem maskOf_getLsbD (hk : k < kTiles) {b : ℕ} : (R.maskOf win k).getLsbD b = true ↔
    ∃ t < window, (R.words win).rank R.plan t / kTile = k ∧
      ((R.words win).mask R.plan (t / 32) (t % 32)).getLsbD b = true := by
  have hbit : ∀ t, (((R.words win).mask R.plan (t / 32) (t % 32)).setWidth 16).getLsbD b = true ↔
      ((R.words win).mask R.plan (t / 32) (t % 32)).getLsbD b = true := by
    intro t
    rw [BitVec.getLsbD_setWidth, Bool.and_eq_true, decide_eq_true_eq]
    refine and_iff_right_of_imp fun h => ?_
    have hb := ((ReadWords.mask_getLsbD R.plan _ _ (Nat.mod_lt _ (by norm_num))).1 h).1
    exact hb.trans_le R.plan.boxes_le
  rw [show kTiles = 32 from rfl] at hk
  rw [maskOf, ReadWords.orTile_getLsbD _ _ _ _ (Nat.mod_lt _ (by norm_num)), R.plan.tile_split]
  constructor
  · rintro ⟨j, hj, h⟩
    obtain ⟨t, ht, hrank⟩ := @exists_rank R (k * kTile + j) win (by unfold kTile window at *; omega)
    rw [← hrank, masksOf_rank ht, hbit] at h
    refine ⟨t, ht, ?_, h⟩
    unfold kTile at *
    omega
  · rintro ⟨t, ht, hrank, h⟩
    refine ⟨(R.words win).rank R.plan t % kTile, Nat.mod_lt _ (by decide), ?_⟩
    rw [← hrank, Nat.div_add_mod', masksOf_rank ht, hbit]
    exact h

end ReadRun

end Rola
