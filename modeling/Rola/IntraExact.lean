import Rola.IntraBlock

/-!
# What the launch adds

The deposits' addresses are the planes' entries, once each, so an entry's reductions are its token's: the
sum over the window's writes at or before it of their weights, times the values for the numerator.
-/

namespace Rola.Intra
open Finset

variable {K : Type*} [CommRing K] {arm : Arm} {p : IntraParams K} {masks : ℕ → ℕ → ℕ → ℕ → BitVec 32} {bh wbase rt0 : ℕ}

/-- The writes a token reads: its window's, up to its own. -/
def within (arm : Arm) (p : IntraParams K) (t : ℕ) : Finset ℕ := (range p.L).filter fun s => s ≤ t ∧ s / arm.W = t / arm.W

def numTerm (arm : Arm) (p : IntraParams K) (bh t ch : ℕ) : K :=
  ∑ s ∈ within arm p t, pairWeight arm p bh t s * valueAt p bh s ch

def denTerm (arm : Arm) (p : IntraParams K) (bh t : ℕ) : K := ∑ s ∈ within arm p t, pairWeight arm p bh t s

/-! ### Reductions -/

/-- What a list of reductions adds to an entry. -/
def hits (addr : ℕ) (adds : List (Add K)) : K := (adds.map fun a => if a.addr = addr then a.value else 0).sum

theorem reduced_eq (plane : ℕ → K) (adds : List (Add K)) (addr : ℕ) : reduced plane adds addr = plane addr + hits addr adds := by
  unfold reduced hits
  refine congrArg _ ?_
  induction adds with
  | nil => rfl
  | cons a adds ih =>
    by_cases h : a.addr = addr
    · simpa [h] using ih
    · simpa [h] using ih

theorem hits_append (addr : ℕ) (xs ys : List (Add K)) : hits addr (xs ++ ys) = hits addr xs + hits addr ys := by
  rw [hits, List.map_append, List.sum_append]
  rfl

theorem hits_flatMap {α : Type*} (addr : ℕ) (f : α → List (Add K)) (xs : List α) :
    hits addr (xs.flatMap f) = (xs.map fun x => hits addr (f x)).sum := by
  induction xs with
  | nil => rfl
  | cons x xs ih => simpa [hits] using ih

theorem hits_range (addr n : ℕ) (f : ℕ → List (Add K)) :
    hits addr ((List.range n).flatMap f) = ∑ i ∈ range n, hits addr (f i) := by rw [hits_flatMap, sum_map_range]

theorem hits_map (addr n : ℕ) (f : ℕ → Add K) :
    hits addr ((List.range n).map f) = ∑ i ∈ range n, if (f i).addr = addr then (f i).value else 0 := by
  rw [hits, List.map_map, ← sum_map_range]
  rfl

/-- An entry of a row-major plane is its row's and its place's. -/
theorem sum_site (f : ℕ → ℕ → K) (m : ℕ) {n addr : ℕ} (hn : 0 < n) :
    ∑ a ∈ range m, ∑ b ∈ range n, (if a * n + b = addr then f a b else 0) =
      if addr < m * n then f (addr / n) (addr % n) else 0 := by
  have hblocks := sum_blocks (fun x => if x = addr then f (x / n) (x % n) else 0) m n
  have hterm : ∀ a ∈ range m, ∀ b ∈ range n, (if a * n + b = addr then f ((a * n + b) / n) ((a * n + b) % n) else 0) =
      if a * n + b = addr then f a b else 0 := by
    intro a _ b hb
    rw [mem_range] at hb
    rw [Nat.mul_add_mod', Nat.mod_eq_of_lt hb, Nat.add_comm, Nat.add_mul_div_right _ _ hn, Nat.div_eq_of_lt hb, Nat.zero_add]
  rw [← sum_congr rfl fun a ha => sum_congr rfl (hterm a ha), ← hblocks, sum_ite_eq']
  simp only [mem_range]

/-! ### The window's sum -/

/-- A row's sum over the tiles before its block's end is over the tokens it reads. -/
theorem sum_within (hL : p.L % arm.W = 0) {window n t : ℕ} (hwindow : window < p.L / arm.W) (hn : n ≤ tilesOf arm.W)
    (hlo : window * arm.W ≤ t) (hhi : t < window * arm.W + n * kTile) (f : ℕ → K) :
    ∑ x ∈ range (n * kTile), (if window * arm.W + x ≤ t then f (window * arm.W + x) else 0) = ∑ s ∈ within arm p t, f s := by
  have hW : tilesOf arm.W * kTile = arm.W := arm.tiles
  have hpos : 0 < arm.W := by
    rw [← hW]
    exact Nat.mul_pos arm.tiles_pos (by decide)
  have hle : n * kTile ≤ arm.W := by
    rw [← hW]
    exact Nat.mul_le_mul_right _ hn
  have hwin : t / arm.W = window := by
    rw [Nat.div_eq_of_lt_le hlo]
    rw [Nat.succ_mul]
    omega
  have hplane : p.L = p.L / arm.W * arm.W := (Nat.div_mul_cancel (Nat.dvd_of_mod_eq_zero hL)).symm
  have hwhole : ∑ x ∈ range arm.W, (if window * arm.W + x ≤ t then f (window * arm.W + x) else 0) =
      ∑ x ∈ range (n * kTile), if window * arm.W + x ≤ t then f (window * arm.W + x) else 0 := by
    refine (sum_subset (range_subset_range.2 hle) fun x _ hx => if_neg ?_).symm
    rw [mem_range] at hx
    omega
  have hothers : ∀ w ∈ range (p.L / arm.W), (∑ x ∈ range arm.W,
      if w * arm.W + x ≤ t ∧ (w * arm.W + x) / arm.W = t / arm.W then f (w * arm.W + x) else 0) =
      if w = window then ∑ x ∈ range arm.W, (if window * arm.W + x ≤ t then f (window * arm.W + x) else 0) else 0 := by
    intro w _
    have hdiv : ∀ x ∈ range arm.W, (w * arm.W + x) / arm.W = w := by
      intro x hx
      rw [Nat.add_comm, Nat.add_mul_div_right _ _ hpos, Nat.div_eq_of_lt (mem_range.1 hx), Nat.zero_add]
    split
    · rename_i hw
      subst hw
      refine sum_congr rfl fun x hx => if_congr ?_ rfl rfl
      rw [hdiv x hx, hwin, and_iff_left rfl]
    · rename_i hw
      refine sum_eq_zero fun x hx => if_neg fun h => hw ?_
      rw [← hdiv x hx, h.2, hwin]
  have hblocks := sum_blocks (fun s => if s ≤ t ∧ s / arm.W = t / arm.W then f s else 0) (p.L / arm.W) arm.W
  rw [← hplane, sum_congr rfl hothers, sum_ite_eq' (range _) window, if_pos (mem_range.2 hwindow), hwhole] at hblocks
  rw [within, sum_filter, hblocks]

/-! ### The deposits -/

/-- The reduction of one channel, and of the mass, of a token. -/
def addO (arm : Arm) (p : IntraParams K) (bh t ch : ℕ) : Add K := ⟨(bh * p.L + t) * kValueWidth + ch, numTerm arm p bh t ch⟩

def addDen (arm : Arm) (p : IntraParams K) (bh t : ℕ) : Add K := ⟨bh * p.L + t, denTerm arm p bh t⟩

/-- The row block's tokens are of the window and before its last column tile's end. -/
theorem warpToken_bounds (window rt0 : ℕ) {warp r : ℕ} (hwarp : warp < kWarpsPerTile * rowTilesOf arm.W) (hr : r < kWarpRows) :
    window * arm.W ≤ warpToken (window * arm.W) rt0 warp r ∧
      warpToken (window * arm.W) rt0 warp r < window * arm.W + (rt0 + rowTilesOf arm.W) * kTile := by
  have hper : kWarpsPerTile = 4 := by decide
  rw [hper] at hwarp
  unfold warpToken
  unfold kWarpRows at *
  rw [kTile]
  omega

theorem depositO_eq {window warp : ℕ} {acc : Acc K} (hL : p.L % arm.W = 0) (hwindow : window < p.L / arm.W)
    (hrt0 : rt0 + rowTilesOf arm.W ≤ tilesOf arm.W)
    (h : BlockInv arm p bh (window * arm.W) rt0 (rt0 + rowTilesOf arm.W) acc) (hwarp : warp < kWarpsPerTile * rowTilesOf arm.W) :
    depositO arm p bh (window * arm.W) rt0 acc warp = (List.range (kValueWidth / 32)).flatMap fun seg =>
      (List.range kWarpRows).flatMap fun r => (List.range 32).map fun lane =>
        addO arm p bh (warpToken (window * arm.W) rt0 warp r) (32 * seg + lane) := by
  unfold depositO
  refine List.flatMap_congr fun seg hseg => List.flatMap_congr fun r hr => List.map_congr_left fun lane hlane => ?_
  rw [List.mem_range] at hseg hr hlane
  have hch : 32 * seg + lane < kValueWidth := by
    unfold kValueWidth at hseg ⊢
    omega
  obtain ⟨hlo, hhi⟩ := warpToken_bounds window rt0 hwarp hr
  rw [addO, Add.mk.injEq]
  refine ⟨?_, ?_⟩
  · rw [warpToken_eq hwarp, kWarpsPerTile, kTile, kWarpRows]
    ring
  · rw [h.outs warp hwarp r hr _ hch, numTerm, ← sum_within hL hwindow hrt0 hlo hhi]
    exact sum_congr rfl fun x _ => by rw [taken, ite_mul, zero_mul]

theorem depositDen_eq {window warp : ℕ} {acc : Acc K} (hL : p.L % arm.W = 0) (hwindow : window < p.L / arm.W)
    (hrt0 : rt0 + rowTilesOf arm.W ≤ tilesOf arm.W)
    (h : BlockInv arm p bh (window * arm.W) rt0 (rt0 + rowTilesOf arm.W) acc) (hwarp : warp < kWarpsPerTile * rowTilesOf arm.W) :
    depositDen arm p bh (window * arm.W) rt0 acc warp =
      (List.range kWarpRows).map fun r => addDen arm p bh (warpToken (window * arm.W) rt0 warp r) := by
  unfold depositDen
  refine List.map_congr_left fun r hr => ?_
  rw [List.mem_range] at hr
  obtain ⟨hlo, hhi⟩ := warpToken_bounds window rt0 hwarp hr
  rw [addDen, Add.mk.injEq]
  refine ⟨?_, ?_⟩
  · rw [warpToken_eq hwarp, kWarpsPerTile, kTile, kWarpRows]
    ring
  · rw [h.foldedMass hwarp hr, denTerm, ← sum_within hL hwindow hrt0 hlo hhi]
    rfl

/-- What a row block adds to the planes. -/
def blockO (arm : Arm) (p : IntraParams K) (bh wbase rt0 : ℕ) : List (Add K) :=
  (List.range (kWarpsPerTile * rowTilesOf arm.W)).flatMap fun warp => (List.range (kValueWidth / 32)).flatMap fun seg =>
    (List.range kWarpRows).flatMap fun r => (List.range 32).map fun lane =>
      addO arm p bh (warpToken wbase rt0 warp r) (32 * seg + lane)

def blockDen (arm : Arm) (p : IntraParams K) (bh wbase rt0 : ℕ) : List (Add K) :=
  (List.range (kWarpsPerTile * rowTilesOf arm.W)).flatMap fun warp => (List.range kWarpRows).map fun r =>
    addDen arm p bh (warpToken wbase rt0 warp r)

theorem rowBlock_eq {window : ℕ} (landings : ℕ → ℕ → Landing K) (scratch : Smem K) (pipe : Pipe K) (hL : p.L % arm.W = 0)
    (hwindow : window < p.L / arm.W) (hs : Sound arm p masks bh (window * arm.W)) (hrt0 : rt0 + rowTilesOf arm.W ≤ tilesOf arm.W) :
    (rowBlock arm p masks bh (window * arm.W) landings scratch rt0 pipe).2 =
      (blockO arm p bh (window * arm.W) rt0, blockDen arm p bh (window * arm.W) rt0) := by
  have hinv := BlockInv.run landings hs hrt0 pipe (rt0 + rowTilesOf arm.W)
  have hwarps : threadsOf arm.W / 32 = kWarpsPerTile * rowTilesOf arm.W := by
    have hper : kWarpsPerTile = 4 := by decide
    rw [Arm.threadsOf_eq, hper]
    omega
  unfold rowBlock blockO blockDen
  dsimp only
  rw [hwarps, Prod.mk.injEq]
  refine ⟨List.flatMap_congr fun warp hwarp => ?_, List.flatMap_congr fun warp hwarp => ?_⟩
  · exact depositO_eq hL hwindow hrt0 hinv (List.mem_range.1 hwarp)
  · exact depositDen_eq hL hwindow hrt0 hinv (List.mem_range.1 hwarp)

/-- The window's block adds its row blocks', whatever the device decides. -/
theorem block_eq {BH window : ℕ} (dev : Device K) (hsup : Supported arm p BH) (hbh : bh < BH) (hL : p.L % arm.W = 0)
    (hwindow : window < p.L / arm.W) : block arm p dev bh window =
      ((List.range (tilesOf arm.W / rowTilesOf arm.W)).flatMap fun blk => blockO arm p bh (window * arm.W) (blk * rowTilesOf arm.W),
        (List.range (tilesOf arm.W / rowTilesOf arm.W)).flatMap fun blk =>
          blockDen arm p bh (window * arm.W) (blk * rowTilesOf arm.W)) := by
  have hW := arm.tiles
  have hin : window * arm.W + arm.W ≤ p.L := by
    rw [← Nat.succ_mul]
    exact (Nat.mul_le_mul_right _ hwindow).trans (Nat.div_mul_le_self _ _)
  have halign : window * arm.W % kTile = 0 := by rw [← hW, ← Nat.mul_assoc, Nat.mul_mod_left]
  have hs := sound_buildMasks dev.found hsup hbh halign hin
  have hblocks : ∀ blk ∈ List.range (tilesOf arm.W / rowTilesOf arm.W),
      blk * rowTilesOf arm.W + rowTilesOf arm.W ≤ tilesOf arm.W := by
    intro blk hblk
    rw [← Nat.succ_mul]
    exact (Nat.mul_le_mul_right _ (List.mem_range.1 hblk)).trans (Nat.div_mul_le_self _ _)
  unfold block
  dsimp only
  rw [List.foldl_map]
  -- the fold appends each row block's reductions, from any pipe
  suffices hrun : ∀ (blks : List ℕ) (st : Pipe K × List (Add K) × List (Add K)),
      (∀ blk ∈ blks, blk * rowTilesOf arm.W + rowTilesOf arm.W ≤ tilesOf arm.W) →
      (blks.foldl (fun (st : Pipe K × List (Add K) × List (Add K)) blk =>
        let out := rowBlock arm p (buildMasks arm p bh (window * arm.W) dev.found) bh (window * arm.W)
          (dev.landings (blk * rowTilesOf arm.W)) (dev.scratch (blk * rowTilesOf arm.W)) (blk * rowTilesOf arm.W) st.1
        (out.1, st.2.1 ++ out.2.1, st.2.2 ++ out.2.2)) st).2 =
      (st.2.1 ++ blks.flatMap fun blk => blockO arm p bh (window * arm.W) (blk * rowTilesOf arm.W),
        st.2.2 ++ blks.flatMap fun blk => blockDen arm p bh (window * arm.W) (blk * rowTilesOf arm.W)) by
    exact hrun _ _ hblocks
  intro blks
  induction blks with
  | nil => intro st _; simp
  | cons blk blks ih =>
    intro st hblks
    rw [List.foldl_cons, ih _ fun blk' hmem => hblks blk' (List.mem_cons_of_mem _ hmem)]
    dsimp only
    rw [rowBlock_eq _ _ _ hL hwindow hs (hblks blk List.mem_cons_self)]
    simp

/-- The blocks' rows are the plane's tokens. -/
theorem sum_tokens (hL : p.L % arm.W = 0) (f : ℕ → K) :
    ∑ window ∈ range (p.L / arm.W), ∑ blk ∈ range (tilesOf arm.W / rowTilesOf arm.W),
      ∑ warp ∈ range (kWarpsPerTile * rowTilesOf arm.W), ∑ r ∈ range kWarpRows,
        f (warpToken (window * arm.W) (blk * rowTilesOf arm.W) warp r) = ∑ t ∈ range p.L, f t := by
  have hper : kWarpsPerTile = 4 := by decide
  have hrows : kWarpsPerTile * rowTilesOf arm.W * kWarpRows = rowTilesOf arm.W * kTile := by
    rw [hper, kWarpRows, kTile]
    omega
  have hwindow : tilesOf arm.W / rowTilesOf arm.W * (rowTilesOf arm.W * kTile) = arm.W := by
    rw [← Nat.mul_assoc, Nat.div_mul_cancel (Nat.dvd_of_mod_eq_zero arm.blocks), arm.tiles]
  have hplane : p.L / arm.W * arm.W = p.L := Nat.div_mul_cancel (Nat.dvd_of_mod_eq_zero hL)
  have hblocks := sum_blocks f (p.L / arm.W) arm.W
  rw [hplane] at hblocks
  rw [hblocks]
  refine sum_congr rfl fun window _ => ?_
  have hrowBlocks := sum_blocks (fun z => f (window * arm.W + z)) (tilesOf arm.W / rowTilesOf arm.W) (rowTilesOf arm.W * kTile)
  rw [hwindow] at hrowBlocks
  rw [hrowBlocks]
  refine sum_congr rfl fun blk _ => ?_
  have hwarps := sum_blocks (fun y => f (window * arm.W + (blk * (rowTilesOf arm.W * kTile) + y)))
    (kWarpsPerTile * rowTilesOf arm.W) kWarpRows
  rw [hrows] at hwarps
  rw [hwarps]
  refine sum_congr rfl fun warp _ => sum_congr rfl fun r _ => congrArg f ?_
  rw [warpToken, Nat.mul_assoc, Nat.add_assoc]

theorem hits_blockO (addr bh wbase rt0 : ℕ) : hits addr (blockO arm p bh wbase rt0) =
    ∑ warp ∈ range (kWarpsPerTile * rowTilesOf arm.W), ∑ r ∈ range kWarpRows, ∑ ch ∈ range kValueWidth,
      if (bh * p.L + warpToken wbase rt0 warp r) * kValueWidth + ch = addr then
        numTerm arm p bh (warpToken wbase rt0 warp r) ch else 0 := by
  unfold blockO
  rw [hits_range]
  refine sum_congr rfl fun warp _ => ?_
  rw [hits_range, sum_congr rfl fun seg _ => hits_range _ _ _, sum_comm]
  refine sum_congr rfl fun r _ => ?_
  have hseg := sum_blocks (fun ch => if (bh * p.L + warpToken wbase rt0 warp r) * kValueWidth + ch = addr then
    numTerm arm p bh (warpToken wbase rt0 warp r) ch else 0) (kValueWidth / 32) 32
  have hwidth : kValueWidth / 32 * 32 = kValueWidth := by decide
  rw [hwidth] at hseg
  rw [hseg]
  refine sum_congr rfl fun seg _ => ?_
  rw [hits_map]
  exact sum_congr rfl fun lane _ => by rw [Nat.mul_comm seg]; rfl

theorem hits_blockDen (addr bh wbase rt0 : ℕ) : hits addr (blockDen arm p bh wbase rt0) =
    ∑ warp ∈ range (kWarpsPerTile * rowTilesOf arm.W), ∑ r ∈ range kWarpRows,
      if bh * p.L + warpToken wbase rt0 warp r = addr then denTerm arm p bh (warpToken wbase rt0 warp r) else 0 := by
  unfold blockDen
  rw [hits_range]
  refine sum_congr rfl fun warp _ => ?_
  rw [hits_map]
  rfl

theorem hits_launch {BH : ℕ} (devs : ℕ → ℕ → Device K) (hsup : Supported arm p BH) (hL : p.L % arm.W = 0) (addr : ℕ) :
    hits addr (launch arm p devs BH).1 = (∑ bh ∈ range BH, ∑ t ∈ range p.L, ∑ ch ∈ range kValueWidth,
      if (bh * p.L + t) * kValueWidth + ch = addr then numTerm arm p bh t ch else 0) ∧
    hits addr (launch arm p devs BH).2 = ∑ bh ∈ range BH, ∑ t ∈ range p.L,
      if bh * p.L + t = addr then denTerm arm p bh t else 0 := by
  have hblock : ∀ bh < BH, ∀ window < p.L / arm.W,
      hits addr (block arm p (devs bh window) bh window).1 = (∑ blk ∈ range (tilesOf arm.W / rowTilesOf arm.W),
        hits addr (blockO arm p bh (window * arm.W) (blk * rowTilesOf arm.W))) ∧
      hits addr (block arm p (devs bh window) bh window).2 = ∑ blk ∈ range (tilesOf arm.W / rowTilesOf arm.W),
        hits addr (blockDen arm p bh (window * arm.W) (blk * rowTilesOf arm.W)) := by
    intro bh hbh window hwindow
    rw [block_eq (devs bh window) hsup hbh hL hwindow]
    exact ⟨hits_range _ _ _, hits_range _ _ _⟩
  unfold launch
  dsimp only
  rw [List.flatMap_assoc, List.flatMap_assoc, hits_range, hits_range]
  refine ⟨sum_congr rfl fun bh hbh => ?_, sum_congr rfl fun bh hbh => ?_⟩
  · rw [List.flatMap_map, hits_range, ← sum_tokens hL]
    refine sum_congr rfl fun window hwindow => ?_
    rw [(hblock bh (mem_range.1 hbh) window (mem_range.1 hwindow)).1]
    exact sum_congr rfl fun blk _ => hits_blockO _ _ _ _
  · rw [List.flatMap_map, hits_range, ← sum_tokens hL]
    refine sum_congr rfl fun window hwindow => ?_
    rw [(hblock bh (mem_range.1 hbh) window (mem_range.1 hwindow)).2]
    exact sum_congr rfl fun blk _ => hits_blockDen _ _ _ _

/-- Each entry of the planes is added its token's term and nothing past the planes is touched: no product a
dropped slab holds is lost, and none is counted twice. -/
theorem intra_exact {BH : ℕ} (devs : ℕ → ℕ → Device K) (hsup : Supported arm p BH) (hL : p.L % arm.W = 0) (o den : ℕ → K) :
    (∀ bh < BH, ∀ t < p.L, (∀ ch < kValueWidth,
        reduced o (launch arm p devs BH).1 ((bh * p.L + t) * kValueWidth + ch) =
          o ((bh * p.L + t) * kValueWidth + ch) + numTerm arm p bh t ch) ∧
      reduced den (launch arm p devs BH).2 (bh * p.L + t) = den (bh * p.L + t) + denTerm arm p bh t) ∧
    (∀ addr, BH * p.L * kValueWidth ≤ addr → reduced o (launch arm p devs BH).1 addr = o addr) ∧
    (∀ addr, BH * p.L ≤ addr → reduced den (launch arm p devs BH).2 addr = den addr) := by
  have hwidth : 0 < kValueWidth := by decide
  have hnum : ∀ addr, hits addr (launch arm p devs BH).1 = if addr < BH * p.L * kValueWidth then
      numTerm arm p (addr / kValueWidth / p.L) (addr / kValueWidth % p.L) (addr % kValueWidth) else 0 := by
    intro addr
    rw [(hits_launch devs hsup hL addr).1]
    have hrows := sum_blocks (fun y => ∑ ch ∈ range kValueWidth,
      if y * kValueWidth + ch = addr then numTerm arm p (y / p.L) (y % p.L) ch else 0) BH p.L
    rw [sum_site (fun y ch => numTerm arm p (y / p.L) (y % p.L) ch) _ hwidth] at hrows
    rw [hrows]
    refine sum_congr rfl fun bh _ => sum_congr rfl fun t ht => sum_congr rfl fun ch _ => ?_
    rw [mem_range] at ht
    rw [Nat.mul_add_mod', Nat.mod_eq_of_lt ht, Nat.add_comm (bh * p.L), Nat.add_mul_div_right _ _ (Nat.zero_lt_of_lt ht),
      Nat.div_eq_of_lt ht, Nat.zero_add]
  have hden : ∀ addr, 0 < p.L → hits addr (launch arm p devs BH).2 =
      if addr < BH * p.L then denTerm arm p (addr / p.L) (addr % p.L) else 0 := by
    intro addr hpos
    rw [(hits_launch devs hsup hL addr).2, sum_site (fun bh t => denTerm arm p bh t) BH hpos]
  refine ⟨fun bh hbh t ht => ?_, fun addr haddr => ?_, fun addr haddr => ?_⟩
  · have hpos : 0 < p.L := Nat.zero_lt_of_lt ht
    have hrow : bh * p.L + t < BH * p.L := by
      calc bh * p.L + t < (bh + 1) * p.L := by rw [Nat.succ_mul]; omega
        _ ≤ BH * p.L := Nat.mul_le_mul_right _ hbh
    have hdiv : (bh * p.L + t) / p.L = bh := by
      rw [Nat.add_comm, Nat.add_mul_div_right _ _ hpos, Nat.div_eq_of_lt ht, Nat.zero_add]
    have hmod : (bh * p.L + t) % p.L = t := by rw [Nat.mul_add_mod', Nat.mod_eq_of_lt ht]
    refine ⟨fun ch hch => ?_, ?_⟩
    · have hin : (bh * p.L + t) * kValueWidth + ch < BH * p.L * kValueWidth := by
        calc (bh * p.L + t) * kValueWidth + ch < (bh * p.L + t + 1) * kValueWidth := by rw [Nat.succ_mul]; omega
          _ ≤ BH * p.L * kValueWidth := Nat.mul_le_mul_right _ hrow
      have hsite : ((bh * p.L + t) * kValueWidth + ch) / kValueWidth = bh * p.L + t := by
        rw [Nat.add_comm, Nat.add_mul_div_right _ _ hwidth, Nat.div_eq_of_lt hch, Nat.zero_add]
      have hplace : ((bh * p.L + t) * kValueWidth + ch) % kValueWidth = ch := by rw [Nat.mul_add_mod', Nat.mod_eq_of_lt hch]
      rw [reduced_eq, hnum, if_pos hin, hsite, hplace, hdiv, hmod]
    · rw [reduced_eq, hden _ hpos, if_pos hrow, hdiv, hmod]
  · rw [reduced_eq, hnum, if_neg (by omega), add_zero]
  · rw [reduced_eq]
    rcases Nat.eq_zero_or_pos p.L with hzero | hpos
    · rw [(hits_launch devs hsup hL addr).2, hzero]
      simp
    · rw [hden _ hpos, if_neg (by omega), add_zero]

/-- One level of two slabs; only the first has amplitudes, and the words say so. -/
def halfArm : Arm := .ofNats 1 64 1 (Eq.refl true)

def halfParams : IntraParams ℤ where
  pread a := if a % 32 < 16 then 1 else 0
  pwrite a := if a % 32 < 16 then 2 else 0
  gwrite a := a
  v _ := 1
  sread a := if a % 32 < 16 then BitVec.allOnes 32 else 0
  swrite a := if a % 32 < 16 then BitVec.allOnes 32 else 0
  L := 64
  heads := 1
  modes := 3

/-- A device whose reads find the operand memory before the copies in flight. -/
def lateDevice : Device ℤ where
  found _ _ _ _ := 0
  smem := ⟨fun _ _ _ => 7, fun _ _ _ => 7, fun _ _ => 7, fun _ => 7⟩
  landings _ _ _ := ⟨fun a _ => a, fun _ _ _ _ _ => .inl rfl, fun _ _ _ _ _ => .inl rfl, fun _ _ _ _ => .inl rfl, fun _ _ _ => .inl rfl⟩
  scratch _ := ⟨fun _ _ _ => 9, fun _ _ _ => 9, fun _ _ => 9, fun _ => 9⟩

theorem halfParams_supported : Supported halfArm halfParams 1 := by
  intro side hside bh hbh t ht l hl d hd _ hne
  have hplane : ∀ a, halfParams.plane side a ≠ 0 → a % 32 < 16 := by
    intro a ha
    by_contra hge
    unfold IntraParams.plane halfParams at ha
    split at ha <;> simp [hge] at ha
  have hwords : ∀ a, a % 32 < 16 → halfParams.words side a = BitVec.allOnes 32 := by
    intro a ha
    unfold IntraParams.words halfParams
    split <;> simp [ha]
  have hl0 : l = 0 := Nat.lt_one_iff.1 hl
  have hdigit : d % 32 < 16 := by
    have h := hplane _ hne
    rw [hl0] at h
    change ((bh * 64 + t) * (1 * 32) + (0 * 32 + d)) % 32 < 16 at h
    omega
  rw [hwords]
  · rw [BitVec.getLsbD_allOnes]
    exact decide_eq_true (Nat.mod_lt t (by decide))
  · rw [hl0]
    change ((bh * tokenWords halfParams + t / 32) * (1 * 32) + (0 * 32 + d)) % 32 < 16
    omega

theorem intra_exact_half : reduced (fun _ => 5) (launch halfArm halfParams (fun _ _ => lateDevice) 1).1 (3 * 64 + 10) = 197 ∧
    reduced (fun _ => 5) (launch halfArm halfParams (fun _ _ => lateDevice) 1).2 3 = 197 := by
  obtain ⟨hterms, -, -⟩ := intra_exact (fun _ _ => lateDevice) halfParams_supported (by decide) (fun _ => 5) (fun _ => 5)
  obtain ⟨hnum, hden⟩ := hterms 0 (by decide) 3 (by decide)
  exact ⟨(hnum 10 (by decide)).trans (by decide +kernel), hden.trans (by decide +kernel)⟩

end Rola.Intra
