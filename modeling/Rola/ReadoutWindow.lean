import Rola.ReadEnd
import Rola.ReadoutExact

/-!
# A window's readout

Whatever the order the warps take and read a window's tiles in, each of its tokens gains its weights'
products with the snapshot over every box of the arm, once, and nothing else of the planes changes.
-/

namespace Rola

open Readers

/-- What a tile is read out of: the order, the memory, the ring slot, and what the drain stage held. -/
structure TileContext (K : Type) where
  order : ℕ → BitVec 16
  mem : ℕ → BitVec 16
  slot : ℕ
  stage : ℕ → K

section Window

variable {R : ReadRun} (P : FragPlan) (hmul : BitVec 16 → BitVec 16 → BitVec 16) {K : Type} [CommRing K] (val : BitVec 16 → K)
  (massrow : ℕ → K) (snap rowbase t0 win : ℕ)

/-- A tile's reductions. -/
def readNum (e : TileRead R.plan.warps) (x : TileContext K) : List (Intra.Add K) :=
  tileNum P (tileAcc P hmul val x.mem massrow x.slot snap e.mask) x.order e.tile (R.live win) t0 x.stage

def readDen (e : TileRead R.plan.warps) (x : TileContext K) : List (Intra.Add K) :=
  tileDen (tileAcc P hmul val x.mem massrow x.slot snap e.mask) x.order e.tile (R.live win) t0

/-- A tile's slot, landed, and the snapshot under it. -/
structure TileContext.Of (run : Bool → ℕ → ℕ → BitVec 16) (S : ℕ → ℕ → BitVec 16) (e : TileRead R.plan.warps) (x : TileContext K) :
    Prop where
  tokens : R.tileTokens win x.order e.tile = e.tokens
  staged : TileStaged run x.order e.tile (R.live win) rowbase x.slot x.mem
  snap : SnapHolds P x.mem snap S

/-- A token's weight at a leaf of a box. -/
def readWeight (run : Bool → ℕ → ℕ → BitVec 16) (t b p : ℕ) : BitVec 16 :=
  hmul (run false ((rowbase + t) % 2 ^ 32) p) (run true ((rowbase + t) % 2 ^ 32) b)

/-- A token's sum over the boxes of an arm. -/
def tokenNum (run : Bool → ℕ → ℕ → BitVec 16) (S : ℕ → ℕ → BitVec 16) (boxes t ch : ℕ) : K :=
  ∑ b ∈ Finset.range boxes, ∑ p ∈ Finset.range 16, val (readWeight hmul rowbase run t b p) * val (S (b * 16 + p) ch)

def tokenDen (run : Bool → ℕ → ℕ → BitVec 16) (boxes t : ℕ) : K :=
  ∑ b ∈ Finset.range boxes, ∑ p ∈ Finset.range 16, val (readWeight hmul rowbase run t b p) * massrow (b * 16 + p)

/-- The words name every box a token has a weight in. -/
def Covers (boxes : ℕ) (W : ReadWords) (run : Bool → ℕ → ℕ → BitVec 16) : Prop := ∀ t < W.len, ∀ b < boxes,
  ¬ ((W.box b (t / 32)).getLsbD (t % 32) = true) → ∀ p < 16, val (readWeight hmul rowbase run t b p) = 0

variable {P hmul val massrow snap rowbase t0 win} {run : Bool → ℕ → ℕ → BitVec 16} {S : ℕ → ℕ → BitVec 16}

/-! ### The tokens of the reads -/

/-- A rank's token in an order of the same tiles. -/
theorem tileTokens_inj {order order' : ℕ → BitVec 16} {k i : ℕ} (h : R.tileTokens win order k = R.tileTokens win order' k) (hi : i < kTile)
    (hlive : k * kTile + i < R.live win) : (order (k * kTile + i)).toNat = (order' (k * kTile + i)).toNat := by
  have heq := List.map_inj_left.1 h i
  exact heq (List.mem_filter.2 ⟨List.mem_range.2 hi, decide_eq_true hlive⟩)

/-- A sum over the live ranks' tokens, tile by tile, is over the live tokens. -/
theorem sum_tiles (R : ReadRun) (win : ℕ) (f : ℕ → K) : ∑ k ∈ Finset.range (R.tiles win), ∑ row ∈ Finset.range 16,
      (if k * kTile + row < R.live win then f (R.orderOf win (k * kTile + row)).toNat else 0) =
    ∑ t ∈ (Finset.range window).filter (fun t => (R.words win).Live R.plan t), f t := by
  have hle : R.live win ≤ R.tiles win * 16 := by
    unfold ReadRun.tiles kTile
    omega
  have hranks := sum_blocks (fun r => if r < R.live win then f (R.orderOf win r).toNat else 0) (R.tiles win) 16
  have hfilter : (Finset.range window).filter (fun t => (R.words win).Live R.plan t) =
      ((List.range window).filter fun t => (R.words win).Live R.plan t).toFinset := by
    ext t
    simp
  have hperm := R.live_perm win
  have hnodup : (((List.range (R.live win)).map fun r => (R.orderOf win r).toNat)).Nodup :=
    hperm.nodup_iff.2 (List.nodup_range.filter _)
  rw [show kTile = 16 from rfl, ← hranks, hfilter, ← List.toFinset_eq_of_perm _ _ hperm, List.sum_toFinset _ hnodup, List.map_map,
    ← Finset.sum_subset (Finset.range_subset_range.2 hle) fun r _ hr => if_neg (by simpa using hr), ← sum_map_range]
  refine congrArg List.sum (List.map_congr_left fun r hr => ?_)
  rw [if_pos (List.mem_range.1 hr)]
  rfl

variable {σ : Of R} {w : Fin R.plan.warps}

/-- Over a window's reads. -/
theorem sum_reads (hreach : Reachable σ) (hpast : win < (σ.warp w).win) (f : ℕ → K) :
    ((σ.reads win).map fun e => ∑ row ∈ Finset.range 16,
      if e.tile * kTile + row < R.live win then f (R.orderOf win (e.tile * kTile + row)).toNat else 0).sum =
    ∑ t ∈ (Finset.range window).filter (fun t => (R.words win).Live R.plan t), f t := by
  have hperm := hreach.inv.reads_perm hpast
  have hmap := (hperm.map fun k => ∑ row ∈ Finset.range 16,
    if k * kTile + row < R.live win then f (R.orderOf win (k * kTile + row)).toNat else 0).sum_eq
  rw [List.map_map, sum_map_range] at hmap
  rw [← sum_tiles]
  exact hmap

/-! ### A tile's boxes -/

theorem rowNum_zero (hval : val 0#16 = 0) (hzero : hmul 0#16 0#16 = 0#16) {rows : Bool → ℕ → ℕ → BitVec 16} {row : ℕ}
    (hrows : ∀ outer d, rows outer row d = 0#16) (mask : BitVec 16) (ch : ℕ) : rowNum hmul val rows S mask row ch = 0 := by
  unfold rowNum boxNum tileWeight
  simp only [hrows, hzero, hval, zero_mul, Finset.sum_const_zero]

/-- Over the boxes of a mask, where the boxes left out add nothing. -/
theorem sum_maskBoxes {boxes : ℕ} {mask : BitVec 16} {f : ℕ → K} (hmask : ∀ b, mask.getLsbD b = true → b < boxes)
    (hf : ∀ b < boxes, ¬ (mask.getLsbD b = true) → f b = 0) : ∑ b ∈ maskBoxes mask, f b = ∑ b ∈ Finset.range boxes, f b := by
  refine Finset.sum_subset (fun b hb => ?_) fun b hb hout => hf b (Finset.mem_range.1 hb) fun hbit => hout ?_
  · exact Finset.mem_range.2 (hmask b (Finset.mem_filter.1 hb).2)
  · exact Finset.mem_filter.2 ⟨Finset.mem_range.2 (BitVec.lt_of_getLsbD hbit), hbit⟩

variable {x : TileContext K} {e : TileRead R.plan.warps}

/-- A live row is its token's. -/
theorem tileRows_live {order : ℕ → BitVec 16} {k row live : ℕ} (hlive : k * kTile + row < live) (outer : Bool) (d : ℕ) :
    tileRows run order k live rowbase outer row d = run outer ((rowbase + (order (k * kTile + row)).toNat) % 2 ^ 32) d := if_pos hlive

theorem tileRows_dead {order : ℕ → BitVec 16} {k row live : ℕ} (hlive : ¬ k * kTile + row < live) (outer : Bool) (d : ℕ) :
    tileRows run order k live rowbase outer row d = 0#16 := if_neg hlive

section Row

variable {k row t : ℕ} {order : ℕ → BitVec 16}

/-- A live row's boxes of its tile's mask are the arm's. -/
theorem row_boxes (hcover : Covers hmul val rowbase R.plan.boxes (R.words win) run) (hk : k < R.tiles win)
    (hlive : k * kTile + row < R.live win) (htok : (order (k * kTile + row)).toNat = t) (htwin : t < window) (htlen : t < (R.words win).len)
    (hrank : (R.words win).rank R.plan t / kTile = k) (g : ℕ → ℕ → K) :
    ∑ b ∈ maskBoxes (R.maskOf win k), ∑ p ∈ Finset.range 16,
        val (tileWeight hmul (tileRows run order k (R.live win) rowbase) row b p) * g b p =
      ∑ b ∈ Finset.range R.plan.boxes, ∑ p ∈ Finset.range 16, val (readWeight hmul rowbase run t b p) * g b p := by
  have hmod : t % 32 < 32 := Nat.mod_lt _ (by decide)
  have hk32 := hk.trans_le (R.tiles_le win)
  have hweight : ∀ b p, tileWeight hmul (tileRows run order k (R.live win) rowbase) row b p = readWeight hmul rowbase run t b p := by
    intro b p
    rw [tileWeight, tileRows_live hlive, tileRows_live hlive, htok, readWeight]
  simp only [hweight]
  refine sum_maskBoxes (fun b hbit => ?_) fun b hb hnot => Finset.sum_eq_zero fun p hp => ?_
  · obtain ⟨u, hu, -, hmask⟩ := (ReadRun.maskOf_getLsbD hk32).1 hbit
    exact ((ReadWords.mask_getLsbD _ _ _ (Nat.mod_lt _ (by decide))).1 hmask).1
  · have hdead : ¬ ((R.words win).box b (t / 32)).getLsbD (t % 32) = true := fun hbox =>
      hnot ((ReadRun.maskOf_getLsbD hk32).2 ⟨t, htwin, hrank, (ReadWords.mask_getLsbD _ _ _ hmod).2 ⟨hb, hbox, by omega⟩⟩)
    rw [hcover t htlen b hb hdead p (Finset.mem_range.1 hp), zero_mul]

end Row

/-- The token of a live rank. -/
theorem orderOf_live {r : ℕ} (hr : r < R.live win) : (R.orderOf win r).toNat < window ∧
    (R.words win).rank R.plan (R.orderOf win r).toNat = r ∧ (R.orderOf win r).toNat < (R.words win).len := by
  obtain ⟨t, ht, rfl⟩ := R.exists_rank win (hr.trans_le (R.live_le win))
  rw [ReadRun.toNat_orderOf ht]
  exact ⟨ht, rfl, (ReadWords.live_iff.1 ((ReadWords.rank_lt_live ht).1 hr)).1⟩

/-! ### A tile -/

variable {q : ℕ}

/-- A tile read adds its live tokens' sums. -/
theorem hits_readNum (hval : val 0#16 = 0) (hzero : hmul 0#16 0#16 = 0#16) (hpow : P.vChunks = 2 ^ q) (halign : P.vRowBytes ∣ snap)
    (hcover : Covers hmul val rowbase R.plan.boxes (R.words win) run) (he : Readers.ReadOk R win e) (hx : x.Of P snap rowbase win run S e)
    (addr : ℕ) : Intra.hits addr (readNum P hmul val massrow snap t0 win e x) =
      ∑ row ∈ Finset.range 16, if e.tile * kTile + row < R.live win then
        ∑ ch ∈ Finset.range P.kDv, if (t0 + (R.orderOf win (e.tile * kTile + row)).toNat) * P.kDv + ch = addr then
          tokenNum hmul val rowbase run S R.plan.boxes (R.orderOf win (e.tile * kTile + row)).toNat ch else 0
      else 0 := by
  unfold readNum
  rw [hits_tileNum hpow halign hx.staged.holds hx.snap]
  refine Finset.sum_congr rfl fun row hrow => ?_
  rw [Finset.mem_range] at hrow
  by_cases hlive : e.tile * kTile + row < R.live win
  · obtain ⟨htwin, hrank, htlen⟩ := orderOf_live hlive
    have htok : (x.order (e.tile * kTile + row)).toNat = (R.orderOf win (e.tile * kTile + row)).toNat :=
      tileTokens_inj (hx.tokens.trans he.tokens) hrow hlive
    have hk : (R.words win).rank R.plan (R.orderOf win (e.tile * kTile + row)).toNat / kTile = e.tile := by
      rw [hrank]
      unfold kTile
      omega
    rw [if_pos hlive, tileToken, if_pos hlive, htok]
    refine Finset.sum_congr rfl fun ch _ => if_congr Iff.rfl ?_ rfl
    rw [rowNum, he.mask]
    exact row_boxes hcover he.tile hlive htok htwin htlen hk fun b p => val (S (b * 16 + p) ch)
  · rw [if_neg hlive]
    refine Finset.sum_eq_zero fun ch _ => ?_
    rw [rowNum_zero hval hzero fun outer d => tileRows_dead hlive outer d, ite_self]

theorem hits_readDen (hcover : Covers hmul val rowbase R.plan.boxes (R.words win) run) (he : Readers.ReadOk R win e)
    (hx : x.Of P snap rowbase win run S e) (addr : ℕ) : Intra.hits addr (readDen P hmul val massrow snap t0 win e x) =
      ∑ row ∈ Finset.range 16, if e.tile * kTile + row < R.live win then
        if t0 + (R.orderOf win (e.tile * kTile + row)).toNat = addr then
          tokenDen hmul val massrow rowbase run R.plan.boxes (R.orderOf win (e.tile * kTile + row)).toNat else 0
      else 0 := by
  unfold readDen
  rw [hits_tileDen hx.staged.holds]
  refine Finset.sum_congr rfl fun row hrow => if_ctx_congr Iff.rfl (fun hlive => ?_) fun _ => rfl
  rw [Finset.mem_range] at hrow
  obtain ⟨htwin, hrank, htlen⟩ := orderOf_live hlive
  have htok : (x.order (e.tile * kTile + row)).toNat = (R.orderOf win (e.tile * kTile + row)).toNat :=
    tileTokens_inj (hx.tokens.trans he.tokens) hrow hlive
  have hk : (R.words win).rank R.plan (R.orderOf win (e.tile * kTile + row)).toNat / kTile = e.tile := by
    rw [hrank]
    unfold kTile
    omega
  rw [htok]
  refine if_congr Iff.rfl ?_ rfl
  rw [rowDen, he.mask]
  exact row_boxes hcover he.tile hlive htok htwin htlen hk fun b p => massrow (b * 16 + p)

/-! ### The window -/

/-- A token no box is live in adds nothing. -/
theorem sum_dead (hcover : Covers hmul val rowbase R.plan.boxes (R.words win) run) {t : ℕ} (htlen : t < (R.words win).len)
    (hdead : ¬ (R.words win).Live R.plan t) (g : ℕ → ℕ → K) :
    ∑ b ∈ Finset.range R.plan.boxes, ∑ p ∈ Finset.range 16, val (readWeight hmul rowbase run t b p) * g b p = 0 := by
  refine Finset.sum_eq_zero fun b hb => Finset.sum_eq_zero fun p hp => ?_
  have hbox : ¬ ((R.words win).box b (t / 32)).getLsbD (t % 32) = true := fun hbit =>
    hdead (ReadWords.live_iff.2 ⟨htlen, b, Finset.mem_range.1 hb, hbit⟩)
  rw [hcover t htlen b (Finset.mem_range.1 hb) hbox p (Finset.mem_range.1 hp), zero_mul]

/-- A sum over the live tokens is over the window's, where the dead ones add nothing. -/
theorem sum_live {f : ℕ → K} (hlen : (R.words win).len ≤ window) (hf : ∀ t < (R.words win).len, ¬ (R.words win).Live R.plan t → f t = 0) :
    ∑ t ∈ (Finset.range window).filter (fun t => (R.words win).Live R.plan t), f t = ∑ t ∈ Finset.range (R.words win).len, f t := by
  refine Finset.sum_subset (fun t ht => ?_) fun t ht hout => hf t (Finset.mem_range.1 ht) fun hlive => hout ?_
  · exact Finset.mem_range.2 (ReadWords.live_iff.1 (Finset.mem_filter.1 ht).2).1
  · exact Finset.mem_filter.2 ⟨Finset.mem_range.2 ((Finset.mem_range.1 ht).trans_le hlen), hlive⟩

variable (P hmul val massrow snap t0 win) in
/-- A window's reductions, as its tiles were read. -/
def windowNum (σ : Of R) (ctx : TileRead R.plan.warps → TileContext K) : List (Intra.Add K) :=
  (σ.reads win).flatMap fun e => readNum P hmul val massrow snap t0 win e (ctx e)

variable (P hmul val massrow snap t0 win) in
def windowDen (σ : Of R) (ctx : TileRead R.plan.warps → TileContext K) : List (Intra.Add K) :=
  (σ.reads win).flatMap fun e => readDen P hmul val massrow snap t0 win e (ctx e)

section Reads

variable {ctx : TileRead R.plan.warps → TileContext K}

theorem hits_windowNum (hval : val 0#16 = 0) (hzero : hmul 0#16 0#16 = 0#16) (hpow : P.vChunks = 2 ^ q) (halign : P.vRowBytes ∣ snap)
    (hlen : (R.words win).len ≤ window) (hcover : Covers hmul val rowbase R.plan.boxes (R.words win) run) (hreach : Reachable σ)
    (hpast : win < (σ.warp w).win) (hctx : ∀ e ∈ σ.reads win, (ctx e).Of P snap rowbase win run S e) (addr : ℕ) :
    Intra.hits addr (windowNum P hmul val massrow snap t0 win σ ctx) = ∑ t ∈ Finset.range (R.words win).len, ∑ ch ∈ Finset.range P.kDv,
      if (t0 + t) * P.kDv + ch = addr then tokenNum hmul val rowbase run S R.plan.boxes t ch else 0 := by
  unfold windowNum
  rw [Intra.hits_flatMap, List.map_congr_left fun e he =>
    hits_readNum hval hzero hpow halign hcover (hreach.inv.reads win e he) (hctx e he) addr]
  rw [sum_reads hreach hpast fun t => ∑ ch ∈ Finset.range P.kDv,
    if (t0 + t) * P.kDv + ch = addr then tokenNum hmul val rowbase run S R.plan.boxes t ch else 0]
  refine sum_live hlen fun t htlen hdead => Finset.sum_eq_zero fun ch _ => ?_
  rw [tokenNum, sum_dead hcover htlen hdead, ite_self]

theorem hits_windowDen (hlen : (R.words win).len ≤ window) (hcover : Covers hmul val rowbase R.plan.boxes (R.words win) run)
    (hreach : Reachable σ) (hpast : win < (σ.warp w).win) (hctx : ∀ e ∈ σ.reads win, (ctx e).Of P snap rowbase win run S e) (addr : ℕ) :
    Intra.hits addr (windowDen P hmul val massrow snap t0 win σ ctx) = ∑ t ∈ Finset.range (R.words win).len,
      if t0 + t = addr then tokenDen hmul val massrow rowbase run R.plan.boxes t else 0 := by
  unfold windowDen
  rw [Intra.hits_flatMap, List.map_congr_left fun e he => hits_readDen hcover (hreach.inv.reads win e he) (hctx e he) addr]
  rw [sum_reads hreach hpast fun t => if t0 + t = addr then tokenDen hmul val massrow rowbase run R.plan.boxes t else 0]
  refine sum_live hlen fun t htlen hdead => ?_
  rw [tokenDen, sum_dead hcover htlen hdead, ite_self]

/-- A sum over places of which one is the entry's. -/
theorem sum_at {n m t ch : ℕ} (f : ℕ → ℕ → K) (ht : t < n) (hch : ch < m) : ∑ t' ∈ Finset.range n, ∑ ch' ∈ Finset.range m,
    (if (t0 + t') * m + ch' = (t0 + t) * m + ch then f t' ch' else 0) = f t ch := by
  rw [Finset.sum_eq_single t, Finset.sum_eq_single ch, if_pos rfl]
  · intro ch' _ hne
    exact if_neg fun heq => hne (Nat.add_left_cancel heq)
  · intro hout
    exact absurd (Finset.mem_range.2 hch) hout
  · intro t' _ hne
    refine Finset.sum_eq_zero fun ch' hch' => if_neg fun heq => hne ?_
    exact Nat.add_left_cancel (digit_inj (Finset.mem_range.1 hch') hch heq).1
  · intro hout
    exact absurd (Finset.mem_range.2 ht) hout

/-- A window behind any warp is read out: each of its tokens gains its numerator in every channel and its
denominator, and nothing else changes. -/
theorem readout_window_exact (hval : val 0#16 = 0) (hzero : hmul 0#16 0#16 = 0#16) (hpow : P.vChunks = 2 ^ q)
    (halign : P.vRowBytes ∣ snap) (hlen : (R.words win).len ≤ window) (hcover : Covers hmul val rowbase R.plan.boxes (R.words win) run)
    (hreach : Reachable σ) (hpast : win < (σ.warp w).win) (hctx : ∀ e ∈ σ.reads win, (ctx e).Of P snap rowbase win run S e)
    (num den : ℕ → K) :
    (∀ t < (R.words win).len,
      (∀ ch < P.kDv, Intra.reduced num (windowNum P hmul val massrow snap t0 win σ ctx) ((t0 + t) * P.kDv + ch) =
        num ((t0 + t) * P.kDv + ch) + tokenNum hmul val rowbase run S R.plan.boxes t ch) ∧
      Intra.reduced den (windowDen P hmul val massrow snap t0 win σ ctx) (t0 + t) =
        den (t0 + t) + tokenDen hmul val massrow rowbase run R.plan.boxes t) ∧
    (∀ addr, (addr < t0 * P.kDv ∨ (t0 + (R.words win).len) * P.kDv ≤ addr) →
      Intra.reduced num (windowNum P hmul val massrow snap t0 win σ ctx) addr = num addr) ∧
    ∀ addr, (addr < t0 ∨ t0 + (R.words win).len ≤ addr) →
      Intra.reduced den (windowDen P hmul val massrow snap t0 win σ ctx) addr = den addr := by
  have hnum := @hits_windowNum _ _ _ _ _ _ massrow _ _ t0 _ _ _ _ _ _ _ hval hzero hpow halign hlen hcover hreach hpast hctx
  have hden := @hits_windowDen _ _ _ _ _ _ massrow _ _ t0 _ _ _ _ _ _ hlen hcover hreach hpast hctx
  refine ⟨fun t ht => ⟨fun ch hch => ?_, ?_⟩, fun addr haddr => ?_, fun addr haddr => ?_⟩
  · rw [Intra.reduced_eq, hnum, sum_at (tokenNum hmul val rowbase run S R.plan.boxes) ht hch]
  · rw [Intra.reduced_eq, hden, Finset.sum_eq_single t (fun t' _ hne => if_neg fun heq => hne (Nat.add_left_cancel heq))
      fun hout => absurd (Finset.mem_range.2 ht) hout, if_pos rfl]
  · rw [Intra.reduced_eq, hnum, Finset.sum_eq_zero fun t ht => Finset.sum_eq_zero fun ch hch => if_neg fun heq => ?_, add_zero]
    rw [Finset.mem_range] at ht hch
    have hlow : t0 * P.kDv ≤ (t0 + t) * P.kDv := Nat.mul_le_mul_right _ (Nat.le_add_right _ _)
    have hhigh : (t0 + t) * P.kDv + P.kDv ≤ (t0 + (R.words win).len) * P.kDv := by
      rw [← Nat.succ_mul]
      exact Nat.mul_le_mul_right _ (by omega)
    omega
  · rw [Intra.reduced_eq, hden, Finset.sum_eq_zero fun t ht => if_neg fun heq => ?_, add_zero]
    rw [Finset.mem_range] at ht
    omega

end Reads

end Window

/-- Two tokens of a window live in box 3, amplitudes and snapshot one. -/
theorem readout_window_exact_two : ∃ (R : ReadRun) (σ : Of R) (P : FragPlan) (hmul : BitVec 16 → BitVec 16 → BitVec 16)
    (val : BitVec 16 → ℤ) (ctx : TileRead R.plan.warps → TileContext ℤ),
    ((R.words 0).Live R.plan 64 ∧ (R.words 0).Live R.plan 66 ∧ ∀ w, (σ.warp w).pc = .finished) ∧ ∀ num den : ℕ → ℤ,
      Intra.reduced num (windowNum P hmul val (fun _ => 1) 1024 512 0 σ ctx) ((512 + 66) * P.kDv + 5) = num ((512 + 66) * P.kDv + 5) + 16 ∧
      Intra.reduced den (windowDen P hmul val (fun _ => 1) 1024 512 0 σ ctx) (512 + 66) = den (512 + 66) + 16 := by
  let R : ReadRun :=
    { plan := ⟨8, 2, .inl rfl, two_pos, le_rfl⟩, windows := 1
      words := fun _ => ⟨80, false, fun b rho => if b = 3 ∧ rho = 2 then 5#32 else 0#32⟩ }
  let P : FragPlan :=
    { warps := 8, dealt := 2, poolTok := 64, warps_shape := .inl rfl, fills := by decide
      poolTok_pos := by decide, poolTok_lt := by decide, vChunks := 8, vChunks_dvd := by decide
      poolTok_le := by decide, poolTok_dvd := by decide, dealt_eq := rfl, vChunks_ge := by decide }
  let hmul : BitVec 16 → BitVec 16 → BitVec 16 := fun x y => if x = 0x3F80#16 then y else 0#16
  let val : BitVec 16 → ℤ := fun x => if x = 0x3F80#16 then 1 else 0
  let run : Bool → ℕ → ℕ → BitVec 16 := fun outer trow d =>
    if outer = true ∧ ¬ (d = 3 ∧ (trow = 1024 + 64 ∨ trow = 1024 + 66)) then 0#16 else 0x3F80#16
  let copies : TileRead R.plan.warps → List (RunPlace × (ℕ → BitVec 16)) := fun e => issueCopies run (R.orderOf 0) e.tile (R.live 0) 1024
  obtain ⟨landed, hlanded⟩ : ∃ landed : TileRead R.plan.warps → ℕ → BitVec 16, ∀ e, landed e =
      (copies e).foldl (fun mem c => Staging.stage 8 (ringPlace 0 c.1) c.2 mem) fun _ => 0#16 := ⟨_, fun _ => rfl⟩
  obtain ⟨order, horderOf⟩ : ∃ order, order = R.orderOf 0 := ⟨_, rfl⟩
  obtain ⟨ctx, hctx⟩ : ∃ ctx : TileRead R.plan.warps → TileContext ℤ, ∀ e, (ctx e).order = order ∧ (ctx e).slot = 0 ∧
      (∀ i < 512, (ctx e).mem i = landed e i) ∧ ∀ i, 512 ≤ i → (ctx e).mem i = 0x3F80#16 :=
    ⟨fun e => ⟨order, fun i => if i < 512 then landed e i else 0x3F80#16, 0, fun _ => 0⟩, fun e =>
      ⟨rfl, rfl, fun i hi => if_pos hi, fun i hi => if_neg (Nat.not_lt.2 hi)⟩⟩
  have hcover : Covers hmul val 1024 R.plan.boxes (R.words 0) run := by
    intro t ht b hb hbit p hp
    have ht80 : t < 80 := ht
    have hdead : ¬ (b = 3 ∧ ((1024 + t) % 2 ^ 32 = 1024 + 64 ∨ (1024 + t) % 2 ^ 32 = 1024 + 66)) := by
      rintro ⟨rfl, htok⟩
      obtain rfl | rfl : t = 64 ∨ t = 66 := by omega
      · exact hbit (by decide)
      · exact hbit (by decide)
    have houter : run true ((1024 + t) % 2 ^ 32) b = 0#16 := if_pos ⟨rfl, hdead⟩
    rw [readWeight, houter]
    rfl
  obtain ⟨m, σ, -, hreach, hfin⟩ := (Reachable.start (R := R) (fun _ => 7) (fun _ _ => 0) (fun _ _ => 0) fun _ => 0).exists_finished
  have hpast : 0 < (σ.warp ⟨0, by decide⟩).win := by
    rw [hreach.inv.win_of_finished (hfin _)]
    exact Nat.one_pos
  have hplace : ∀ outer, ∀ row < 16, ∀ h < 2, ∀ i < 8, RunPlace.off ⟨outer, row, h⟩ / 2 + i < 512 := by
    decide +kernel
  have hof : ∀ e ∈ σ.reads 0, (ctx e).Of P 1024 1024 0 run (fun _ _ => 0x3F80#16) e := by
    intro e he
    obtain ⟨horder, hslot, hlow, hhigh⟩ := hctx e
    refine ⟨?_, ?_, fun row _ ch _ => hhigh _ (by omega)⟩
    · rw [horder, horderOf, (hreach.inv.reads 0 e he).tokens]
    · rw [horder, horderOf, hslot]
      refine ⟨fun _ => 0#16, copies e, .refl _, fun x hx i hi => ?_⟩
      rw [← hlanded]
      refine hlow _ ?_
      rw [ringPlace, Nat.zero_add]
      exact hplace x.outer x.row hx.1 x.h hx.2 i hi
  have h := fun num den => (@readout_window_exact _ _ _ _ _ _ (fun _ => 1) _ _ 512 _ _ _ _ _ 3 _ rfl rfl rfl (by decide) (by decide) hcover
    hreach hpast hof num den).1 66 (by decide)
  refine ⟨R, σ, P, hmul, val, ctx, ⟨by decide, by decide, hfin⟩, fun num den => ⟨?_, ?_⟩⟩
  · exact ((h num den).1 5 (by decide)).trans (congrArg (num _ + ·) (by decide +kernel))
  · exact (h num den).2.trans (congrArg (den _ + ·) (by decide +kernel))

end Rola
