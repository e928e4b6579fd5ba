import Mathlib.Algebra.BigOperators.Group.Finset.Basic
import Mathlib.Tactic.Ring

/-!
# The intra kernel

`csrc/rola/src/intra/intra_kernel.cuh`: a block walks one window's tile pairs. Each pair's level products
are accumulated from staged digit slabs, double buffered, and only from the slabs both sides' masks
keep; the levels' products, the gain and the causal mask weight the values, and a row block is
deposited when its last column tile is consumed. Arithmetic is exact.
-/

namespace Rola.Intra
open Finset

def kTile : ℕ := 64

def kWarpRows : ℕ := 16

def kSlabDigits : ℕ := 16

def kValueWidth : ℕ := 64

def kStageCap : ℕ := 64

def kModeReadSparse : ℕ := 1

def kModeWriteSparse : ℕ := 2

def kWarpsPerTile : ℕ := kTile / kWarpRows

def tilesOf (W : ℕ) : ℕ := W / kTile

def rowTilesOf (W : ℕ) : ℕ := if 2 ≤ tilesOf W then 2 else 1

def rowsOf (W : ℕ) : ℕ := rowTilesOf W * kTile

def threadsOf (W : ℕ) : ℕ := 32 * (rowsOf W / kWarpRows)

def levelDigits (B : ℕ) : ℕ := if B < kSlabDigits then kSlabDigits else B

def maskWords (B : ℕ) : ℕ := (levelDigits B + 31) / 32

def stageDigits (B : ℕ) : ℕ := if levelDigits B < kStageCap then levelDigits B else kStageCap

def slabsPerStage (B : ℕ) : ℕ := stageDigits B / kSlabDigits

def stagesPerLevel (B : ℕ) : ℕ := levelDigits B / stageDigits B

/-- A built arm: `D` levels of `B` digits, windows of `W` tokens. The built widths are whole slabs; the
rest is the kernel's static assertions. -/
structure Arm where
  D : ℕ
  B : ℕ
  W : ℕ
  levels_pos : 0 < D
  width : ∃ b, B = 2 ^ b * kSlabDigits
  tiles : tilesOf W * kTile = W
  tiles_pos : 0 < tilesOf W
  blocks : tilesOf W % rowTilesOf W = 0
  colDigits : 8 ≤ stageDigits B / (threadsOf W / kTile)

/-- What the assertions ask of a level of `2 ^ b` slabs. -/
def Arm.holds (D W b : ℕ) : Bool :=
  decide (0 < D ∧ tilesOf W * kTile = W ∧ 0 < tilesOf W ∧ tilesOf W % rowTilesOf W = 0 ∧
    8 ≤ stageDigits (2 ^ b * kSlabDigits) / (threadsOf W / kTile))

/-- An arm whose assertions evaluate. -/
def Arm.ofNats (D W b : ℕ) (h : Arm.holds D W b = true) : Arm where
  D := D
  B := 2 ^ b * kSlabDigits
  W := W
  levels_pos := (of_decide_eq_true h).1
  width := ⟨b, rfl⟩
  tiles := (of_decide_eq_true h).2.1
  tiles_pos := (of_decide_eq_true h).2.2.1
  blocks := (of_decide_eq_true h).2.2.2.1
  colDigits := (of_decide_eq_true h).2.2.2.2

/-- `INTRA_ARMS_X`: two levels of 256 over the three windows, three and four of 16. -/
def builtArms : List Arm :=
  [.ofNats 2 384 4 (Eq.refl true), .ofNats 2 512 4 (Eq.refl true), .ofNats 2 64 4 (Eq.refl true),
    .ofNats 3 64 0 (Eq.refl true), .ofNats 4 64 0 (Eq.refl true)]

/-- The kernel's operands. The planes are read flat. -/
structure IntraParams (K : Type*) where
  pread : ℕ → K
  pwrite : ℕ → K
  gwrite : ℕ → K
  v : ℕ → K
  sread : ℕ → BitVec 32
  swrite : ℕ → BitVec 32
  L : ℕ
  heads : ℕ
  modes : ℕ

section Model

variable {K : Type*} [CommRing K] (arm : Arm) (p : IntraParams K)

/-- As `intra_forward` passes it. -/
def rowWidth : ℕ := arm.D * arm.B

def tokenWords : ℕ := (p.L + 31) / 32

/-! ### The masks -/

def declared (l side : ℕ) : Bool :=
  (p.modes >>> (2 * l)) &&& (if side = 0 then kModeReadSparse else kModeWriteSparse) != 0

/-- `__ballot_sync` of a full warp. -/
def ballot (live : ℕ → Bool) : BitVec 32 :=
  (List.range 32).foldl (fun bits lane => if live lane then bits ||| 1#32 <<< lane else bits) 0

/-- `build_masks`: tile, level, side and word; what it does not declare keeps what the block found. -/
def buildMasks (bh wbase : ℕ) (found : ℕ → ℕ → ℕ → ℕ → BitVec 32) (ti l side w : ℕ) : BitVec 32 :=
  if declared p l side then
    let words := if side = 0 then p.sread else p.swrite
    let word0 := (wbase >>> 5) + bh * tokenWords p
    ballot fun lane =>
      let digit := w * 32 + lane
      let base := (word0 + ti * (kTile / 32)) * rowWidth arm + l * arm.B + digit
      decide (digit < arm.B) && (words base ||| words (base + rowWidth arm)) != 0
  else found ti l side w

variable (masks : ℕ → ℕ → ℕ → ℕ → BitVec 32)

def slabBits (ti l side slab : ℕ) : BitVec 32 :=
  if declared p l side then (masks ti l side (slab >>> 1) >>> ((slab &&& 1) * 16)) &&& 0xFFFF#32 else 0xFFFF#32

def slabLive (rt ct l slab : ℕ) : Bool := slabBits p masks rt l 0 slab &&& slabBits p masks ct l 1 slab != 0

def stageLive (rt ct l stage : ℕ) : Bool :=
  (List.range (slabsPerStage arm.B)).any fun sub => slabLive p masks rt ct l (stage * slabsPerStage arm.B + sub)

/-- One bit a row tile of the block. -/
def liveRows (rt0 ct l stage : ℕ) : BitVec 32 :=
  (List.range (rowTilesOf arm.W)).foldl (fun bits r =>
    if decide (ct ≤ rt0 + r) && stageLive arm p masks (rt0 + r) ct l stage then bits ||| 1#32 <<< r else bits) 0

/-! ### Staging -/

/-- A block's operand memory: two buffers of row and column slabs, and a column tile's values and gains. -/
structure Smem (K : Type*) where
  rslab : ℕ → ℕ → ℕ → K
  wslab : ℕ → ℕ → ℕ → K
  vslab : ℕ → ℕ → K
  gain : ℕ → K

/-- The copies a thread issues for a stage. -/
def stageThread (bh wbase rt0 ct l stage buf : ℕ) (rows : BitVec 32) (sm : Smem K) (tid : ℕ) : Smem K :=
  let kStage := stageDigits arm.B
  let base := (bh * p.L + wbase) * rowWidth arm + (l * arm.B + stage * kStage)
  let kColThreads := threadsOf arm.W / kTile
  let kColDigits := kStage / kColThreads
  let ctoken := tid / kColThreads
  let cpart := (tid % kColThreads) * kColDigits
  let rtoken := (tid >>> 1) &&& (kTile - 1)
  let rtile := tid / (2 * kTile)
  let rpart := (tid &&& 1) * (kStage / 2)
  { sm with
    wslab := fun b row k =>
      if cpart < arm.B ∧ b = buf ∧ row = ctoken ∧ cpart ≤ k ∧ k < cpart + kColDigits / 8 * 8 then
        p.pwrite (base + (ct * kTile + ctoken) * rowWidth arm + k)
      else sm.wslab b row k
    rslab := fun b row k =>
      if (rows.getLsbD rtile = true ∧ rpart < arm.B) ∧ b = buf ∧ row = rtile * kTile + rtoken ∧ rpart ≤ k ∧
          k < rpart + kStage / 16 * 8 then
        p.pread (base + ((rt0 + rtile) * kTile + rtoken) * rowWidth arm + k)
      else sm.rslab b row k }

/-- `stage_slabs`. -/
def stageSlabs (bh wbase rt0 ct l stage buf : ℕ) (rows : BitVec 32) (sm : Smem K) : Smem K :=
  (List.range (threadsOf arm.W)).foldl (stageThread arm p bh wbase rt0 ct l stage buf rows) sm

def valuesThread (bh wbase ct : ℕ) (sm : Smem K) (tid : ℕ) : Smem K :=
  let kColThreads := threadsOf arm.W / kTile
  let kColChannels := kValueWidth / kColThreads
  let b := bh / p.heads
  let h := bh - b * p.heads
  let t0 := wbase + ct * kTile
  let token := tid / kColThreads
  let part := (tid % kColThreads) * kColChannels
  { sm with
    vslab := fun row k =>
      if row = token ∧ part ≤ k ∧ k < part + kColChannels / 8 * 8 then
        p.v (((b * p.L + t0 + token) * p.heads + h) * kValueWidth + k)
      else sm.vslab row k
    gain := fun row =>
      if tid < kTile / 8 ∧ tid * 8 ≤ row ∧ row < tid * 8 + 8 then p.gwrite (bh * p.L + t0 + row) else sm.gain row }

/-- `stage_values`. -/
def stageValues (bh wbase ct : ℕ) (sm : Smem K) : Smem K :=
  (List.range (threadsOf arm.W)).foldl (valuesThread arm p bh wbase ct) sm

/-- Asynchronous copies: what has landed, and the committed groups still in flight, oldest first. -/
structure Pipe (K : Type*) where
  landed : Smem K
  flight : List (Smem K → Smem K)

/-- A read of a cell with copies in flight finds either side of them. -/
structure Landing (K : Type*) where
  see : Smem K → Smem K → Smem K
  rslab : ∀ a b buf row k, (see a b).rslab buf row k = a.rslab buf row k ∨ (see a b).rslab buf row k = b.rslab buf row k
  wslab : ∀ a b buf row k, (see a b).wslab buf row k = a.wslab buf row k ∨ (see a b).wslab buf row k = b.wslab buf row k
  vslab : ∀ a b row k, (see a b).vslab row k = a.vslab row k ∨ (see a b).vslab row k = b.vslab row k
  gain : ∀ a b row, (see a b).gain row = a.gain row ∨ (see a b).gain row = b.gain row

namespace Pipe

variable {K : Type*}

/-- `stage_commit`, of the copies issued since the last. -/
def commit (pipe : Pipe K) (group : Smem K → Smem K) : Pipe K := { pipe with flight := pipe.flight ++ [group] }

/-- `stage_wait<n>`: all but the latest `n` groups have landed. -/
def wait (pipe : Pipe K) (n : ℕ) : Pipe K :=
  let done := pipe.flight.length - n
  ⟨(pipe.flight.take done).foldl (fun sm group => group sm) pipe.landed, pipe.flight.drop done⟩

/-- What a read finds. -/
def seen (pipe : Pipe K) (landing : Landing K) : Smem K :=
  landing.see pipe.landed (pipe.flight.foldl (fun sm group => group sm) pipe.landed)

end Pipe

/-! ### A tile pair -/

/-- Warp, level, row of the warp and column of the tile. -/
abbrev Gram (K : Type*) := ℕ → ℕ → ℕ → ℕ → K

def mine (warp : ℕ) : ℕ := (warp / kWarpsPerTile) &&& (rowTilesOf arm.W - 1)

/-- The MMA steps a warp issues on a staged slab group. -/
def accumulate (rt0 ct l stage buf : ℕ) (rows : BitVec 32) (sm : Smem K) (gram : Gram K) : Gram K :=
  fun warp level row col =>
    if level = l ∧ rows.getLsbD (mine arm warp) = true then
      (List.range (slabsPerStage arm.B)).foldl (fun acc sub =>
        if slabLive p masks (rt0 + mine arm warp) ct l (stage * slabsPerStage arm.B + sub) then
          acc + ∑ k ∈ range kSlabDigits,
            sm.rslab buf (warp * kWarpRows + row) (sub * kSlabDigits + k) * sm.wslab buf col (sub * kSlabDigits + k)
        else acc) (gram warp level row col)
    else gram warp level row col

structure PairState (K : Type*) where
  pipe : Pipe K
  rows : BitVec 32
  gram : Gram K

variable (bh wbase : ℕ) (landing : ℕ → Landing K)

/-- One iteration of the level and stage loops. -/
def pairStep (rt0 ct : ℕ) (st : PairState K) (step : ℕ) : PairState K :=
  let kStages := stagesPerLevel arm.B
  let l := step / kStages
  let stage := step % kStages
  let nl := if stage + 1 = kStages then l + 1 else l
  let ns := if stage + 1 = kStages then 0 else stage + 1
  let nextRows := if nl < arm.D then liveRows arm p masks rt0 ct nl ns else 0
  let group := if nl < arm.D ∧ nextRows ≠ 0 then
      stageSlabs arm p bh wbase rt0 ct nl ns ((step + 1) &&& 1) nextRows
    else id
  let pipe := (st.pipe.commit group).wait 1
  ⟨pipe, nextRows, accumulate arm p masks rt0 ct l stage (step &&& 1) st.rows (pipe.seen (landing step)) st.gram⟩

/-- The loops over a tile pair's levels and stages. -/
def pairLoop (rt0 ct : ℕ) (pipe : Pipe K) : PairState K :=
  let rows := liveRows arm p masks rt0 ct 0 0
  let group := fun sm : Smem K =>
    let sm := stageValues arm p bh wbase ct sm
    if rows ≠ 0 then stageSlabs arm p bh wbase rt0 ct 0 0 0 rows sm else sm
  (List.range (arm.D * stagesPerLevel arm.B)).foldl (pairStep arm p masks bh wbase landing rt0 ct)
    ⟨pipe.commit group, rows, fun _ _ _ _ => 0⟩

/-- A Gram entry's weight: the levels' product and the gain, masked on the diagonal. -/
def weight (rt ct : ℕ) (sm : Smem K) (gram : Gram K) (warp row col : ℕ) : K :=
  let trow := (warp % kWarpsPerTile) * kWarpRows
  let a := (List.range' 1 (arm.D - 1)).foldl (fun a l => a * gram warp l row col) (gram warp 0 row col)
  let a := a * sm.gain col
  if rt = ct ∧ trow + row < col then 0 else a

/-! ### A row block -/

/-- A warp's accumulated outputs, by row and channel, and its lanes' partial masses of two rows each. -/
structure Acc (K : Type*) where
  oacc : ℕ → ℕ → ℕ → K
  dacc : ℕ → ℕ → ℕ → K

structure BlockState (K : Type*) where
  pipe : Pipe K
  acc : Acc K

/-- Lane `lane` holds rows `lane / 4` and `lane / 4 + 8`, columns `n * 8 + (lane & 3) * 2` and the next. -/
def consume (rt0 ct : ℕ) (sm : Smem K) (gram : Gram K) (acc : Acc K) : Acc K where
  oacc warp row ch :=
    if ct ≤ rt0 + mine arm warp then
      (List.range 4).foldl (fun o kb => o + ∑ k ∈ range 16,
        weight arm (rt0 + mine arm warp) ct sm gram warp row (kb * 16 + k) * sm.vslab (kb * 16 + k) ch) (acc.oacc warp row ch)
    else acc.oacc warp row ch
  dacc warp lane h :=
    if ct ≤ rt0 + mine arm warp then
      (List.range 8).foldl (fun d n => d +
        (weight arm (rt0 + mine arm warp) ct sm gram warp ((lane >>> 2) + h * 8) (n * 8 + (lane &&& 3) * 2) +
          weight arm (rt0 + mine arm warp) ct sm gram warp ((lane >>> 2) + h * 8) (n * 8 + (lane &&& 3) * 2 + 1)))
        (acc.dacc warp lane h)
    else acc.dacc warp lane h

def tilePair (landings : ℕ → ℕ → Landing K) (rt0 : ℕ) (st : BlockState K) (ct : ℕ) : BlockState K :=
  let pair := pairLoop arm p masks bh wbase (landings ct) rt0 ct st.pipe
  let sm := pair.pipe.seen (landings ct (arm.D * stagesPerLevel arm.B))
  ⟨pair.pipe, consume arm rt0 ct sm pair.gram st.acc⟩

/-- A reduction issued to one entry of a plane. -/
structure Add (K : Type*) where
  addr : ℕ
  value : K

/-- The mass a lane stages, its four lanes' shares added. -/
def foldedMass (acc : Acc K) (warp lane h : ℕ) : K :=
  ([1, 2].foldl (fun (d : ℕ → K) s => fun lane => d lane + d (lane ^^^ s)) (acc.dacc warp · h)) lane

def depositO (rt0 : ℕ) (acc : Acc K) (warp : ℕ) : List (Add K) :=
  let grow := wbase + (rt0 + mine arm warp) * kTile + (warp % kWarpsPerTile) * kWarpRows
  (List.range (kValueWidth / 32)).flatMap fun seg => (List.range kWarpRows).flatMap fun r =>
    (List.range 32).map fun lane =>
      ⟨(bh * p.L + grow) * kValueWidth + lane + (r * kValueWidth + 32 * seg), acc.oacc warp r (32 * seg + lane)⟩

/-- Row `r`'s mass was staged by the first of its four lanes. -/
def depositDen (rt0 : ℕ) (acc : Acc K) (warp : ℕ) : List (Add K) :=
  let grow := wbase + (rt0 + mine arm warp) * kTile + (warp % kWarpsPerTile) * kWarpRows
  (List.range kWarpRows).map fun lane => ⟨bh * p.L + grow + lane, foldedMass acc warp (4 * (lane % 8)) (lane / 8)⟩

/-- What a row block adds to the two planes; the staging tiles leave the operand memory as `scratch`
says. -/
def rowBlock (landings : ℕ → ℕ → Landing K) (scratch : Smem K) (rt0 : ℕ) (pipe : Pipe K) :
    Pipe K × List (Add K) × List (Add K) :=
  let st := (List.range (rt0 + rowTilesOf arm.W)).foldl (tilePair arm p masks bh wbase landings rt0)
    ⟨pipe, fun _ _ _ => 0, fun _ _ _ => 0⟩
  let warps := List.range (threadsOf arm.W / 32)
  ({ st.pipe with landed := scratch }, warps.flatMap (depositO arm p bh wbase rt0 st.acc),
    warps.flatMap (depositDen arm p bh wbase rt0 st.acc))

end Model

/-! ### The grid -/

/-- What the block's timing and memory decide: what its masks and operand memory held, when its copies
land, and what its staging tiles leave behind. -/
structure Device (K : Type*) where
  found : ℕ → ℕ → ℕ → ℕ → BitVec 32
  smem : Smem K
  landings : ℕ → ℕ → ℕ → Landing K
  scratch : ℕ → Smem K

section Grid

variable {K : Type*} [CommRing K] (arm : Arm) (p : IntraParams K)

/-- A level narrower than a slab has its pad zeroed. -/
def fillPad (sm : Smem K) : Smem K :=
  if arm.B < levelDigits arm.B then { sm with rslab := fun _ _ _ => 0, wslab := fun _ _ _ => 0 } else sm

/-- The block of one window. -/
def block (dev : Device K) (bh window : ℕ) : List (Add K) × List (Add K) :=
  let wbase := window * arm.W
  let masks := buildMasks arm p bh wbase dev.found
  let blocks := (List.range (tilesOf arm.W / rowTilesOf arm.W)).map (· * rowTilesOf arm.W)
  let run := blocks.foldl (fun (st : Pipe K × List (Add K) × List (Add K)) rt0 =>
      let out := rowBlock arm p masks bh wbase (dev.landings rt0) (dev.scratch rt0) rt0 st.1
      (out.1, st.2.1 ++ out.2.1, st.2.2 ++ out.2.2))
    (⟨fillPad arm dev.smem, []⟩, [], [])
  run.2

/-- The launch's reductions, in any order of its blocks. -/
def launch (devs : ℕ → ℕ → Device K) (BH : ℕ) : List (Add K) × List (Add K) :=
  let blocks := (List.range BH).flatMap fun bh => (List.range (p.L / arm.W)).map fun window =>
    block arm p (devs bh window) bh window
  (blocks.flatMap (·.1), blocks.flatMap (·.2))

/-- A plane after reductions into it. -/
def reduced (plane : ℕ → K) (adds : List (Add K)) (addr : ℕ) : K :=
  plane addr + ((adds.filter fun a => decide (a.addr = addr)).map Add.value).sum

end Grid

end Rola.Intra
