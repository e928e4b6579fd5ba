import Rola.FoldFragment
import Rola.IntraKernel
import Rola.ReadOrder
import Rola.Staging

/-!
# The readout of a tile

`csrc/rola/src/carry/carry_kernel.cuh`: `readout_issue` stages a tile's sixteen inner and outer runs in a
ring slot, and `readout_tile` reads the snapshot out for them, a box of the tile's mask at a time: its
channels by the matrix units, its masses by each lane. The rows go out four at a time through the drain
stage, as reductions.
-/

namespace Rola

open Warp

/-- `kRunTileBytes`. -/
def kRunTileBytes : ℕ := 512

/-- `row32_elem`. -/
def row32Elem (row col : ℕ) : ℕ := FragPlan.row32Off row (col >>> 3) + (col &&& 7) * 2

/-- Sixteen bytes of a tile row's inner or outer run. -/
structure RunPlace where
  outer : Bool
  row : ℕ
  h : ℕ
deriving DecidableEq

def RunPlace.off (x : RunPlace) : ℕ := (if x.outer then kRunTileBytes else 0) + FragPlan.row32Off x.row x.h

/-! ### The ring -/

section Issue

variable (run : Bool → ℕ → ℕ → BitVec 16) (order : ℕ → BitVec 16) (k live rowbase : ℕ)

/-- The token of a tile's row, the window's first past the live ranks. -/
def tileToken (row : ℕ) : ℕ := if k * kTile + row < live then (order (k * kTile + row)).toNat else 0

/-- `readout_issue`: a lane's two copies, `run` a plane row's inner or outer digits. -/
def issueLane (lane : ℕ) : List (RunPlace × (ℕ → BitVec 16)) :=
  let row := lane &&& 15
  let h := lane >>> 4
  let trow := (rowbase + tileToken order k live row) % 2 ^ 32
  [false, true].map fun outer =>
    (⟨outer, row, h⟩, if k * kTile + row < live then fun i => run outer trow (8 * h + i) else fun _ => 0#16)

def issueCopies : List (RunPlace × (ℕ → BitVec 16)) := (List.range 32).flatMap (issueLane run order k live rowbase)

end Issue

/-! ### The boxes -/

/-- The accumulators: a channel tile's, and each lane's two rows of the denominator. -/
structure TileAcc (K : Type) where
  y : ℕ → ℕ → ℕ → K
  dr : ℕ → K
  dr8 : ℕ → K

section Tile

variable (P : FragPlan) (hmul : BitVec 16 → BitVec 16 → BitVec 16) {K : Type} [Semiring K] (val : BitVec 16 → K)
  (mem : ℕ → BitVec 16) (massrow : ℕ → K) (slot snap : ℕ)

def snapRow (lane : ℕ) : ℕ := (lane &&& 7) + 8 * ((lane >>> 3) &&& 1)

/-- `a`: the inner tile. -/
def innerTile : ℕ → Reg := ldmatrix mem fun lane => slot + FragPlan.row32Off (snapRow lane) (lane >>> 4)

/-- `splat_u16`. -/
def splatU16 (x : BitVec 16) : BitVec 32 := x.setWidth 32 * 0x10001#32

/-- `o_r` and `o_r8`. -/
def outerFactor (b row : ℕ) : BitVec 32 := splatU16 (mem ((slot + kRunTileBytes + row32Elem row b) / 2))

/-- `ab`. -/
def scaledTile (b : ℕ) : ℕ → Reg := fun e lane =>
  mulPair hmul (innerTile mem slot e lane) (if e % 2 = 0 then outerFactor mem slot b (lane >>> 2) else outerFactor mem slot b ((lane >>> 2) + 8))

/-- `bf`: two channel tiles of a box, off the snapshot. -/
def snapTile (b i : ℕ) : ℕ → Reg := ldmatrixTrans mem fun lane =>
  (snap + P.chanRowOff (b * 16 + snapRow lane) 0) ^^^ ((2 * i + (lane >>> 4)) * 16)

/-- A box's products into two channel tiles. -/
def channelPair (b i : ℕ) (acc : TileAcc K) : TileAcc K :=
  let ab := scaledTile hmul mem slot b
  let bf := snapTile P mem snap b i
  let y := Function.update acc.y (2 * i) (mma val (acc.y (2 * i)) ab bf)
  { acc with y := Function.update y (2 * i + 1) (mma val (y (2 * i + 1)) ab fun r => bf (r + 2)) }

/-- A box's masses into a lane's two rows. -/
def massPairs (b : ℕ) (acc : TileAcc K) : TileAcc K :=
  let ab := scaledTile hmul mem slot b
  let m (lane i : ℕ) := massrow (b * 16 + 2 * (lane &&& 3) + i)
  let row (e : ℕ) (d : ℕ → K) : ℕ → K := fun lane =>
    val (half 1 (ab (e + 2) lane)) * m lane 9 + (val (half 0 (ab (e + 2) lane)) * m lane 8 +
      (val (half 1 (ab e lane)) * m lane 1 + (val (half 0 (ab e lane)) * m lane 0 + d lane)))
  { acc with dr := row 0 acc.dr, dr8 := row 1 acc.dr8 }

def tileBox (b : ℕ) (acc : TileAcc K) : TileAcc K :=
  massPairs hmul val mem massrow slot b
    ((List.range (P.kNT / 2)).foldl (fun acc i => channelPair P hmul val mem slot snap b i acc) acc)

/-- The boxes of a mask, the lowest first. -/
def tileLoop : ℕ → BitVec 32 → TileAcc K → TileAcc K
  | 0, _, acc => acc
  | fuel + 1, rest, acc =>
    if rest = 0#32 then acc
    else tileLoop fuel (rest &&& (rest - 1#32)) (tileBox P hmul val mem massrow slot snap (ffs rest - 1) acc)

def tileAcc (mask : BitVec 16) : TileAcc K :=
  tileLoop P hmul val mem massrow slot snap 32 (mask.setWidth 32) ⟨fun _ _ _ => 0, fun _ => 0, fun _ => 0⟩

/-- A row's four lanes together. -/
def quadSum (d : ℕ → K) : ℕ → K := [1, 2].foldl (fun (d : ℕ → K) s => fun lane => d lane + d (lane ^^^ s)) d

/-! ### The drain -/

/-- `kDv`, and a drain row's words. -/
def FragPlan.kDv : ℕ := 8 * P.vChunks

def FragPlan.drainRow : ℕ := P.kDv + 8

/-- Where a lane of a pass stores channel tile `j`'s pair. -/
def drainPlace (x : ℕ × ℕ) : ℕ := ((x.1 >>> 2) &&& 3) * P.drainRow + 2 * (x.1 &&& 3) + 8 * x.2

variable (acc : TileAcc K)

/-- The pairs a pass stages: the rows of its quarter. -/
def drainStores (pass : ℕ) : List ((ℕ × ℕ) × (ℕ → K)) :=
  ((List.range 32).filter fun lane => (lane >>> 2) &&& 4 = pass % 2 * 4).flatMap fun lane =>
    (List.range P.kNT).map fun j => ((lane, j), fun i => acc.y j lane (2 * (pass / 2) + i))

def drainStage (stage : ℕ → K) (pass : ℕ) : ℕ → K :=
  (drainStores P acc pass).foldl (fun mem c => Staging.stage 2 (drainPlace P c.1) c.2 mem) stage

variable (order : ℕ → BitVec 16) (k live t0 : ℕ)

/-- A pass's reductions off the stage: a lane its float of each row's lines. -/
def drainReds (stage : ℕ → K) (pass : ℕ) : List (Intra.Add K) :=
  (List.range 32).flatMap fun lane => (List.range 4).flatMap fun srow =>
    let tok := tileToken order k live (pass % 2 * 4 + srow + 8 * (pass / 2))
    (List.range (P.kDv / 32)).map fun line =>
      ⟨t0 * P.kDv + lane + tok * P.kDv + line * 32, stage (lane + srow * P.drainRow + line * 32)⟩

/-- The rows out, four a pass. -/
def tileNum (stage : ℕ → K) : List (Intra.Add K) :=
  ((List.range 4).foldl (fun (s : (ℕ → K) × List (Intra.Add K)) pass =>
    let stage := drainStage P acc s.1 pass
    (stage, s.2 ++ drainReds P order k live t0 stage pass)) (stage, [])).2

def tileDen : List (Intra.Add K) :=
  ((List.range 32).filter fun lane => lane &&& 3 = 0).flatMap fun lane =>
    let rank0 := k * kTile + (lane >>> 2)
    let rank1 := rank0 + 8
    (if rank0 < live then [⟨t0 + (order rank0).toNat, quadSum acc.dr lane⟩] else []) ++
      if rank1 < live then [⟨t0 + (order rank1).toNat, quadSum acc.dr8 lane⟩] else []

end Tile

end Rola
