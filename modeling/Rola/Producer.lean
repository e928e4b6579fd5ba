import Rola.Padding

/-!
# The routing bundle and its mass

`rola/routing/producer.py` (`RouteProducer.forward` past the solve, `_fold`), `rola/routing/factors.py`
(`RouteFactors`) and the decode kernel's fold of its read levels (`decode_fold.cuh`). A solved level is a
plane over batch times heads, a bundle's level is one over batch, token and head; arithmetic is exact.
-/

namespace Rola.Producer

inductive Duty where
  | read
  | write
deriving DecidableEq

/-- A topology: its widths, and its declared `simplex_output` column. -/
structure Topology where
  widths : List ℕ
  simplexOutput : ℕ → Duty → Bool

def Topology.D (topology : Topology) : ℕ := topology.widths.length

section Model

variable {K : Type} [Field K]

/-- A solved level: batch times heads and token. -/
abbrev Plane (K : Type) := ℕ → ℕ → List K

/-- A public level, and a public column: batch, token and head. -/
abbrev Level (K : Type) := ℕ → ℕ → ℕ → List K

abbrev Column (K : Type) := ℕ → ℕ → ℕ → K

/-- `reshape(B, H, -1, ...).permute(0, 2, 1, ...)`. -/
def permuted {α : Type} (H : ℕ) (plane : ℕ → ℕ → α) : ℕ → ℕ → ℕ → α := fun b t h => plane (b * H + h) t

/-- One level of `_fold`: the levels so far, and the mass product. -/
def foldLevel (H : ℕ) (carryMass : Bool) (st : List (Level K) × Option (ℕ → ℕ → K)) (x : Plane K × Bool) :
    List (Level K) × Option (ℕ → ℕ → K) :=
  let (folded, unitSum) := x
  if unitSum then (st.1 ++ [permuted H folded], st.2)
  else
    let mass := fun bh t => (folded bh t).sum
    let folded := if carryMass then folded else fun bh t => (folded bh t).map fun x => x / mass bh t
    (st.1 ++ [permuted H folded], some (match st.2 with
      | none => mass
      | some product => fun bh t => product bh t * mass bh t))

/-- `_fold`. -/
def fold (H : ℕ) (levels : List (Plane K)) (skip : List Bool) (carryMass : Bool) : List (Level K) × Option (Column K) :=
  let (normalized, massProduct) := (levels.zip skip).foldl (foldLevel H carryMass) ([], none)
  (normalized, massProduct.map (permuted H))

/-- `RouteFactors`. -/
structure RouteFactors (K : Type) where
  topology : Topology
  read : List (Level K)
  write : List (Level K)
  gWrite : Column K
  readMass : Option (Column K)

/-- `_skip`. -/
def skip (topology : Topology) (duty : Duty) : List Bool :=
  (List.range topology.D).map fun level => topology.simplexOutput level duty

/-- `RouteProducer.forward`, from the solve's planes and the base gain. -/
def forward (topology : Topology) (H : ℕ) (readBh writeBh : List (Plane K)) (gain : Column K) : RouteFactors K :=
  let (readLevels, readMass) := fold H readBh (skip topology .read) true
  let (writeLevels, writeMass) := fold H writeBh (skip topology .write) false
  { topology := topology
    read := readLevels
    write := writeLevels
    gWrite := match writeMass with
      | none => gain
      | some mass => fun b t h => gain b t h * mass b t h
    readMass := readMass }

namespace RouteFactors

variable (routes : RouteFactors K)

/-- `read_needs_normalization`. -/
def readNeedsNormalization : List Bool :=
  match routes.readMass with
  | none => List.replicate routes.read.length false
  | some _ => (List.range routes.read.length).map fun index => !routes.topology.simplexOutput index .read

/-- `read_simplex`. -/
def readSimplex : List (Level K) :=
  match routes.readMass with
  | none => routes.read
  | some _ => (routes.read.zip routes.readNeedsNormalization).map fun (level, needs) =>
    if needs then fun b t h => (level b t h).map fun x => x / (level b t h).sum else level

end RouteFactors

/-! ### The decode kernel's fold -/

/-- One lane's share of a row: `row[lane], row[lane + 32], …`. -/
def laneSum (row : ℕ → K) (width lane : ℕ) : K :=
  (List.range ((width - lane + 31) / 32)).foldl (fun acc i => acc + row (lane + i * 32)) 0

/-- `__shfl_down_sync`: a lane past the end reads its own. -/
def shflDown (x : ℕ → K) (off lane : ℕ) : K := if lane + off < 32 then x (lane + off) else x lane

/-- `row_sum`, as lane 0 holds it. -/
def rowSum (row : ℕ → K) (width : ℕ) : K :=
  [16, 8, 4, 2, 1].foldl (fun acc off lane => acc lane + shflDown acc off lane) (laneSum row width) 0

def kDecodeThreads : ℕ := 1024

/-- `fold_row_sums`: warp `l` sums level `l`, over what `s_sum` held. -/
def foldRowSums (D : ℕ) (levelWidth : ℕ → ℕ) (rows : ℕ → ℕ → K) (normalize : ℕ → Bool) (sSum : ℕ → K) : ℕ → K :=
  fun l => if l < kDecodeThreads / 32 ∧ l < D ∧ normalize l = true then rowSum (rows l) (levelWidth l) else sSum l

/-- `fold_rows`: each thread's stores, in the order of its loops. -/
def foldRows (D : ℕ) (levelWidth levelAmpOffset : ℕ → ℕ) (rows : ℕ → ℕ → K) (normalize : ℕ → Bool) (sSum : ℕ → K)
    (tid : ℕ) : List (ℕ × K) :=
  (List.range D).flatMap fun l =>
    (List.range ((levelWidth l - tid + (kDecodeThreads - 1)) / kDecodeThreads)).map fun i =>
      let g := tid + i * kDecodeThreads
      (levelAmpOffset l + g, if normalize l then rows l g / sSum l else rows l g)

/-- `fill_levels`: a level's rows follow those before it. -/
def ampOffset (levelWidth : ℕ → ℕ) (l : ℕ) : ℕ := ∑ i ∈ Finset.range l, levelWidth i

/-- The read staging a step walks: the row sums, a barrier, and the rows' stores over what it held. -/
def stagedRead (D : ℕ) (levelWidth levelAmpOffset : ℕ → ℕ) (rows : ℕ → ℕ → K) (normalize : ℕ → Bool) (sSum out : ℕ → K) :
    ℕ → K :=
  ((List.range kDecodeThreads).flatMap fun tid => foldRows D levelWidth levelAmpOffset rows normalize
    (foldRowSums D levelWidth rows normalize sSum) tid).foldl (fun out store => Function.update out store.1 store.2) out

end Model

end Rola.Producer
