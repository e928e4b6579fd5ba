import Rola.EntmaxThreshold
import Rola.RowSort

/-!
# The entmax solve of one row

`csrc/rola/src/entmax/factor.cu`, `factor_forward_kernel`, phases A to D: a logical warp of `LW` lanes
loads a row striped, `IPT` columns a lane, pads it with a sentinel below every real entry, sorts it,
scans its prefixes and selects the last candidate. `entmax.cu`, `union_forward_kernel`, runs the same
phases on the midpoints, with no mask. Arithmetic is exact.
-/

namespace Rola.Entmax

attribute [local instance] atLeastTwo_two

section Model

variable {K : Type*} [Field K] [LinearOrder K]

/-- A token's row of logits; no mask is every column. -/
structure Row (K : Type*) where
  width : ℕ
  logit : ℕ → K
  mask : Option (ℕ → Bool)

def Row.valid (row : Row K) (col : ℕ) : Bool := decide (col < row.width) && row.mask.elim true (· col)

/-- What the solve takes from outside: a square root, and the block sort of `IPT` above four. -/
structure Device (K : Type*) where
  sqrt : K → K
  mergeSort : ℕ → ℕ → Keys K → Keys K

variable (dev : Device K) (alpha15 : Bool) (LW IPT : ℕ) (row : Row K)

/-! ### Phases A and B -/

def localValid (lane : ℕ) : ℕ :=
  (List.range IPT).foldl (fun n i => if row.valid (lane + i * LW) then n + 1 else n) 0

def validCount : ℕ :=
  match row.mask with
  | none => row.width
  | some _ => ((List.range LW).map (localValid LW IPT row)).sum

def localMax (lane : ℕ) : WithBot K :=
  (List.range IPT).foldl (fun m i =>
    if row.valid (lane + i * LW) then max m (row.logit (lane + i * LW)) else m) ⊥

def localMin (lane : ℕ) : WithTop K :=
  (List.range IPT).foldl (fun m i =>
    if row.valid (lane + i * LW) then min m (row.logit (lane + i * LW)) else m) ⊤

def rowMax : K :=
  if 0 < validCount LW IPT row then (((List.range LW).map (localMax LW IPT row)).foldl max ⊥).unbotD 0 else 0

/-- Read only where the row has an entry. -/
def rowMin : K := (((List.range LW).map (localMin LW IPT row)).foldl min ⊤).untopD 0

def sentinel : K :=
  if 0 < validCount LW IPT row then (rowMin LW IPT row - rowMax LW IPT row) - 1 else -1

def shifted (lane i : ℕ) : K :=
  if row.valid (lane + i * LW) then row.logit (lane + i * LW) - rowMax LW IPT row else 0

def paddedKeys : Keys K := fun lane i =>
  if row.valid (lane + i * LW) then shifted LW IPT row lane i else sentinel LW IPT row

/-- `RowSort<LW, IPT>::sort`. -/
def sortRow (keys : Keys K) : Keys K :=
  if IPT ≤ 4 then RowSort.sort LW IPT keys else dev.mergeSort LW IPT keys

/-! ### Phase C -/

section Scan

variable (count : ℕ) (keys : Keys K)

def localSum (lane : ℕ) : K × K :=
  (List.range IPT).foldl (fun s i => (s.1 + keys lane i, s.2 + keys lane i * keys lane i)) (0, 0)

/-- The exclusive scan over the lanes. -/
def carryIn (lane : ℕ) : K × K :=
  (List.range lane).foldl (fun s l => (s.1 + (localSum IPT keys l).1, s.2 + (localSum IPT keys l).2)) (0, 0)

structure Scan (K : Type*) where
  runP : K
  runQ : K
  bestCol : ℤ
  bestTau : K

def scanItem (lane : ℕ) (s : Scan K) (i : ℕ) : Scan K :=
  let runP := s.runP + keys lane i
  let runQ := s.runQ + keys lane i * keys lane i
  let rank := lane * IPT + i
  let k : K := (rank + 1 : ℕ)
  if decide (rank < count) && isCandidate dev.sqrt alpha15 k runP runQ (keys lane i) then
    ⟨runP, runQ, rank, candidateTau dev.sqrt alpha15 k runP runQ⟩
  else ⟨runP, runQ, s.bestCol, s.bestTau⟩

def laneScan (lane : ℕ) : Scan K :=
  (List.range IPT).foldl (scanItem dev alpha15 IPT count keys lane)
    ⟨(carryIn IPT keys lane).1, (carryIn IPT keys lane).2, -1, 0⟩

/-- The column above the threshold's own bits: the column decides, and lanes tie only where neither
found one. -/
def packedKey (lane : ℕ) : ℕ × K :=
  ((laneScan dev alpha15 IPT count keys lane).bestCol + 1 |>.toNat, (laneScan dev alpha15 IPT count keys lane).bestTau)

def pick (best key : ℕ × K) : ℕ × K := if best.1 < key.1 then key else best

/-- `tau`, of the greatest packed key. -/
def selectTau : K :=
  let best := (List.range LW).foldl (fun best lane => pick best (packedKey dev alpha15 IPT count keys lane)) (0, 0)
  let chosen : ℤ := best.1 - 1
  if 0 ≤ chosen then best.2 else 0

end Scan

def tau : K :=
  selectTau dev alpha15 LW IPT (validCount LW IPT row) (sortRow dev LW IPT (paddedKeys LW IPT row))

/-! ### Phase D -/

/-- Item `i` of lane `lane` is column `lane + i * LW`. -/
def support (lane i : ℕ) : Bool :=
  row.valid (lane + i * LW) && decide (tau dev alpha15 LW IPT row < shifted LW IPT row lane i)

def mass (lane i : ℕ) : K :=
  let base := (if alpha15 then 1 / 2 else 1) * (shifted LW IPT row lane i - tau dev alpha15 LW IPT row)
  let base := if support dev alpha15 LW IPT row lane i then max base 0 else 0
  if alpha15 then base * base else base

/-- The row's amplitudes by column: the lane and item that hold it. -/
def forwardValue (col : ℕ) : K := mass dev alpha15 LW IPT row (col % LW) (col / LW)

def forwardSupport (col : ℕ) : Bool := support dev alpha15 LW IPT row (col % LW) (col / LW)

/-- The union's midpoints, whose solve no mask restricts. -/
def midpointRow (width : ℕ) (read write : ℕ → K) : Row K :=
  ⟨width, fun col => 1 / 2 * read col + 1 / 2 * write col, none⟩

/-! ### The torch lowering -/

def cumsum (l : List K) : List K := (List.range l.length).map fun c => (l.take (c + 1)).sum

def sortDescending (l : List K) : List K := l.mergeSort fun x y => decide (y ≤ x)

/-- `tau` of the shifted row. -/
def sortedTau (z : List K) : K :=
  let sortedZ := sortDescending z
  let prefixes := cumsum sortedZ
  let prefixesSq := cumsum (sortedZ.map fun x => x * x)
  let tauCandidates := fun c : ℕ => candidateTau dev.sqrt alpha15 (c + 1 : ℕ) (prefixes.getD c 0) (prefixesSq.getD c 0)
  let candidate := fun c : ℕ =>
    isCandidate dev.sqrt alpha15 (c + 1 : ℕ) (prefixes.getD c 0) (prefixesSq.getD c 0) (sortedZ.getD c 0)
  let chosen : ℤ := ((List.range z.length).map fun c => if candidate c then (c : ℤ) else -1).max?.getD (-1)
  if 0 ≤ chosen then tauCandidates (max chosen 0).toNat else 0

/-- `_sorted_solve`: the values of a row, and its support. -/
def sortedSolve (z : List K) : List (K × Bool) :=
  let zmax := z.max?.getD 0
  let z := z.map fun x => x - zmax
  let tau := sortedTau dev alpha15 z
  z.map fun x =>
    let support := decide (tau < x)
    let base := max ((if alpha15 then 1 / 2 else 1) * (x - tau)) 0
    (if support then if alpha15 then base * base else base else 0, support)

end Model

end Rola.Entmax
