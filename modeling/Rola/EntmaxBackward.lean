import Rola.UnionForward

/-!
# The entmax backwards

`factor.cu`, `factor_backward_kernel`, `entmax.cu`, `union_backward_kernel`, and `production.py`,
`_SortedEntmaxFn.backward`, on one token's row. A logical warp holds the row striped, so a row's sums are
reduced over the lanes.
-/

namespace Rola.Entmax

attribute [local instance] atLeastTwo_two

section Model

variable {K : Type*} [Field K] [LinearOrder K]

/-- A row reduced: every lane folds its items, and the lanes are added. -/
def warpSum (LW IPT : ℕ) (f : ℕ → ℕ → K) : K :=
  ((List.range LW).map fun lane => (List.range IPT).foldl (fun s i => s + f lane i) 0).sum

/-- `den > 0.0f ? den : 1.0f`. -/
def orOne (den : K) : K := if 0 < den then den else 1

/-- The amplitude's slope, from the amplitude. -/
def slopeOf (sqrt : K → K) (alpha15 : Bool) (v : K) : K := if alpha15 then sqrt v else 1

/-- What `factor_backward_kernel` reads of a row: the token's bit of each support word, the amplitudes
and their gradients. -/
structure FactorGrad (K : Type*) where
  width : ℕ
  mask : Option (ℕ → Bool)
  word : ℕ → Bool
  values : ℕ → K
  dValues : ℕ → K
  dValuesSecond : Option (ℕ → K)

namespace FactorGrad

variable (sqrt : K → K) (alpha15 : Bool) (LW IPT : ℕ) (row : FactorGrad K)

def live (col : ℕ) : Bool := (decide (col < row.width) && row.mask.elim true (· col)) && row.word col

def s (col : ℕ) : K := if row.live col then slopeOf sqrt alpha15 (row.values col) else 0

def dp (col : ℕ) : K := if row.live col then row.dValues col + row.dValuesSecond.elim 0 (· col) else 0

def num : K := warpSum LW IPT fun lane i => row.s sqrt alpha15 (lane + i * LW) * row.dp (lane + i * LW)

def den : K := orOne (warpSum LW IPT fun lane i => row.s sqrt alpha15 (lane + i * LW))

def dz (col : ℕ) : K :=
  if row.live col then
    row.s sqrt alpha15 col * (row.dp col - row.num sqrt alpha15 LW IPT / row.den sqrt alpha15 LW IPT)
  else 0

/-- The stored gradient of a column below the width, added to what is there where the launch accumulates. -/
def dLogits (accumulate : Bool) (old : ℕ → K) (col : ℕ) : K :=
  if accumulate then old col + row.dz sqrt alpha15 LW IPT col else row.dz sqrt alpha15 LW IPT col

end FactorGrad

/-- `_SortedEntmaxFn.backward`, from the forward's values and support. -/
def sortedBackward (sqrt : K → K) (alpha15 : Bool) (solved : List (K × Bool)) (dp : List K) : List K :=
  let s := solved.map fun v => if v.2 then slopeOf sqrt alpha15 (max v.1 0) else 0
  let num := (List.zipWith (· * ·) s dp).sum
  let den := orOne s.sum
  List.zipWith (fun s dp => s * (dp - num / den)) s dp

/-- What `union_backward_kernel` reads of a row. -/
structure UnionGrad (K : Type*) extends UnionRow K where
  midpointValues : ℕ → K
  word : ℕ → Bool
  readValues : ℕ → K
  writeValues : ℕ → K
  dRead : ℕ → K
  dWrite : ℕ → K

namespace UnionGrad

variable (dev : UnionDevice K) (alpha15 : Bool) (LW IPT : ℕ) (row : UnionGrad K)

/-- A column of one of the row's planes; past the row it is zero. -/
def load (plane : ℕ → K) (col : ℕ) : K := if col < row.width then plane col else 0

def sup (col : ℕ) : Bool := decide (col < row.width) && row.word col

def dot : K :=
  warpSum LW IPT fun lane i => row.load row.dWrite (lane + i * LW) * row.load row.writeValues (lane + i * LW)

def dlw (col : ℕ) : K := row.load row.writeValues col * (row.load row.dWrite col - row.dot LW IPT)

def delta (col : ℕ) : K × Bool := overflowFreeDelta (row.load row.read col) (row.load row.write col)

def readGate (col : ℕ) : K := 1 / (1 + dev.exp (-(row.delta col).1))

def writeGate (col : ℕ) : K := 1 / (1 + dev.exp (row.delta col).1)

/-- The amplitude a write gradient is divided by; where there is none, one. -/
def safe (col : ℕ) : K :=
  if row.sup col && decide (row.load row.midpointValues col ≠ 0) then row.load row.midpointValues col else 1

def dMid (col : ℕ) : K :=
  row.load row.dRead col * row.readGate dev col + if row.sup col then row.dlw LW IPT col / row.safe col else 0

def dDelta (col : ℕ) : K :=
  (row.load row.dRead col * row.load row.readValues col * row.writeGate dev col - row.dlw LW IPT col * row.readGate dev col) *
    if (row.delta col).2 then 0 else 1

def si (col : ℕ) : K := if row.sup col then slopeOf dev.sqrt alpha15 (row.load row.midpointValues col) else 0

def num : K := warpSum LW IPT fun lane i => row.si dev alpha15 (lane + i * LW) * row.dMid dev LW IPT (lane + i * LW)

def den : K := orOne (warpSum LW IPT fun lane i => row.si dev alpha15 (lane + i * LW))

def dMl (col : ℕ) : K :=
  row.si dev alpha15 col *
    (row.dMid dev LW IPT col - row.num dev alpha15 LW IPT / row.den dev alpha15 LW IPT)

def dReadLogits (col : ℕ) : K := 1 / 2 * row.dMl dev alpha15 LW IPT col + row.dDelta dev LW IPT col

def dWriteLogits (col : ℕ) : K := 1 / 2 * row.dMl dev alpha15 LW IPT col - row.dDelta dev LW IPT col

end UnionGrad

end Model

end Rola.Entmax
