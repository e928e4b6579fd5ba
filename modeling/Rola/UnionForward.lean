import Mathlib.Tactic.NormNum
import Rola.EntmaxForward

/-!
# The union's read and write amplitudes

`csrc/rola/src/entmax/entmax.cu`, `union_forward_kernel`, phases D and E: the midpoints' solve split by
the logistic gate of the logit difference, the write half normalised over the row in logarithms.
-/

namespace Rola.Entmax

section Model

variable {K : Type*} [Field K] [LinearOrder K]

/-- A device and its transcendental functions. -/
structure UnionDevice (K : Type*) extends Device K where
  exp : K → K
  log : K → K
  log1p : K → K

/-- A union level's row: the logits of its two sides. -/
structure UnionRow (K : Type*) where
  width : ℕ
  read : ℕ → K
  write : ℕ → K

def UnionRow.midpoints (row : UnionRow K) : Row K := midpointRow row.width row.read row.write

/-- The greatest finite float, and half of it. -/
def kMax : K := (2 ^ 128 - 2 ^ 104 : ℕ)

def kHalfMax : K := (2 ^ 127 - 2 ^ 103 : ℕ)

/-- `overflow_free_delta`: the difference, and whether it saturated. -/
def overflowFreeDelta (r w : K) : K × Bool :=
  let rneg := decide (r < 0)
  let opposite := rneg != decide (w < 0)
  let hi := max |r| |w|
  let lo := min |r| |w|
  let room := kMax - hi
  let mag := hi + min lo room
  let opp := if rneg then -mag else mag
  let same := (if opposite then 0 else r) - (if opposite then 0 else w)
  (if opposite then opp else same, opposite && decide (kHalfMax < hi) && decide (room < lo))

variable (dev : UnionDevice K) (alpha15 : Bool) (LW IPT : ℕ) (row : UnionRow K)

/-- `log(sigmoid(-delta))`. -/
def logWriteGate (delta : K) : K := -(max delta 0 + dev.log1p (dev.exp (-|delta|)))

/-- Past the row both logits are zero. -/
def unionDelta (col : ℕ) : K :=
  (overflowFreeDelta (if col < row.width then row.read col else 0) (if col < row.width then row.write col else 0)).1

def unionSupport (lane i : ℕ) : Bool := support dev.toDevice alpha15 LW IPT row.midpoints lane i

def unionValue (lane i : ℕ) : K := mass dev.toDevice alpha15 LW IPT row.midpoints lane i

/-! ### Phase D -/

def unionRead (lane i : ℕ) : K :=
  unionValue dev alpha15 LW IPT row lane i * (1 / (1 + dev.exp (-unionDelta row (lane + i * LW))))

/-! ### Phase E -/

def logWeight (lane i : ℕ) : WithBot K :=
  if unionSupport dev alpha15 LW IPT row lane i then
    (dev.log (unionValue dev alpha15 LW IPT row lane i) + logWriteGate dev (unionDelta row (lane + i * LW)) : K)
  else ⊥

def localLw (lane : ℕ) : WithBot K :=
  (List.range IPT).foldl (fun m i =>
    if unionSupport dev alpha15 LW IPT row lane i then max m (logWeight dev alpha15 LW IPT row lane i) else m) ⊥

def maxLw : WithBot K := ((List.range LW).map (localLw dev alpha15 LW IPT row)).foldl max ⊥

/-- Whether the row has mass, and the weights' shift where it does. -/
def hasMass : Bool := decide (⊥ < maxLw dev alpha15 LW IPT row)

def safeMax : K := if hasMass dev alpha15 LW IPT row then (maxLw dev alpha15 LW IPT row).unbotD 0 else 0

def scaled (lane i : ℕ) : K :=
  if unionSupport dev alpha15 LW IPT row lane i && hasMass dev alpha15 LW IPT row then
    dev.exp ((logWeight dev alpha15 LW IPT row lane i).unbotD 0 - safeMax dev alpha15 LW IPT row)
  else 0

def den : K :=
  ((List.range LW).map fun lane => (List.range IPT).foldl (fun s i => s + scaled dev alpha15 LW IPT row lane i) 0).sum

def unionWrite (lane i : ℕ) : K :=
  let hasWeight := decide (0 < den dev alpha15 LW IPT row)
  let safeDen := if hasWeight then den dev alpha15 LW IPT row else 1
  if unionSupport dev alpha15 LW IPT row lane i && hasWeight then
    scaled dev alpha15 LW IPT row lane i / safeDen
  else 0

end Model

end Rola.Entmax
