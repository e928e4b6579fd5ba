import Mathlib.Algebra.BigOperators.Group.Finset.Basic
import Mathlib.Algebra.Field.Defs
import Mathlib.Data.Nat.Size

/-!
# Zero-column padding

`rola/ops/padding.py` and `padded_level_width` of `rola/routing/topology.py`, beside `naive_rola`'s own
address map and its token loop (`rola/ops/naive.py`). A batch-head's operands are read one token at a time,
a level as its row of amplitudes; arithmetic is exact.
-/

namespace Rola.Padding

/-! ### The translator -/

def PADDED_LEVEL_FLOOR : ℕ := 16

/-- `padded_level_width`. -/
def paddedLevelWidth (width : ℕ) (floor : ℕ) : Except String ℕ :=
  if width < 1 then .error s!"a level width must be a positive exact int, got {width}"
  else .ok (1 <<< (max width floor - 1).size)

/-- How a tuple of integers prints. -/
def tupleText (xs : List ℕ) : String :=
  "(" ++ ", ".intercalate (xs.map toString) ++ (if xs.length = 1 then ",)" else ")")

/-- `padded_value_width`. -/
def paddedValueWidth (dV : ℕ) (shipped : List ℕ) : Except String ℕ :=
  match shipped.find? fun width => decide (dV ≤ width) with
  | some width => .ok width
  | none => .error (s!"d_v={dV} exceeds every shipped value width {tupleText shipped} for this op -- there is no padded " ++
      "width it can serve; a larger value width is a new arm, not a bigger pad.")

structure PaddedShape where
  widths : List ℕ
  paddedWidths : List ℕ
  dV : ℕ
  DV : ℕ

/-- `PaddedShape.of`. -/
def PaddedShape.of (widths : List ℕ) (dV : ℕ) (shippedDv : List ℕ) : Except String PaddedShape := do
  let paddedWidths ← widths.mapM (paddedLevelWidth · PADDED_LEVEL_FLOOR)
  let DV ← paddedValueWidth dV shippedDv
  return ⟨widths, paddedWidths, dV, DV⟩

def PaddedShape.isPadded (shape : PaddedShape) : Bool :=
  decide (shape.widths = shape.paddedWidths) && decide (shape.dV = shape.DV)

section Model

variable {K : Type} [Field K]

/-- `_pad_last_dim`. -/
def padLastDim (t : List K) (width : ℕ) : Except String (List K) :=
  if t.length = width then .ok t
  else if width < t.length then
    .error s!"cannot pad a width-{t.length} tensor down to {width} -- padding only ever widens"
  else .ok (t ++ List.replicate (width - t.length) 0)

/-- `pad_routes`. -/
def padRoutes (levels : List (List K)) (paddedWidths : List ℕ) : Except String (List (List K)) :=
  if levels.length ≠ paddedWidths.length then
    .error (s!"pad_routes got {levels.length} levels and {paddedWidths.length} padded widths -- one padded width per " ++
      "level is required")
  else (levels.zip paddedWidths).mapM fun (level, width) => padLastDim level width

def padV (v : List K) (DV : ℕ) : Except String (List K) := padLastDim v DV

def sliceY (y : List K) (dV : ℕ) : List K := y.take dV

/-- One token's operands. -/
structure Operands (K : Type) where
  read : List (List K)
  write : List (List K)
  gain : K
  value : List K

/-- The operands a padded call is handed: its levels by `pad_routes`, its value by `pad_v`. -/
def Operands.pad (paddedWidths : List ℕ) (DV : ℕ) (tok : Operands K) : Except String (Operands K) := do
  let read ← padRoutes tok.read paddedWidths
  let write ← padRoutes tok.write paddedWidths
  let value ← padV tok.value DV
  return ⟨read, write, tok.gain, value⟩

/-! ### The oracle -/

/-- `_leaf_capacity`. -/
def leafCapacity (widths : List ℕ) : ℕ := widths.foldl (· * ·) 1

/-- `_radix_strides`. -/
def radixStrides (widths : List ℕ) : List ℕ :=
  (List.range widths.length).map fun index => (widths.drop (index + 1)).foldl (· * ·) 1

/-- `_leaf_product` at a leaf. -/
def leafProduct (levels : List (List K)) (strides : List ℕ) (leaf : ℕ) : K :=
  ((levels.zip strides).map fun (factors, stride) => factors.getD (leaf / stride % factors.length) 0).prod

/-- A state: a leaf's value columns, and its mass after them. -/
abbrev State (K : Type) := ℕ → ℕ → K

/-- The gate of a leaf under a decay of the given dials, or under none. -/
def keep (pow : K → K → K) (dials : Option (List (List K))) (strides : List ℕ) (write : List (List K)) (leaf : ℕ) : K :=
  match dials with
  | none => 1
  | some dials => pow (1 - leafProduct dials strides leaf) (leafProduct write strides leaf)

variable (pow : K → K → K) (dials : Option (List (List K))) (eps : K) (widths : List ℕ) (dV : ℕ)

/-- The state a token leaves. -/
def update (tok : Operands K) (state : State K) : State K := fun leaf col =>
  keep pow dials (radixStrides widths) tok.write leaf * state leaf col +
    tok.gain * leafProduct tok.write (radixStrides widths) leaf * (tok.value ++ [1]).getD col 0

/-- A column of a token's readout. -/
def readout (tok : Operands K) (state : State K) (col : ℕ) : K :=
  ∑ leaf ∈ Finset.range (leafCapacity widths), leafProduct tok.read (radixStrides widths) leaf * state leaf col

/-- `naive_rola` from a zero state: each token's row and denominator, and the final state. -/
def naiveRola (toks : List (Operands K)) : List (List K × K) × State K :=
  toks.foldl (fun (st : List (List K × K) × State K) tok =>
    let state := update pow dials widths tok st.2
    let out := readout widths tok state
    (st.1 ++ [((List.range dV).map fun col => out col / (out dV + eps), out dV + eps)], state)) ([], fun _ _ => 0)

end Model

end Rola.Padding
