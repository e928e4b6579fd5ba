import Mathlib.Algebra.BigOperators.Group.Finset.Basic
import Mathlib.Algebra.Ring.Defs
import Rola.Spans

/-!
# The packed router projection

`rola/routing/types.py`'s packed slots and `rola/routing/projection.py`: a router's columns are a write slot a
level and then a read slot an untied level. A side's slots are gathered as merged runs, the gain's columns
ride the projection of the read stream, and what comes back is sliced by level. Tensors are their last axis
at each leading index; arithmetic is exact.
-/

namespace Rola.Projection
open Finset

inductive LevelKind where
  | independent
  | tied
  | union
deriving DecidableEq

structure LevelRouting where
  kind : LevelKind
  width : ℕ

/-- A resolved topology's levels. -/
structure ResolvedRouting where
  levels : List LevelRouting
  nonempty : levels ≠ []
  widths : ∀ level ∈ levels, 2 ≤ level.width

namespace ResolvedRouting

variable (routing : ResolvedRouting)

def branches : List ℕ := routing.levels.map LevelRouting.width

def D : ℕ := routing.levels.length

/-- `isinstance(level, TiedRouting)`. -/
def isTied (level : ℕ) : Bool := (routing.levels[level]?.map LevelRouting.kind) == some LevelKind.tied

def untiedLevels : List ℕ := (List.range routing.D).filter fun level => !routing.isTied level

def packedReadSlotLookup : List ℕ :=
  (List.range routing.D).map fun level => ((routing.untiedLevels.idxOf? level).map (routing.D + ·)).getD level

def packedSlotLevel : List ℕ := List.range routing.D ++ routing.untiedLevels

def packedSlotWidths : List ℕ := routing.packedSlotLevel.map fun level => routing.branches.getD level 0

def packedSlotOffsets : List ℕ := Spans.offsets routing.packedSlotWidths

def packedRouterWidth : ℕ := routing.packedSlotOffsets.getLastD 0

def packedSlotSlice (slot : ℕ) : ℕ × ℕ :=
  (routing.packedSlotOffsets.getD slot 0, routing.packedSlotOffsets.getD (slot + 1) 0)

def packedColumnRuns (slots : List ℕ) : List (ℕ × ℕ) := Spans.runs (slots.map routing.packedSlotSlice)

def levelOffsets : List ℕ := Spans.offsets routing.branches

def packedLogitWidth : ℕ := routing.levelOffsets.getLastD 0

end ResolvedRouting

/-- `level_logit_slice`. -/
def levelLogitSlice (branches : List ℕ) (index : ℕ) : ℕ × ℕ :=
  let start := (branches.take index).sum
  (start, start + branches.getD index 0)

/-- `route_W` and its bias, by column: a column is read at a head and a feature. -/
structure Router (K : Type*) where
  heads : ℕ
  hidden : ℕ
  columns : List (ℕ → ℕ → K)
  bias : Option (List (ℕ → K))

/-- A stream of rank 3, or of rank 4 with a head axis. -/
structure Hidden (K : Type*) where
  batch : ℕ
  tokens : ℕ
  heads : Option ℕ
  width : ℕ
  rank3 : ℕ → ℕ → ℕ → K
  rank4 : ℕ → ℕ → ℕ → ℕ → K

/-- The last axis at a leading index: batch, token and head, or stream and token. -/
abbrev Logits (K : Type*) := List ℕ → List K

section Model

variable {K : Type} [Semiring K] (routing : ResolvedRouting) (router : Router K) (gainColumns : ℕ) (tokenMajor : Bool)

/-- A feature of a stream, as the einsum's indices name it. -/
def Hidden.at (hidden : Hidden K) (b t h d : ℕ) : K :=
  if hidden.heads = none then hidden.rank3 b t d else hidden.rank4 b t h d

/-- `pack_weight`. -/
def packWeight (slots : List ℕ) (withGain : Bool) : List (ℕ → ℕ → K) × Option (List (ℕ → K)) :=
  let routed := routing.packedRouterWidth
  let runs := routing.packedColumnRuns slots
  let runs := if withGain then
      let span := (routed, routed + gainColumns)
      match runs.getLast? with
      | some last => if last.2 = span.1 then runs.dropLast ++ [(last.1, span.2)] else runs ++ [span]
      | none => runs ++ [span]
    else runs
  match runs with
  | [run] => (Spans.slice router.columns run.1 run.2, router.bias.map fun bias => Spans.slice bias run.1 run.2)
  | runs => (runs.flatMap fun run => Spans.slice router.columns run.1 run.2,
      router.bias.map fun bias => runs.flatMap fun run => Spans.slice bias run.1 run.2)

/-- `project`: the axes are batch, token, head or batch, head, token. -/
def project (hidden : Hidden K) (weight : List (ℕ → ℕ → K) × Option (List (ℕ → K))) (trailing : ℕ) :
    Logits K × Option (Logits K) :=
  let dot := fun b t h (column : ℕ → ℕ → K) => ∑ d ∈ range hidden.width, hidden.at b t h d * column h d
  let logits := fun x y z => if tokenMajor then weight.1.map (dot x y z) else weight.1.map (dot x z y)
  let logits := fun x y z => match weight.2 with
    | some bias => List.zipWith (· + ·) (logits x y z) (bias.map fun column => if tokenMajor then column z else column y)
    | none => logits x y z
  let cut := fun x y z => (logits x y z).length - trailing
  let tail : Option (Logits K) := if trailing ≠ 0 then some fun
      | [b, t, h] => if tokenMajor then (logits b t h).drop (cut b t h) else (logits b h t).drop (cut b h t)
      | _ => []
    else none
  let logits := fun x y z => if trailing ≠ 0 then (logits x y z).take (cut x y z) else logits x y z
  (if tokenMajor then fun
    | [b, t, h] => logits b t h
    | _ => []
  else fun
    | [i, t] => logits (i / router.heads) (i % router.heads) t
    | _ => [], tail)

/-- What a stream is refused for. -/
def validateHidden (hidden : Hidden K) (name : String) : Except String Unit :=
  if hidden.width ≠ router.hidden then
    .error s!"{name} hidden width must match route_W hidden width {router.hidden}, got {hidden.width}"
  else match hidden.heads with
    | some heads => if heads ≠ router.heads then
        .error s!"{name} rank-4 head count must match route_W heads {router.heads}, got {heads}"
      else .ok ()
    | none => .ok ()

/-- `validate_packed_router`, of the routed columns; a bias is only looked at beside a gain. -/
def validatePackedRouter : Except String Unit :=
  let routed := routing.packedRouterWidth
  let width := if gainColumns ≠ 0 then (router.columns.take routed).length else router.columns.length
  if router.heads < 1 ∨ width ≠ routed then
    .error s!"route_W must have shape [H>=1, hidden_size, {routed}], got ({router.heads}, {router.hidden}, {width})"
  else match (if gainColumns = 0 then none else router.bias) with
    | none => .ok ()
    | some bias =>
      let biasWidth := (bias.take routed).length
      if biasWidth ≠ routed then
        .error s!"route_bias must have shape ({router.heads}, {routed}), got ({router.heads}, {biasWidth})"
      else .ok ()

/-- `_packed_router_logits`, past its checks: the read logits, the write logits and the gain's. -/
def projectSides (h : Hidden K) (hW : Option (Hidden K)) : Logits K × Logits K × Option (Logits K) :=
  let writeSlots := List.range routing.D
  let readSlots := routing.packedReadSlotLookup
  let fullyTied := decide (readSlots = writeSlots)
  let fuse := decide (0 < gainColumns) && (hW.isNone || !fullyTied)
  let tail := if fuse then gainColumns else 0
  let standaloneGain := if fuse ∨ gainColumns = 0 then none
    else (project router tokenMajor h (packWeight routing router gainColumns [] true) gainColumns).2
  if fullyTied then
    let (tied, gain) := project router tokenMajor (hW.getD h) (packWeight routing router gainColumns writeSlots fuse) tail
    (tied, tied, if fuse then gain else standaloneGain)
  else match hW with
    | none =>
      let (both, gain) := project router tokenMajor h (packWeight routing router gainColumns (writeSlots ++ readSlots) fuse) tail
      let width := routing.packedLogitWidth
      (fun index => (both index).drop width, fun index => (both index).take width, gain)
    | some hW =>
      let (write, _) := project router tokenMajor hW (packWeight routing router gainColumns writeSlots false) 0
      let untied := routing.untiedLevels
      if untied.length = routing.D then
        let (read, gain) := project router tokenMajor h (packWeight routing router gainColumns readSlots fuse) tail
        (read, write, gain)
      else
        let (untiedLogits, gain) := project router tokenMajor h
          (packWeight routing router gainColumns (untied.map fun level => readSlots.getD level 0) fuse) tail
        let untiedOffsets := Spans.offsets (untied.map fun level => routing.branches.getD level 0)
        let read := fun index => (List.range routing.D).flatMap fun level => match untied.idxOf? level with
          | some i =>
            let start := untiedOffsets.getD i 0
            Spans.slice (untiedLogits index) start (start + routing.branches.getD level 0)
          | none =>
            let span := levelLogitSlice routing.branches level
            Spans.slice (write index) span.1 span.2
        (read, write, gain)

/-- `_packed_router_logits`. -/
def packedRouterLogits (h : Hidden K) (hW : Option (Hidden K)) : Except String (Logits K × Logits K × Option (Logits K)) := do
  validatePackedRouter routing router gainColumns
  let routed := routing.packedRouterWidth
  if router.columns.length ≠ routed + gainColumns then
    throw s!"route_W must carry {routed} routing columns and {gainColumns} gain columns, got {router.columns.length}"
  validateHidden router h "h"
  match hW with
  | some hW =>
    validateHidden router hW "h_w"
    if (hW.batch, hW.tokens, hW.heads, hW.width) ≠ (h.batch, h.tokens, h.heads, h.width) then
      throw "h_w must match h shape and device"
  | none => pure ()
  return projectSides routing router gainColumns tokenMajor h hW

end Model

end Rola.Projection
