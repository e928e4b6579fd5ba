import Mathlib.Data.Nat.Size
import Mathlib.Logic.Function.Basic
import Rola.Spans

/-!
# The batched routing plan

`rola/routing/entmax/production.py`: `_Plan` groups the plan walk's level-sides into launches by operator,
`alpha`, padded width and operands, and the backward walks the levels again. Both walks are one with a
tensor for the second output of a tied level or none; an operand is named by its role, and grouped by its
identity. `_torch_routing_factor_levels` is the per-level definition, factor by factor.
-/

namespace Rola.RoutingPlan

inductive Alpha where
  | onehalf
  | two
deriving DecidableEq

inductive Activation where
  | softmax
  | entmax (alpha : Alpha)
deriving DecidableEq

/-- The registry's `exact_zeros` column. -/
def Activation.exactZeros : Activation → Bool
  | softmax => false
  | entmax _ => true

inductive LevelRouting where
  | independent (width : ℕ) (read write : Activation)
  | tied (width : ℕ) (op : Activation)
  | union (width : ℕ) (alpha : Alpha)
deriving DecidableEq

namespace LevelRouting

def width : LevelRouting → ℕ
  | independent width _ _ => width
  | tied width _ => width
  | union width _ => width

def isTied : LevelRouting → Bool
  | tied _ _ => true
  | _ => false

def isUnion : LevelRouting → Bool
  | union _ _ => true
  | _ => false

def readCanZero : LevelRouting → Bool
  | independent _ read _ => read.exactZeros
  | tied _ op => op.exactZeros
  | union _ _ => true

def writeCanZero : LevelRouting → Bool
  | independent _ _ write => write.exactZeros
  | tied _ op => op.exactZeros
  | union _ _ => true

end LevelRouting

/-- A resolved topology: an independent level has at most one side of exact zeros. -/
structure ResolvedRouting where
  levels : List LevelRouting
  nonempty : levels ≠ []
  widths : ∀ level ∈ levels, 2 ≤ level.width
  independent : ∀ width read write, LevelRouting.independent width read write ∈ levels →
    (read.exactZeros && write.exactZeros) = false

namespace ResolvedRouting

variable (routing : ResolvedRouting)

def D : ℕ := routing.levels.length

def branches : List ℕ := routing.levels.map LevelRouting.width

def levelOffsets : List ℕ := Spans.offsets routing.branches

/-- `support_side_flags`. -/
def supportSideFlags : List ℕ :=
  routing.levels.map fun level => (if level.readCanZero then 1 else 0) ||| (if level.writeCanZero then 2 else 0)

/-- `support_offsets`: a level that cannot be zero has none. -/
def supportOffsets : List ℤ :=
  ((routing.branches.zip routing.supportSideFlags).foldl (fun (st : List ℤ × ℕ) x =>
    if x.2 = 0 then (st.1 ++ [-1], st.2) else (st.1 ++ [(st.2 : ℤ)], st.2 + x.1)) ([], 0)).1

/-- Columns of the support words, and of the midpoint plane. -/
def supportWidth : ℕ :=
  ((routing.branches.zip routing.supportOffsets).filter fun x => decide (0 ≤ x.2)).map Prod.fst |>.sum

def midpointWidth : ℕ := ((routing.levels.filter LevelRouting.isUnion).map LevelRouting.width).sum

/-- `fully_shared`. -/
def fullyShared : Bool := routing.levels.all LevelRouting.isTied

end ResolvedRouting

/-- `_width_class`. -/
def widthClass (width : ℕ) : ℕ := max (1 <<< (width - 1).size) 2

def MAX_BATCHED_LEVELS : ℕ := 16

/-! ### Launches -/

inductive Kind where
  | union
  | entmax
  | softmax
deriving DecidableEq

/-- The tensors of a call, by role. -/
inductive Tensor where
  | readLogits
  | writeLogits
  | readValues
  | writeValues
  | midpoints
  | supportWords
deriving DecidableEq

/-- One level of a launch: its width, and its columns in the operands. -/
structure Entry where
  width : ℕ
  logit : ℕ
  value : ℕ
  midpoint : ℕ
  support : ℤ

/-- `_Launch`; the softmax's `alpha` is the constant 0. -/
structure Launch where
  kind : Kind
  alpha : Option Alpha
  operands : List (Option Tensor)
  heads : ℕ
  entries : List Entry

structure Key where
  kind : Kind
  alpha : Option Alpha
  widthClass : ℕ
  heads : ℕ
  ids : List (Option ℕ)
deriving DecidableEq

/-- `_Plan`: the launch a key is open on, by its place among the issued. -/
structure Plan where
  opened : Key → Option ℕ
  issued : List Launch

def Plan.empty : Plan := ⟨fun _ => none, []⟩

def Launch.full (launch : Launch) : Bool := launch.entries.length == MAX_BATCHED_LEVELS

def Launch.add (launch : Launch) (entry : Entry) : Launch := { launch with entries := launch.entries ++ [entry] }

/-- The launch a key is open on, where it is not full. -/
def Plan.room (plan : Plan) (key : Key) : Option ℕ :=
  (plan.opened key).bind fun i => (plan.issued[i]?).bind fun launch => if launch.full then none else some i

/-- `_Plan.add`. -/
def Plan.add (id : Tensor → ℕ) (plan : Plan) (kind : Kind) (alpha : Option Alpha) (operands : List (Option Tensor)) (heads : ℕ)
    (entry : Entry) : Plan :=
  let key : Key := ⟨kind, alpha, widthClass entry.width, heads, operands.map (Option.map id)⟩
  match plan.room key with
  | some i => { plan with issued := plan.issued.modify i fun launch => launch.add entry }
  | none => ⟨Function.update plan.opened key (some plan.issued.length), plan.issued ++ [⟨kind, alpha, operands, heads, [entry]⟩]⟩

/-! ### What a launch does -/

/-- Columns of a tensor. -/
structure Span where
  tensor : Tensor
  start : ℤ
  width : ℕ
deriving DecidableEq

/-- What a factor is computed by, and from which columns. -/
inductive Factor where
  | unionRead (alpha : Alpha) (read write : Span)
  | unionWrite (alpha : Alpha) (read write : Span)
  | activation (op : Activation) (logits : Span)
deriving DecidableEq

/-- One level of an issued launch: what it stores where, and the spans it touches besides. -/
structure Solve where
  stores : List (Span × Factor)
  logits : List Span
  midpoint : List Span
  support : List Span
deriving DecidableEq

/-- The span of an operand, or of none. -/
def spanOf (tensor : Option Tensor) (start : ℤ) (width : ℕ) : List Span := (tensor.map fun tensor => ⟨tensor, start, width⟩).toList

/-- A level solved by one activation, into one or two outputs. -/
def solveFactor (op : Activation) (logits values valuesSecond support : Option Tensor) (entry : Entry) : Solve :=
  let source := spanOf logits entry.logit entry.width
  { stores := source.flatMap fun span => (spanOf values entry.value entry.width ++ spanOf valuesSecond entry.value entry.width).map
      fun output => (output, .activation op span)
    logits := source
    midpoint := []
    support := spanOf support entry.support entry.width }

/-- `_Launch.issue`, of one of its levels. -/
def Launch.solve (launch : Launch) (entry : Entry) : Solve :=
  match launch.kind, launch.alpha, launch.operands with
  | .union, some alpha, [some readFrom, some writeFrom, midpoint, support, readTo, writeTo] =>
    let read : Span := ⟨readFrom, entry.logit, entry.width⟩
    let write : Span := ⟨writeFrom, entry.logit, entry.width⟩
    { stores := (spanOf readTo entry.value entry.width).map (fun output => (output, .unionRead alpha read write)) ++
        (spanOf writeTo entry.value entry.width).map fun output => (output, .unionWrite alpha read write)
      logits := [read, write]
      midpoint := spanOf midpoint entry.midpoint entry.width
      support := spanOf support entry.support entry.width }
  | .entmax, some alpha, [logits, values, valuesSecond, support] =>
    solveFactor (.entmax alpha) logits values valuesSecond support entry
  | .softmax, _, [logits, values, valuesSecond] => solveFactor .softmax logits values valuesSecond none entry
  | _, _, _ => ⟨[], [], [], []⟩

/-- `_Plan.issue`. -/
def Plan.issue (plan : Plan) : List Solve := plan.issued.flatMap fun launch => launch.entries.map launch.solve

/-! ### The logits' layouts -/

/-- The logits as `[BH, T, W]`, or token-major as `[B, T, H, W]`. -/
inductive Layout where
  | flat (streams tokens : ℕ)
  | tokenMajor (batch tokens heads : ℕ)

namespace Layout

/-- `_arena_shape`. -/
def arenaShape : Layout → ℕ × ℕ
  | flat streams tokens => (streams, tokens)
  | tokenMajor batch tokens heads => (batch * heads, tokens)

/-- `_heads`. -/
def heads : Layout → ℕ
  | flat _ _ => 1
  | tokenMajor _ _ heads => heads

def emptyLaunch (layout : Layout) : Bool := layout.arenaShape.1 == 0 || layout.arenaShape.2 == 0

/-- The logits' row a kernel reads a stream's token from, split as `five_logits` and `addr_split`. -/
def launchRow (layout : Layout) (stream token : ℕ) : List ℕ :=
  let sb := stream / layout.heads
  let sh := stream - sb * layout.heads
  match layout with
  | flat _ _ => [sb, token]
  | tokenMajor _ _ _ => [sb, token, sh]

/-- The logits' row at a row of `_flat`, the `permute(0, 2, 1, 3)` read in order. -/
def flatRow (layout : Layout) (stream token : ℕ) : List ℕ :=
  match layout with
  | flat _ _ => [stream, token]
  | tokenMajor _ tokens heads =>
    let row := stream * tokens + token
    [row / (heads * tokens), row % tokens, row / tokens % heads]

end Layout

/-! ### The forward walk -/

section Walk

variable (id : Tensor → ℕ) (shared : Bool) (heads : ℕ) (emptyLaunch : Bool) (routing : ResolvedRouting)

/-- A level-side solved alone: its activation, its source, and its outputs. -/
def Plan.addFactor (plan : Plan) (op : Activation) (source output : Tensor) (second : Option Tensor)
    (width logitOffset offset : ℕ) (supportOffset : ℤ) : Plan :=
  match op with
  | .entmax alpha => plan.add id .entmax (some alpha) [some source, some output, second, some .supportWords] heads
      ⟨width, logitOffset, offset, 0, supportOffset⟩
  | .softmax => plan.add id .softmax none [some source, some output, second] heads ⟨width, logitOffset, offset, 0, 0⟩

/-- The walk so far: the plan, and the union levels' columns of the midpoint plane. -/
structure Walk where
  plan : Plan
  midpointOffset : ℕ
  midpointOffsets : List ℕ

/-- One level of the walk. With `shared` a tied level has no second output, the two arenas being one. -/
def walkLevel (st : Walk) (index : ℕ) (level : LevelRouting) : Walk :=
  let width := routing.branches.getD index 0
  let logitOffset := (routing.branches.take index).sum
  let offset := routing.levelOffsets.getD index 0
  let supportOffset := routing.supportOffsets.getD index (-1)
  match level with
  | .union _ alpha =>
    { plan := if emptyLaunch then st.plan else st.plan.add id .union (some alpha)
        [some .readLogits, some .writeLogits, some .midpoints, some .supportWords, some .readValues, some .writeValues] heads
        ⟨width, logitOffset, offset, st.midpointOffset, supportOffset⟩
      midpointOffset := st.midpointOffset + width
      midpointOffsets := st.midpointOffsets ++ [st.midpointOffset] }
  | .tied _ op =>
    if emptyLaunch then st
    else
      let second := if shared then none else some .writeValues
      { st with plan := st.plan.addFactor id heads op .writeLogits .readValues second width logitOffset offset supportOffset }
  | .independent _ read write =>
    if emptyLaunch then st
    else
      let plan := st.plan.addFactor id heads read .readLogits .readValues none width logitOffset offset supportOffset
      { st with plan := plan.addFactor id heads write .writeLogits .writeValues none width logitOffset offset supportOffset }

/-- A plan walk's forward. -/
def walk : Walk :=
  (routing.levels.zipIdx).foldl (fun st x => walkLevel id shared heads emptyLaunch routing st x.2 x.1) ⟨.empty, 0, []⟩

end Walk

/-- `_ProductionLevelsFn.forward`: a plane a side. -/
def levelsForward (id : Tensor → ℕ) (layout : Layout) (routing : ResolvedRouting) : Walk :=
  walk id false layout.heads layout.emptyLaunch routing

/-- `_ProductionRoutingArenaFn.forward`: the arenas are one where every level is tied. -/
def arenaForward (id : Tensor → ℕ) (layout : Layout) (routing : ResolvedRouting) : Walk :=
  walk id routing.fullyShared layout.heads layout.emptyLaunch routing

/-! ### The backward walk -/

/-- One backward launch: the spans of the forward's tensors it reads, the outputs whose cotangents it reads,
and the logit columns whose gradients it writes. -/
structure Grad where
  kind : Kind
  alpha : Option Alpha
  logits : List Span
  outputs : List Span
  cotangents : List Span
  midpoint : List Span
  support : List Span
  targets : List Span
deriving DecidableEq

/-- A factor's backward. -/
def gradFactor (op : Activation) (output : Tensor) (cotangents : List Tensor) (target : Tensor) (width logitOffset offset : ℕ)
    (supportOffset : ℤ) : Grad :=
  let outputs : List Span := [⟨output, offset, width⟩]
  let cotangents : List Span := cotangents.map fun tensor => ⟨tensor, offset, width⟩
  let targets : List Span := [⟨target, logitOffset, width⟩]
  match op with
  | .entmax alpha => ⟨.entmax, some alpha, [], outputs, cotangents, [], [⟨.supportWords, supportOffset, width⟩], targets⟩
  | .softmax => ⟨.softmax, none, [], outputs, cotangents, [], [], targets⟩

/-- One level of `backward`: the union levels passed, and the launches. -/
def gradLevel (routing : ResolvedRouting) (midpointOffsets : List ℕ) (st : ℕ × List Grad) (index : ℕ) (level : LevelRouting) :
    ℕ × List Grad :=
  let width := routing.branches.getD index 0
  let logitOffset := (routing.branches.take index).sum
  let offset := routing.levelOffsets.getD index 0
  let supportOffset := routing.supportOffsets.getD index (-1)
  match level with
  | .union _ alpha =>
    let logits : List Span := [⟨.readLogits, logitOffset, width⟩, ⟨.writeLogits, logitOffset, width⟩]
    let outputs : List Span := [⟨.readValues, offset, width⟩, ⟨.writeValues, offset, width⟩]
    (st.1 + 1, st.2 ++ [⟨.union, some alpha, logits, outputs, outputs, [⟨.midpoints, midpointOffsets.getD st.1 0, width⟩],
      [⟨.supportWords, supportOffset, width⟩], logits⟩])
  | .tied _ op =>
    (st.1, st.2 ++ [gradFactor op .readValues [.readValues, .writeValues] .writeLogits width logitOffset offset supportOffset])
  | .independent _ read write =>
    (st.1, st.2 ++ [gradFactor read .readValues [.readValues] .readLogits width logitOffset offset supportOffset,
      gradFactor write .writeValues [.writeValues] .writeLogits width logitOffset offset supportOffset])

/-- Either walk's `backward`, of the midpoint columns its forward saved. -/
def backward (routing : ResolvedRouting) (emptyLaunch : Bool) (midpointOffsets : List ℕ) : List Grad :=
  if emptyLaunch then []
  else (routing.levels.zipIdx.foldl (fun st x => gradLevel routing midpointOffsets st x.2 x.1) (0, [])).2

/-! ### The per-level definition -/

/-- `_torch_routing_factor_levels`: each level's read and write factor. -/
def torchRoutingFactorLevels (routing : ResolvedRouting) : List (Factor × Factor) :=
  routing.levels.zipIdx.map fun (level, index) =>
    let start := (routing.branches.take index).sum
    let read : Span := ⟨.readLogits, start, routing.branches.getD index 0⟩
    let write : Span := ⟨.writeLogits, start, routing.branches.getD index 0⟩
    match level with
    | .union _ alpha => (.unionRead alpha read write, .unionWrite alpha read write)
    | .tied _ op => (.activation op write, .activation op write)
    | .independent _ readOp writeOp => (.activation readOp read, .activation writeOp write)

end Rola.RoutingPlan
