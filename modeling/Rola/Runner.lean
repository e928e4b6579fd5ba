import Mathlib.Data.List.Basic
import Mathlib.Logic.Basic

/-!
# The walk of a declared graph

`rola/engine/runner.py`: `validate_dag` checks a tuple's order once, at import; `run` walks it over a bag
of facts, skipping a node by the call's mask or because its facts are already there.
-/

namespace Rola.Graph

/-- `Mask`: the call classes a graph specializes over. -/
inductive Mask where
  | m1 | m2 | m3 | m4
  deriving DecidableEq

/-- The facts the walk itself reads, and the set a caller may supply. -/
class FactNames (Fact : Type) where
  mask : Fact
  state : Fact
  suppliable : List Fact
  mask_not_suppliable : mask ∉ suppliable

/-- A fact's values: `None`, and the mask a value may be. -/
class FactValue (V : Type) where
  null : V
  asMask : V → Option Mask
  asMask_null : asMask null = none

/-- `Node`, less its body, its stream and its capture marks. The two inclusions are `node`'s own refusals. -/
structure Node (Fact : Type) [FactNames Fact] where
  name : String
  gives : List Fact := []
  needs : List Fact := []
  masks : List Mask := [.m1, .m2]
  waits : List String := []
  hostSync : Bool := false
  pureOf : List Fact := []
  perState : Bool := false
  referenceOnly : Bool := false
  pure_sub : ∀ f ∈ pureOf, f ∈ needs := by decide
  state_mem : perState = true → FactNames.state ∈ needs := by decide
  deriving DecidableEq

/-- The dict of facts. -/
abbrev Bag (Fact V : Type) := Fact → Option V

section Validate
variable {Fact : Type} [FactNames Fact] [DecidableEq Fact]

inductive DagRefusal (Fact : Type) where
  /-- "no earlier node or seed produces them". -/
  | missing (name : String) (facts : List Fact)
  /-- "exactly one Join per DAG". -/
  | joins (names : List String)
  /-- "at most one device-to-host read per DAG". -/
  | syncs (names : List String)
  /-- "a reference_only node is a gate's INDEPENDENT second derivation". -/
  | referenceOnly (names : List String)

/-- The facts a walk has by the end of a tuple, whatever its masks. -/
def available (seeds : List Fact) (dag : List (Node Fact)) : List Fact := seeds ++ dag.flatMap (·.gives)

def validateStep (avail : List Fact) (step : Node Fact) : Except (DagRefusal Fact) (List Fact) :=
  let missing := step.needs.filter (· ∉ avail)
  if missing ≠ [] then .error (.missing step.name missing) else .ok (avail ++ step.gives)

def validateDag (dag : List (Node Fact)) (seeds : List Fact) : Except (DagRefusal Fact) Unit := do
  let _ ← dag.foldlM validateStep seeds
  let joins := (dag.filter (·.waits ≠ [])).map (·.name)
  if 1 < joins.length then throw (.joins joins)
  let syncs := (dag.filter (·.hostSync)).map (·.name)
  if 1 < syncs.length then throw (.syncs syncs)
  let enumerated := (dag.filter (·.referenceOnly)).map (·.name)
  if enumerated ≠ [] then throw (.referenceOnly enumerated)

end Validate

section Walk
variable {Fact V : Type} [FactNames Fact] [DecidableEq Fact] [DecidableEq V] [FactValue V]

/-- The nodes' bodies: a node's call returns one value for each declared output, or raises. -/
abbrev Bodies (Fact V : Type) [FactNames Fact] := Node Fact → Bag Fact V → Except String (List V)

/-- A memoized call's key: the state it belongs to, and the facts it is a function of. -/
def Node.key (n : Node Fact) (bag : Bag Fact V) : Option V × List (Option V) :=
  (if n.perState then bag FactNames.state else none, n.pureOf.map bag)

/-- `table`: whether a node is cached at all. -/
def Node.cached (n : Node Fact) : Bool := n.perState || n.pureOf ≠ []

/-- The nodes' own caches. -/
abbrev Memo (Fact V : Type) [FactNames Fact] := Node Fact → Option V × List (Option V) → Option (List V)

inductive WalkError (Fact : Type) where
  /-- "was reached without". -/
  | reachedWithout (name : String) (absent : List Fact)
  /-- A body raised. -/
  | raised (error : String)
  /-- `zip(..., strict=True)`: a body returned another number of values. -/
  | arity (name : String)

/-- A mask is in the bag and is none of the node's. -/
def Node.masked (n : Node Fact) (bag : Bag Fact V) : Bool :=
  match (bag FactNames.mask).bind FactValue.asMask with
  | some mask => mask ∉ n.masks
  | none => false

/-- The node's facts are already in the bag. -/
def Node.present (n : Node Fact) (bag : Bag Fact V) : Bool := n.gives ≠ [] ∧ ∀ f ∈ n.gives, bag f ≠ none

/-- A masked node's facts, seeded null. -/
def seedNull (bag : Bag Fact V) (gives : List Fact) : Bag Fact V := fun f =>
  if f ∈ gives ∧ bag f = none then some FactValue.null else bag f

/-- `facts.update(dict(zip(gives, produced)))`: a repeated name keeps the last of its values. -/
def produce (bag : Bag Fact V) (gives : List Fact) (produced : List V) : Bag Fact V :=
  (gives.zip produced).foldl (fun bag p => Function.update bag p.1 (some p.2)) bag

def Node.fetch (body : Bodies Fact V) (n : Node Fact) (st : Memo Fact V × Bag Fact V) :
    Except (WalkError Fact) (Memo Fact V × List V) :=
  match if n.cached then st.1 n (n.key st.2) else none with
  | some produced => .ok (st.1, produced)
  | none =>
    match body n st.2 with
    | .error e => .error (.raised e)
    | .ok produced =>
      .ok (if n.cached then Function.update st.1 n (Function.update (st.1 n) (n.key st.2) (some produced)) else st.1, produced)

def runStep (body : Bodies Fact V) (st : Memo Fact V × Bag Fact V) (n : Node Fact) :
    Except (WalkError Fact) (Memo Fact V × Bag Fact V) :=
  if n.masked st.2 then .ok (st.1, seedNull st.2 n.gives)
  else if n.present st.2 then .ok st
  else
    let absent := n.needs.filter fun f => st.2 f = none
    if absent ≠ [] then .error (.reachedWithout n.name absent)
    else
      match n.fetch body st with
      | .error e => .error e
      | .ok (memo, produced) =>
        if n.gives = [] then .ok (memo, st.2)
        else if produced.length ≠ n.gives.length then .error (.arity n.name)
        else .ok (memo, produce st.2 n.gives produced)

/-- `run`, over the nodes' caches as earlier calls left them. -/
def run (body : Bodies Fact V) (dag : List (Node Fact)) (st : Memo Fact V × Bag Fact V) :
    Except (WalkError Fact) (Memo Fact V × Bag Fact V) := dag.foldlM (runStep body) st

/-- The node is called: neither masked nor already there. -/
def Node.Executes (n : Node Fact) (bag : Bag Fact V) : Prop := n.masked bag = false ∧ n.present bag = false

end Walk

/-! ### The chunk family's tuple -/

/-- The facts of `CHUNK_DAG`, the seeds first. -/
inductive ChunkFact where
  | routes | v | decay | state | expert | wantState | givenStateIn | givenArena
  | paging | widths | dV | callClass | mask | manifest | arm | readPlane | writePlane | gWrite | readMass | vPacked
  | unionTable | atomBits | stateIn | arena | pageTable | stateOut | blockBits | runTable | plan
  deriving DecidableEq

/-- `SUPPLIABLE`. -/
instance : FactNames ChunkFact where
  mask := .mask
  state := .state
  suppliable := [.routes, .readPlane, .writePlane, .gWrite, .readMass]
  mask_not_suppliable := by decide

open ChunkFact in
/-- `_SEEDS`. -/
def chunkSeeds : List ChunkFact := [routes, v, decay, state, expert, wantState, givenStateIn, givenArena]

open ChunkFact in
/-- `pack_planes`. -/
def packPlanes : Node ChunkFact where
  name := "pack_planes"
  gives := [readPlane, writePlane, gWrite, readMass]
  needs := [routes]

open ChunkFact in
/-- `CHUNK_DAG`. -/
def chunkDag : List (Node ChunkFact) :=
  [{ name := "paging_preference", gives := [paging], needs := [expert] },
   { name := "topology", gives := [widths, dV], needs := [routes, v] },
   { name := "classify_call", gives := [callClass],
     needs := [routes, v, decay, state, givenStateIn, givenArena, wantState, paging] },
   { name := "mask", gives := [mask], needs := [callClass] },
   { name := "manifest", gives := [manifest] },
   { name := "arm", gives := [arm], needs := [widths, manifest] },
   packPlanes,
   { name := "pack_v", gives := [vPacked], needs := [v] },
   { name := "facts_tables", gives := [unionTable, atomBits], needs := [readPlane, writePlane, arm, widths, mask] },
   { name := "residency", gives := [stateIn, arena],
     needs := [state, givenStateIn, givenArena, routes, dV, atomBits, paging, arm], masks := [.m2], hostSync := true },
   { name := "join", needs := [arena], masks := [.m2], waits := ["residency"] },
   { name := "backing", gives := [pageTable, stateOut], needs := [arena, stateIn, wantState, routes, dV] },
   { name := "block_bits", gives := [blockBits], needs := [unionTable, arm, widths, routes, pageTable] },
   { name := "run_table", gives := [runTable], needs := [stateIn, stateOut, pageTable] },
   { name := "build_plan", gives := [plan],
     needs := [callClass, arm, widths, dV, v, vPacked, routes, readPlane, writePlane, gWrite, readMass, unionTable, blockBits,
       pageTable, atomBits, stateIn, stateOut, runTable] }]

end Rola.Graph
