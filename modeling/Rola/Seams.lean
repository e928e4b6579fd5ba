import Rola.DecodeLattice
import Rola.StateInv

/-!
# What a decode step is checked for

A step's operands meet five checks: `RouteFactors` and `LeafMassDecay` at their construction, the
decode family's `validate_context`, the state's `_decode_entry`, `step_plane`, and the host entry
`rola_decode_forward`. Operands are modelled by their shapes; `dim()` is the arity of the shape's
structure.
-/

namespace Rola

/-- `if not p: raise`. -/
def require (p : Prop) [Decidable p] (err : String) : Except String Unit := if p then .ok () else .error err

section Require

variable {α β : Type} {p : Prop} [Decidable p] {err : String}

theorem require_bind_ok {k : Unit → Except String α} {a : α} :
    (require p err >>= k) = .ok a ↔ p ∧ k () = .ok a := by
  unfold require
  by_cases hp : p
  · simp [hp, bind, Except.bind]
  · simp [hp, bind, Except.bind]

theorem bind_ok {x : Except String α} {k : α → Except String β} {b : β} :
    (x >>= k) = .ok b ↔ ∃ a, x = .ok a ∧ k a = .ok b := by
  cases x <;> simp [bind, Except.bind]

theorem require_ok {u : Unit} : require p err = .ok u ↔ p := by
  unfold require
  by_cases hp : p <;> simp [hp]

end Require

/-! ### Operands -/

/-- `[B, T, H]`. -/
structure ColumnShape where
  batch : ℕ
  tokens : ℕ
  heads : ℕ
deriving DecidableEq

/-- `[B, T, H, width]`. -/
structure LevelShape where
  batch : ℕ
  tokens : ℕ
  heads : ℕ
  width : ℕ
deriving DecidableEq

def LevelShape.lead (t : LevelShape) : ColumnShape := ⟨t.batch, t.tokens, t.heads⟩

def ColumnShape.level (c : ColumnShape) (width : ℕ) : LevelShape := ⟨c.batch, c.tokens, c.heads, width⟩

instance : ToString ColumnShape := ⟨fun c => s!"({c.batch}, {c.tokens}, {c.heads})"⟩

instance : ToString LevelShape := ⟨fun t => s!"({t.batch}, {t.tokens}, {t.heads}, {t.width})"⟩

/-- The fields of a routing bundle. -/
structure RouteTensors where
  widths : List ℕ
  read : List LevelShape
  write : List LevelShape
  gWrite : ColumnShape
  readMass : Option ColumnShape

/-- The first level that is not `[B, T, H, width_l]` under the bundle's own `[B, T, H]`. -/
def levelRefusal (lead : ColumnShape) (name : String) : ℕ → List LevelShape → List ℕ → Option String
  | l, t :: ts, w :: ws =>
    if t.width ≠ w then
      some s!"RouteFactors.{name}[{l}] is {t.width} wide but the topology's level {l} is {w}"
    else if t.lead ≠ lead then
      some s!"every routing level shares one [B, T, H] prefix; {name}[{l}] is {t.lead} against {lead}"
    else levelRefusal lead name (l + 1) ts ws
  | _, _, _ => none

def columnText (name : String) (lead column : ColumnShape) : String :=
  s!"RouteFactors.{name} must be a [B, T, H]={lead} tensor, got {column}"

/-- `RouteFactors.__post_init__`. -/
def RouteTensors.postInit (r : RouteTensors) : Except String Unit := do
  require (r.read.length = r.widths.length)
    s!"RouteFactors.read must hold one tensor per routing level (D={r.widths.length}), got {r.read.length}"
  require (r.write.length = r.widths.length)
    s!"RouteFactors.write must hold one tensor per routing level (D={r.widths.length}), got {r.write.length}"
  match r.read with
  | [] => .error s!"RouteFactors.g_write must be a [B, T, H]=None tensor, got {r.gWrite}"
  | first :: _ =>
    match (levelRefusal first.lead "read" 0 r.read r.widths).or
        (levelRefusal first.lead "write" 0 r.write r.widths) with
    | some err => .error err
    | none => do
      require (r.gWrite = first.lead) (columnText "g_write" first.lead r.gWrite)
      match r.readMass with
      | none => .ok ()
      | some mass => require (mass = first.lead) (columnText "read_mass" first.lead mass)

/-- A bundle its constructor accepted. -/
structure RouteFactors extends RouteTensors where
  checked : toRouteTensors.postInit = .ok ()

namespace RouteFactors

variable (r : RouteFactors)

/-- The shape every routing level shares. -/
def lead : ColumnShape := (r.read.headD ⟨0, 0, 0, 0⟩).lead

def batch : ℕ := r.lead.batch

def tokens : ℕ := r.lead.tokens

def heads : ℕ := r.lead.heads

/-- What the state's seams read of a bundle. -/
def routes : Routes := ⟨r.batch, r.heads, r.widths⟩

end RouteFactors

/-- `[H, width]`. -/
structure DialShape where
  heads : ℕ
  width : ℕ
deriving DecidableEq

/-- `LeafMassDecay`, as its constructor leaves it: nonempty, one head count across its levels. -/
structure LeafMassDecay where
  first : DialShape
  rest : List DialShape
  shared : ∀ d ∈ rest, d.heads = first.heads

def LeafMassDecay.dials (d : LeafMassDecay) : List DialShape := d.first :: d.rest

/-- `leaf_rate_dials`: the levels' dials, side by side. -/
def leafRateDials (decay : LeafMassDecay) (D : ℕ) : Except String DialShape :=
  if decay.dials.length ≠ D then
    .error s!"decay.dials must contain one tensor per level (D={D}), got {decay.dials.length}"
  else .ok ⟨decay.first.heads, (decay.dials.map DialShape.width).sum⟩

/-- `leaf_rate_dials_for`. -/
def leafRateDialsFor (decay : Option LeafMassDecay) (D : ℕ) : Except String (Option DialShape) :=
  match decay with
  | none => .ok none
  | some decay => (leafRateDials decay D).map some

/-! ### The frozen geometry -/

/-- What the binary and the device fix: the arms it carries, the SMs, the step's residency, the
shared memory of a block. -/
structure DecodeDevice where
  arms : List (ℕ × ℕ × Bool)
  sms : ℕ
  residency : Bool → ℕ → ℕ
  smemBudget : ℕ

structure DecodeGeometry where
  D : ℕ
  widths : List ℕ
  levelRowOffset : List ℕ
  latticeK : ℕ
  latticeM : ℕ
  dv : ℕ
  hasDecay : Bool
  nSplit : ℕ

namespace DecodeGeometry

def N (g : DecodeGeometry) : ℕ := g.widths.prod

def cols (g : DecodeGeometry) : ℕ := g.dv + 1

end DecodeGeometry

/-- `widths[l]`. -/
def widthAt (widths : List ℕ) (l : ℕ) : ℕ := widths.getD l 0

/-- `C_DECODE_UNITS_PER_CTA`. -/
def decodeUnitsPerCta : ℕ := 16

/-- `_shipped_decode_dv`. -/
def shippedDecodeDv (dev : DecodeDevice) (D : ℕ) (decay : Bool) : Except String (List ℕ) :=
  let dvs := (dev.arms.filterMap fun (dv, d, dec) => if d = D ∧ dec = decay then some dv else none).dedup
  if dvs = [] then
    .error (s!"no shipped decode arm at D={D}, decay={decay} -- there is no DV this call could be " ++
      "padded to")
  else .ok (dvs.insertionSort (· ≤ ·))

/-- `padded_value_width`. -/
def paddedValueWidth (dv : ℕ) (shipped : List ℕ) : Except String ℕ :=
  match shipped.find? fun width => dv ≤ width with
  | some width => .ok width
  | none => .error (s!"d_v={dv} exceeds every shipped value width {tupleText shipped.length (widthAt shipped)} " ++
      "for this op -- there is no padded width it can serve; a larger value width is a new arm, not a bigger pad.")

/-- `derive_n_split`. -/
def deriveNSplit (dev : DecodeDevice) (widths : List ℕ) (k m : ℕ) (decay : Bool) (BH : ℕ) : Except String ℕ :=
  match boxShape widths.length (widthAt widths) k m with
  | .error err => .error err
  | .ok box =>
    let unitCeiling := widths.prod / box.s (widths.length - 1)
    let wave := max 1 (dev.sms * dev.residency decay widths.length / max 1 BH)
    let supply := max 1 ((unitCeiling + decodeUnitsPerCta - 1) / decodeUnitsPerCta)
    .ok (min supply wave)

/-- `derive_decode_geometry`. -/
def deriveDecodeGeometry (dev : DecodeDevice) (widths : List ℕ) (dv : ℕ) (decay : Bool) (BH : ℕ) :
    Except String DecodeGeometry := do
  let _ ← StateFormat.validate ⟨widths.length, widths, 2, 1⟩
  let shipped ← shippedDecodeDv dev widths.length decay
  let dv ← paddedValueWidth dv shipped
  let (k, m) := deriveLattice widths.length (widthAt widths)
  let nSplit ← deriveNSplit dev widths k m decay BH
  .ok
    { D := widths.length
      widths := widths
      levelRowOffset := (List.range widths.length).map fun l => (widths.take l).sum
      latticeK := k
      latticeM := m
      dv := dv
      hasDecay := decay
      nSplit := nSplit }

/-! ### The backing a step indexes -/

/-- The buffers of an arena's slack pool, `[BH, capacity]`, `[BH]` and `[BH, atoms]`. -/
structure PoolShape where
  BH : ℕ
  capacity : ℕ
  atoms : ℕ

/-- What `_decode_entry` hands back: a dense plane, or an arena's plane, table and pool. -/
inductive Carried where
  | dense (plane : Shape)
  | paged (cols tableBH tableAtoms : ℕ) (pool : Option PoolShape)

/-- What the kernel indexes: `[BH, N, cols]`, or `[slots, 16, cols]` under a table. -/
inductive StatePlane where
  | dense (BH N cols : ℕ)
  | paged (cols tableBH tableAtoms : ℕ) (pool : Option PoolShape)

def StatePlane.isPaged : StatePlane → Bool
  | .dense .. => false
  | .paged .. => true

/-- `step_plane`. -/
def stepPlane (v : LevelShape) (config : DecodeGeometry) (decay : Bool) (state : Carried) :
    Except String StatePlane := do
  require (v.width = config.dv) ("v's d_v=" ++ s!"{v.width} disagrees with the frozen config" ++ "'s " ++ s!"{config.dv}")
  require (decay = config.hasDecay)
    (s!"the frozen config says has_decay={config.hasDecay} but decay is " ++
      (if decay then "present" else "absent") ++ "; the config is frozen for the sequence and the decay arm " ++
      "is part of it")
  match state with
  | .dense plane => do
    require (plane = ⟨v.batch, v.heads, config.N, config.cols⟩)
      (s!"a dense state is [B, H, N, d_v + 1] = ({v.batch}, {v.heads}, {config.N}, {config.cols}), got " ++
        s!"({plane.B}, {plane.H}, {plane.N}, {plane.cols})")
    .ok (.dense (v.batch * v.heads) config.N config.cols)
  | .paged cols tableBH tableAtoms pool => do
    require (cols = config.cols)
      (s!"under a page table the state is the arena's plane, [slots, {mmaKQuantum}, d_v + 1], got " ++
        s!"(.., {mmaKQuantum}, {cols})")
    require ((tableBH, tableAtoms) = (v.batch * v.heads, config.N / mmaKQuantum))
      (s!"page_table must be [BH, N / {mmaKQuantum}] = ({v.batch * v.heads}, {config.N / mmaKQuantum}), got " ++
        s!"({tableBH}, {tableAtoms})")
    .ok (.paged cols tableBH tableAtoms pool)

/-! ### The host entry -/

/-- `span_of`. -/
def spanOf (t : LevelShape) (BH width : ℕ) (name : String) : Except String Unit := do
  require (t.tokens = 1) s!"{name} must be [B, 1, H, W], got {t}"
  require (t.batch * t.heads = BH) s!"{name} folds to {t.batch * t.heads} batch-heads against {BH}"
  require (width = 0 ∨ t.width = width) s!"{name} is {t.width} wide against {width}"

/-- `scalar_span_of`. -/
def scalarSpanOf (t : ColumnShape) (BH : ℕ) (name : String) : Except String Unit := do
  require (t.tokens = 1) s!"{name} must be [B, 1, H], got {t}"
  require (t.batch * t.heads = BH) s!"{name} folds to {t.batch * t.heads} batch-heads against {BH}"

/-- One `span_of` for each level, in order. -/
def spansOf (name : String) (BH : ℕ) (levelWidth : ℕ → ℕ) : ℕ → List LevelShape → Except String Unit
  | _, [] => .ok ()
  | l, t :: ts => do
    spanOf t BH (levelWidth l) s!"{name}[{l}]"
    spansOf name BH levelWidth (l + 1) ts

/-- The loop of `fill_levels`: each level's capacity, then its span. -/
def writeSpansOf (BH : ℕ) (levelWidth : ℕ → ℕ) : ℕ → List LevelShape → Except String Unit
  | _, [] => .ok ()
  | l, t :: ts => do
    require (1 ≤ levelWidth l ∧ levelWidth l ≤ decodeMaxLevelWidth)
      (s!"level {l} width {levelWidth l} exceeds the decode path's capacity {decodeMaxLevelWidth} " ++
        "(see kProducerMaxBranchWidth)")
    spanOf t BH (levelWidth l) s!"write[{l}]"
    writeSpansOf BH levelWidth (l + 1) ts

/-- The buffers of a step's `DecodeScratch`: `ws`'s split, and the batch-heads, columns and leaves all
of them were built for. -/
structure ScratchShape where
  BH : ℕ
  nSplit : ℕ
  cols : ℕ
  N : ℕ

/-- `decode_step_smem_bytes`. -/
def decodeStepSmemBytes (p : DecodeParams) (dv cols : ℕ) (decay : Bool) : ℕ :=
  let amps := p.totalRows * if decay then 3 else 2
  let fold := decodeThreads / 32 * (cols + 3)
  let words (n : ℕ) := (n + 31) / 32
  let tables := 2 * ∑ l ∈ Finset.range p.D, words (p.levelWidth l) +
    4 * ∑ l ∈ Finset.range p.D, words (p.latG l) + 4 * ∑ l ∈ Finset.range p.D, p.latG l +
    ∑ l ∈ Finset.range (p.D - 1), p.levelWidth l
  (amps + dv + fold + tables) * 4

/-- `launch_decode_step`, up to its launch. -/
def launchDecodeStep (dev : DecodeDevice) (p : DecodeParams) (dv : ℕ) (decay : Bool) : Except String Unit := do
  require (dv = 32 ∨ dv = 64) s!"decode instantiates d_v in \x7b32, 64\x7d, got {dv}"
  require (decodeStepSmemBytes p dv (dv + 1) decay ≤ dev.smemBudget)
    (s!"the decode step's staged operands need {decodeStepSmemBytes p dv (dv + 1) decay} B of shared memory " ++
      s!"against a per-block budget of {dev.smemBudget} B; sum_l width_l = {p.totalRows}. This is a declared " ++
      "capacity, refused loudly rather than taken as a slower path.")
  require ((dv, p.D, decay) ∈ dev.arms)
    (s!"this binary does not carry the decode arm (d_v = {dv}, D = {p.D}, decay = {decay}). A full build " ++
      "carries every declared arm; an ITERATION build (ROLA_DECODE_ARMS) carries a subset and is not shippable " ++
      "-- rola.ops.decode.arms() lists what this one has.")

/-- The state plane's checks in `rola_decode_forward`, and the leaves it holds. -/
def planeLeaves (plane : StatePlane) (levelWidths : List ℕ) (BH cols : ℕ) : Except String ℕ :=
  match plane with
  | .paged planeCols tableBH tableAtoms _ => do
    require (tableBH = BH) s!"page_table must be [BH, N / {mmaKQuantum}] int32"
    require (planeCols = cols)
      s!"under a page table the state is the arena's plane, [slots, {mmaKQuantum}, d_v + 1]"
    .ok (tableAtoms * mmaKQuantum)
  | .dense planeBH planeN planeCols => do
    require (planeBH = BH ∧ planeCols = cols) "state must be [BH, N, d_v + 1]"
    require (levelWidths.prod % mmaKQuantum = 0)
      (s!"THERE IS NO RAGGED STATE: N = prod_l B_l must be a whole number of {mmaKQuantum}-leaf pages, and a " ++
        "lawful routing makes it one (every B_l a power of two at or above 16). PREFILL AND DECODE SHARE ONE " ++
        s!"ADMISSION LAW; got N = {levelWidths.prod}")
    require (planeN = levelWidths.prod)
      s!"a dense state is [BH, N, d_v + 1] with N = {levelWidths.prod}; got {planeN}"
    .ok levelWidths.prod

/-- The pool's checks: its three buffers against the table. -/
def poolChecks (plane : StatePlane) (BH atoms : ℕ) : Except String Unit :=
  match plane with
  | .paged _ _ _ (some pool) => do
    require (pool.BH = BH) s!"pool_slots must be [BH, pool_cap] int32, got ({pool.BH}, {pool.capacity})"
    require (pool.atoms = atoms) s!"pool_map must be the page table's shape [BH, N / {mmaKQuantum}] int32"
  | _ => .ok ()

def dialsCheck (dials : Option DialShape) (H totalRows : ℕ) : Except String Unit :=
  match dials with
  | none => .ok ()
  | some dials => require (dials = ⟨H, totalRows⟩) "dials must be [H, sum_l width_l]"

/-- `rola_decode_forward`, up to its launch. -/
def rolaDecodeForward (dev : DecodeDevice) (read write : List LevelShape) (dials : Option DialShape)
    (gWrite : ColumnShape) (v : LevelShape) (plane : StatePlane) (scratch : ScratchShape)
    (levelWidths levelRowOffsets : List ℕ) (latticeK latticeM nSplit : ℕ) : Except String DecodeParams := do
  let D := read.length
  require (1 ≤ D ∧ D ≤ maxLevels) s!"D must be in [1, 4], got {D}"
  require (write.length = D ∧ levelWidths.length = D ∧ levelRowOffsets.length = D)
    "read, write, normalize and the two per-level integer vectors must each have D entries"
  require (v.tokens = 1) s!"v must be [B, 1, H, d_v], got {v}"
  let BH := v.batch * v.heads
  let cols := v.width + 1
  let N ← planeLeaves plane levelWidths BH cols
  writeSpansOf BH (widthAt levelWidths) 0 write
  let p ← decodeParams D (widthAt levelWidths) latticeK latticeM N
  spansOf "read" BH (widthAt levelWidths) 0 read
  scalarSpanOf gWrite BH "g_write"
  spanOf v BH v.width "v"
  require (1 ≤ nSplit) s!"n_split must be >= 1, got {nSplit}"
  require (scratch.BH = BH ∧ scratch.nSplit = nSplit ∧ scratch.cols = cols) "ws must be [BH, n_split, cols]"
  require (scratch.N = N) s!"atom_bits must be [BH, N / {mmaKQuantum}] bool"
  require (plane.isPaged → atomShift ≤ p.latLocalBits)
    (s!"a paged decode needs one walk unit's leaves to hold a whole number of {mmaKQuantum}-leaf atoms, and " ++
      s!"this (k, m) gives an owner only {2 ^ p.latLocalBits} (the innermost span must cover an atom)")
  dialsCheck dials v.heads p.totalRows
  poolChecks plane BH (N / mmaKQuantum)
  launchDecodeStep dev p v.width dials.isSome
  .ok p

/-! ### The calls a state serves -/

namespace RoLAState

variable {Page : Type} [Zero Page]

/-- What `_decode_entry` returns. -/
def carried (s : RoLAState Page) (shape : Shape) : Carried :=
  match s.arena with
  | some a => .paged a.config.cols a.config.BH a.config.atomsPerBh
      (if a.config.poolCapacity = 0 then none else some ⟨a.config.BH, a.config.poolCapacity, a.config.atomsPerBh⟩)
  | none => .dense shape

/-- `validate_context` of the decode family. -/
def validateContext (routes : RouteFactors) (grad : Bool) (s : RoLAState Page) : Except String Unit := do
  require s.carries noCarry
  require (routes.tokens = 1) s!"the decode op consumes exactly one token, got T={routes.tokens}"
  require (grad = false)
    ("rola decode is forward-only: the single-token arm has no reverse pass -- the two-pass backward is the " ++
      "chunk arm's. Reaching it from a grad-requiring context would return a tensor with no grad_fn and " ++
      "silently sever the graph (the x.grad-is-None failure class). Use eval mode / torch.no_grad.")

/-- One walk of the decode family's nodes, up to the launch. -/
def decodeCall (dev : DecodeDevice) (routes : RouteFactors) (v : LevelShape) (decay : Option LeafMassDecay)
    (grad : Bool) (s : RoLAState Page) : Except String DecodeParams := do
  validateContext routes grad s
  let BH := routes.batch * routes.heads
  let config ← deriveDecodeGeometry dev routes.widths v.width decay.isSome BH
  decodeEntry routes.routes s
  match s.shape with
  | none => .error "'NoneType' object is not subscriptable"
  | some shape => do
    let plane ← stepPlane v config decay.isSome (s.carried shape)
    let dials ← leafRateDialsFor decay config.D
    rolaDecodeForward dev routes.read routes.write dials routes.gWrite v plane
      ⟨BH, config.nSplit, config.cols, config.N⟩ config.widths config.levelRowOffset config.latticeK
      config.latticeM config.nSplit

/-- A call on a state, with its operands' shapes. -/
inductive SeamCall (Page : Type) where
  | prefill (grow : Grow) (base : ℕ → Page) (routes : RouteFactors) (bitmap : Option AtomBitmap) (dv : ℕ)
      (paging : Bool) (BC : ℕ) (store : ℕ → Page)
  | decode (dev : DecodeDevice) (routes : RouteFactors) (v : LevelShape) (decay : Option LeafMassDecay)
      (grad : Bool) (launch : ∀ c, DecodeCall c Page) (plane : ℕ → Page)
  | admission (grow : Grow) (bitmap : AtomBitmap)
  | refill (grow : Grow)

/-- What the launch of a step leaves. -/
def afterStep (launch : ∀ c, DecodeCall c Page) (plane : ℕ → Page) (s : RoLAState Page) : RoLAState Page :=
  match s.arena with
  | some a => { s with arena := some { a with pages := a.pages.decodeStep (launch a.config) } }
  | none => { s with plane := some plane }

/-- A call's outcome, and the state it left. -/
def serve (s : RoLAState Page) : SeamCall Page → Except String Unit × RoLAState Page
  | .prefill grow base routes bitmap dv paging BC store =>
    match s.kernelEntry grow base routes.routes bitmap dv paging BC with
    | (.error err, s) => (.error err, s)
    | (.ok (), s) => (.ok (), s.afterPrefill (bitmap.map AtomBitmap.bits) store)
  | .decode dev routes v decay grad launch plane =>
    match s.decodeCall dev routes v decay grad with
    | .error err => (.error err, s)
    | .ok _ => (.ok (), s.afterStep launch plane)
  | .admission grow bitmap => s.decodeEntryArena grow bitmap
  | .refill grow => s.refillPool grow

end RoLAState

end Rola
