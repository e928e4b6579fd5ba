import Rola.Arena

/-!
# The carried state

`rola/_state.py`: a state is unbound until the first call binds its shape, its format and its
backing; afterwards every call is checked against the format. The backing is a dense plane, one page
for each atom, or an arena. A method returns its outcome and the state it left, raised or not.
-/

namespace Rola

/-- The bits of the page rectangle, `PAGE_RECTANGLE_BITS`. -/
def pageRectangleBits : ℕ := 4

def minLevelWidth : ℕ := 16

/-- What a call's routes name: the batch, the heads and the topology's widths. -/
structure Routes where
  batch : ℕ
  heads : ℕ
  widths : List ℕ
deriving DecidableEq

/-- One batch-head over one level of 16 leaves: one atom. -/
def oneAtom : Routes := ⟨1, 1, [16]⟩

/-- `StateFormat`, less the leaf order, page rectangle and dtype: constants of the build. -/
structure StateFormat where
  D : ℕ
  B : List ℕ
  DV : ℕ
  ids : ℕ
deriving DecidableEq

namespace StateFormat

def N (f : StateFormat) : ℕ := f.B.prod

/-- `__post_init__`. -/
def validate (f : StateFormat) : Except String StateFormat :=
  if f.B.length ≠ f.D then
    .error s!"a descriptor names D={f.D} levels and {f.B.length} widths"
  else match f.B.findIdx? fun width => width &&& (width - 1) ≠ 0 ∨ width < minLevelWidth with
    | some level => .error (s!"B_l is a power of two at or above {minLevelWidth} (the axis law: " ++
        "the floor is K_max, which is what keeps every span inside one level's run and the atom " ++
        s!"inside one level); level {level} is {f.B.getD level 0}")
    | none =>
      if f.DV % 2 ≠ 0 then
        .error ("the split planes address a PAIR of value columns per 32-bit access, so DV is " ++
          s!"even; got {f.DV}")
      else if f.N % 2 ^ pageRectangleBits ≠ 0 then
        .error (s!"THERE IS NO RAGGED STATE: N = {f.N} is not a whole number of " ++
          s!"{2 ^ pageRectangleBits}-leaf pages. Under the law above N = prod_l B_l with every " ++
          "B_l a power of two at or above 16, so a lawful state is page aligned by construction; " ++
          "a ragged one is refused here rather than padded or split across a tail page " ++
          "(docs/internals/state.md#format)")
      else .ok f

def mismatch (field mine theirs : String) : String :=
  s!"this state was bound with {field}={mine} and the call presents {field}={theirs}. A state " ++
    "carries its FORMAT: its leaf order, its page rectangle and its value width are what every " ++
    "kernel derives its addressing from, so a call that disagrees is refused here rather than " ++
    "reading somebody else's bytes. Bind a fresh rola.state() for this shape."

/-- `check`: refuse `other` by the first field that differs. -/
def check (mine other : StateFormat) : Except String Unit :=
  if mine.D ≠ other.D then .error (mismatch "D" (toString mine.D) (toString other.D))
  else if mine.B ≠ other.B then
    .error (mismatch "B" (tupleText mine.B.length fun l => mine.B.getD l 0)
      (tupleText other.B.length fun l => other.B.getD l 0))
  else if mine.DV ≠ other.DV then .error (mismatch "DV" (toString mine.DV) (toString other.DV))
  else if mine.ids ≠ other.ids then .error (mismatch "ids" (toString mine.ids) (toString other.ids))
  else .ok ()

theorem check_eq_ok {mine other : StateFormat} : check mine other = .ok () ↔ mine = other := by
  unfold check
  rcases mine with ⟨D, B, DV, ids⟩
  rcases other with ⟨D', B', DV', ids'⟩
  simp only [StateFormat.mk.injEq]
  by_cases h1 : D = D'
  · by_cases h2 : B = B'
    · by_cases h3 : DV = DV'
      · by_cases h4 : ids = ids' <;> simp [h1, h2, h3, h4]
      · simp [h1, h2, h3]
    · simp [h1, h2]
  · simp [h1]

end StateFormat

/-- `_format_of`: the descriptor a call presents. -/
def formatOf (routes : Routes) (dv BH : ℕ) : Except String StateFormat :=
  StateFormat.validate
    { D := routes.widths.length
      B := routes.widths
      DV := dv
      ids := BH * (routes.widths.prod >>> pageRectangleBits) }

theorem formatOf_ok {routes : Routes} {dv BH : ℕ} {f : StateFormat} (h : formatOf routes dv BH = .ok f) :
    f = ⟨routes.widths.length, routes.widths, dv, BH * (routes.widths.prod >>> pageRectangleBits)⟩ := by
  unfold formatOf StateFormat.validate at h
  split at h
  · cases h
  split at h
  · cases h
  split at h
  · cases h
  split at h
  · cases h
  exact (Except.ok.inj h).symm

/-- `[B, H, N, cols]`. -/
structure Shape where
  B : ℕ
  H : ℕ
  N : ℕ
  cols : ℕ
deriving DecidableEq

/-- A `PageArena` object: its policy, what it was built for, and its pages. -/
structure Arena (Page : Type) where
  config : ArenaConfig
  widths : List ℕ
  BC : ℕ
  pages : PageArena Page

structure RoLAState (Page : Type) where
  poolSlack : ℚ
  shape : Option Shape
  paging : Bool
  arena : Option (Arena Page)
  /-- The dense plane, a page for each atom id. -/
  plane : Option (ℕ → Page)
  format : Option StateFormat

/-- What a `PageArena` constructor checks before it allocates. -/
def arenaConfig (shape : Shape) (widths : List ℕ) (BC : ℕ) (poolSlack : ℚ) : Except String ArenaConfig :=
  if widths.prod % mmaKQuantum ≠ 0 then
    .error (s!"N={widths.prod} must be a whole number of {mmaKQuantum}-leaf atoms (the page " ++
      "granule is geometry-owned and fixed across every config forever, so a topology whose leaf " ++
      "count is not a multiple of it has no page keying at all)")
  else if BC % mmaKQuantum ≠ 0 then
    .error (s!"BC={BC} must be a whole number of {mmaKQuantum}-leaf atoms; every legal BC is by " ++
      "construction")
  else ArenaConfig.make (shape.B * shape.H) (widths.prod / mmaKQuantum) shape.cols (BC / mmaKQuantum)
    poolSlack

namespace RoLAState

variable {Page : Type} [Zero Page]

/-- `rola.state(pool_slack=…)`. -/
def new (poolSlack : ℚ) : RoLAState Page :=
  { poolSlack := poolSlack, shape := none, paging := true, arena := none, plane := none, format := none }

def carries (s : RoLAState Page) : Bool := s.arena.isSome || s.plane.isSome

/-- `_new_arena`. -/
def newArena (grow : Grow) (base : ℕ → Page) (shape : Shape) (widths : List ℕ) (BC : ℕ)
    (poolSlack : ℚ) : Except String (Arena Page) :=
  match arenaConfig shape widths BC poolSlack with
  | .error err => .error err
  | .ok config =>
    match PageArena.allocate config grow base with
    | (.error err, _) => .error err
    | (.ok (), pages) => .ok ⟨config, widths, BC, pages⟩

/-- `plan_exact` on an arena object. -/
def planArena (grow : Grow) (bits : Option (ℕ → Bool)) (fresh : Bool) (a : Arena Page) :
    Except String Unit × Arena Page :=
  match bits with
  | none => (.error "'NoneType' object has no attribute 'shape'", a)
  | some bits =>
    let r := a.pages.planExact a.config grow (PageArena.ownBitmap a.config bits) fresh
    (r.1.map fun _ => (), { a with pages := r.2 })

/-- The bound half of `_kernel_entry`: the backing is continued, or a fresh arena is planned. -/
def enterBacking (grow : Grow) (base : ℕ → Page) (routes : Routes) (bits : Option (ℕ → Bool)) (BC : ℕ)
    (shape : Shape) (s : RoLAState Page) : Except String Unit × RoLAState Page :=
  match s.arena with
  | some a =>
    let r := planArena grow bits false a
    (r.1, { s with arena := some r.2 })
  | none =>
    if s.plane.isSome then (.ok (), s)
    else if !s.paging then (.ok (), s)
    else match newArena grow base shape routes.widths BC s.poolSlack with
      | .error err => (.error err, s)
      | .ok a =>
        match planArena grow bits true a with
        | (.error err, _) => (.error err, s)
        | (.ok (), a) => (.ok (), { s with arena := some a })

/-- `atom_bits.reshape(BH, atoms_per_bh)`. -/
def reshape (shape : Shape) (bitmap : AtomBitmap) : Except String (ℕ → Bool) :=
  if bitmap.BH * bitmap.atoms ≠ shape.B * shape.H * (shape.N >>> pageRectangleBits) then
    .error s!"shape '[{shape.B * shape.H}, {shape.N >>> pageRectangleBits}]' is invalid for input of size {
      bitmap.BH * bitmap.atoms}"
  else .ok bitmap.bits

/-- The bitmap of a call, reshaped, and then the backing. -/
def enterBitmap (grow : Grow) (base : ℕ → Page) (routes : Routes) (bitmap : Option AtomBitmap) (BC : ℕ)
    (shape : Shape) (s : RoLAState Page) : Except String Unit × RoLAState Page :=
  match bitmap with
  | none => enterBacking grow base routes none BC shape s
  | some bitmap =>
    match reshape shape bitmap with
    | .error err => (.error err, s)
    | .ok bits => enterBacking grow base routes (some bits) BC shape s

/-- `_kernel_entry`. -/
def kernelEntry (grow : Grow) (base : ℕ → Page) (routes : Routes) (bitmap : Option AtomBitmap)
    (dv : ℕ) (paging : Bool) (BC : ℕ) (s : RoLAState Page) : Except String Unit × RoLAState Page :=
  match formatOf routes dv (routes.batch * routes.heads) with
  | .error err => (.error err, s)
  | .ok presented =>
    match s.shape with
    | none =>
      let shape := ⟨routes.batch, routes.heads, routes.widths.prod, dv + 1⟩
      enterBitmap grow base routes bitmap BC shape
        { s with shape := some shape, paging := paging, format := some presented }
    | some shape =>
      match s.format with
      | none => (.error "'NoneType' object has no attribute 'check'", s)
      | some format =>
        match format.check presented with
        | .error err => (.error err, s)
        | .ok () => enterBitmap grow base routes bitmap BC shape s

/-- `_kernel_commit`. -/
def kernelCommit (plane : ℕ → Page) (s : RoLAState Page) : RoLAState Page :=
  if s.arena.isNone && s.plane.isNone then { s with plane := some plane } else s

def noCarry : String :=
  "a decode step continues a carried state, and this one carries nothing: at T = 1 there is no " ++
    "prefill to run and no entry state to read. Run the sequence's first tokens through rola_op and " ++
    "step from the state it returns."

/-- `_decode_entry`: the checks of a step against the state it continues. -/
def decodeEntry (routes : Routes) (s : RoLAState Page) : Except String Unit :=
  if !s.carries then .error noCarry
  else match s.shape, s.format with
    | some shape, some format =>
      match formatOf routes format.DV (shape.B * shape.H) with
      | .error err => .error err
      | .ok presented => format.check presented
    | _, _ => .error "'NoneType' object has no attribute 'check'"

/-- `_decode_entry_arena`. -/
def decodeEntryArena (grow : Grow) (bitmap : AtomBitmap) (s : RoLAState Page) :
    Except String Unit × RoLAState Page :=
  match s.arena, s.shape with
  | none, _ => (.error "a growth admission wants a paged state; this one is dense", s)
  | some _, none => (.error "cannot unpack non-iterable NoneType object", s)
  | some a, some shape =>
    match reshape shape bitmap with
    | .error err => (.error err, s)
    | .ok bits =>
      let r := planArena grow (some bits) false a
      (r.1, { s with arena := some r.2 })

/-- `refill_pool(state)` of the decode family. -/
def refillPool (grow : Grow) (s : RoLAState Page) : Except String Unit × RoLAState Page :=
  match s.arena with
  | none => (.error "a pool refill wants a paged state; this one is dense", s)
  | some a =>
    let r := a.pages.refillPool a.config grow
    (r.1.map fun _ => (), { s with arena := some { a with pages := r.2 } })

/-- `index_copy_` of the source's resident pages at the copy's slots. -/
def copyPages (c : ArenaConfig) (src dst : PageArena Page) : PageArena Page :=
  { dst with
    valueBase := ((List.range c.logicalPages).filterMap fun id =>
        match dst.pageTable id, src.pageTable id with
        | some slot, some slot' => some (slot, src.valueBase slot')
        | _, _ => none).foldl (fun base w => Function.update base w.1 w.2) dst.valueBase }

/-- `clone()`. -/
def clone (grow : Grow) (base : ℕ → Page) (s : RoLAState Page) : Except String (RoLAState Page) :=
  match s.shape with
  | none => .ok (new s.poolSlack)
  | some shape =>
    let out : RoLAState Page := { s with arena := none, plane := none }
    match s.arena with
    | none => .ok { out with plane := s.plane }
    | some a =>
      match newArena grow base shape a.widths a.BC s.poolSlack with
      | .error err => .error err
      | .ok b =>
        match planArena grow (some fun id => (a.pages.pageTable id).isSome) true b with
        | (.error err, _) => .error err
        | (.ok (), b) => .ok { out with arena := some { b with pages := copyPages a.config a.pages b.pages } }

/-! ### The bridge out -/

/-- `materialize()`, atom by atom. `rejoin` is what the arena's gather makes of a page, `raw` what the
dense plane's view shows of one. -/
def materialize {W : Type} (rejoin raw : Page → W) (s : RoLAState Page) : Option (List W) :=
  match s.arena with
  | some a => some ((List.range a.config.logicalPages).map fun id => rejoin (a.pages.gathered id))
  | none =>
    match s.plane, s.shape with
    | some plane, some shape =>
      some ((List.range (shape.B * shape.H * (shape.N >>> pageRectangleBits))).map fun id => raw (plane id))
    | _, _ => none

/-! ### Whole calls -/

/-- The pages a prefill kernel stores: one for each written atom the table maps. -/
def storeWritten (c : ArenaConfig) (bits : ℕ → Bool) (store : ℕ → Page) (s : PageArena Page) :
    PageArena Page :=
  { s with
    valueBase := ((List.range c.logicalPages).filterMap fun id =>
        if bits id then (s.pageTable id).map fun slot => (slot, store id) else none).foldl
      (fun base w => Function.update base w.1 w.2) s.valueBase }

/-- What a prefill leaves in the backing: the written atoms' pages, or the plane it wrote. -/
def afterPrefill (bits : Option (ℕ → Bool)) (store : ℕ → Page) (s : RoLAState Page) : RoLAState Page :=
  match s.arena, bits with
  | some a, some bits => { s with arena := some { a with pages := storeWritten a.config bits store a.pages } }
  | some _, none => s
  | none, _ => { s with plane := some store }

/-- A call on a state: a prefill, one launch of a decode step, a growth admission, a refill. -/
inductive Call (Page : Type) where
  | prefill (grow : Grow) (base : ℕ → Page) (routes : Routes) (bitmap : Option AtomBitmap) (dv : ℕ)
      (paging : Bool) (BC : ℕ) (store : ℕ → Page)
  | decode (routes : Routes) (launch : ∀ c, DecodeCall c Page) (plane : ℕ → Page)
  | admission (grow : Grow) (bitmap : AtomBitmap)
  | refill (grow : Grow)

/-- The state a call leaves, whether it returned or raised. -/
def exec (s : RoLAState Page) : Call Page → RoLAState Page
  | .prefill grow base routes bitmap dv paging BC store =>
    match s.kernelEntry grow base routes bitmap dv paging BC with
    | (.error _, s) => s
    | (.ok (), s) => s.afterPrefill (bitmap.map AtomBitmap.bits) store
  | .decode routes launch plane =>
    match s.decodeEntry routes, s.arena with
    | .error _, _ => s
    | .ok (), some a => { s with arena := some { a with pages := a.pages.decodeStep (launch a.config) } }
    | .ok (), none => { s with plane := some plane }
  | .admission grow bitmap => (s.decodeEntryArena grow bitmap).2
  | .refill grow => (s.refillPool grow).2

end RoLAState

end Rola
