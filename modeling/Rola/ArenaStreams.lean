import Rola.ArenaContents
import Rola.Streams

/-!
# The arena on two streams

`rola/ops/paging.py`: planning, reset, refill and materialize issue on the caller's stream, admission
on the arena's side stream, which waits for the caller's. The caller's waits for the side stream only
at `wait()`, which `reset` calls and `plan_exact(fresh=False)` and `materialize` do not.
-/

namespace Rola

open Streams

namespace PageArena

variable {Page : Type}

/-- The device's memory: the arena's tensors, the buffers a host read sees, and what was read out. -/
structure Device (Page : Type) where
  pageTable : ℕ → Option ℕ
  valueBase : ℕ → Page
  poolSlots : ℕ → ℕ → ℕ
  poolCursor : ℕ → ℕ
  /-- `wanted.nonzero()`. -/
  wanted : List ℕ
  /-- `_cursor_host`. -/
  spent : ℕ → ℕ
  /-- `materialize`'s two reads of the table: what it maps, and the slots to gather from. -/
  present : ℕ → Bool
  index : ℕ → ℕ
  outputs : List (List Page)

inductive DeviceOp where
  | fillTable
  | writeTable (ids : List ℕ) (first : ℕ)
  | zeroSlots (first count : ℕ)
  | writePool (first : ℕ)
  | refillSlots (spent : ℕ → ℕ) (first upTo : ℕ)
  | zeroCursor
  | readWanted (bits : ℕ → Bool)
  | readCursor
  | readPresent
  | readIndex
  | gather
  | readPages

def DeviceOp.apply [Zero Page] (c : ArenaConfig) : DeviceOp → Device Page → Device Page
  | .fillTable, m => { m with pageTable := fun _ => none }
  | .writeTable ids first, m => { m with
      pageTable := fun id => if id ∈ ids then some (first + ids.idxOf id) else m.pageTable id }
  | .zeroSlots first count, m => { m with valueBase := zeroRun m.valueBase first count }
  | .writePool first, m => { m with poolSlots := fun bh i => first + bh * c.poolCapacity + i }
  | .refillSlots spent first upTo, m => { m with
      poolSlots := fun bh i =>
        if bh < upTo ∧ i < spent bh then first + ∑ b ∈ Finset.range bh, spent b + i
        else m.poolSlots bh i }
  | .zeroCursor, m => { m with poolCursor := fun _ => 0 }
  | .readWanted bits, m => { m with
      wanted := (List.range c.logicalPages).filter fun id => bits id && (m.pageTable id).isNone }
  | .readCursor, m => { m with spent := m.poolCursor }
  | .readPresent, m => { m with present := fun id => (m.pageTable id).isSome }
  | .readIndex, m => { m with index := fun id => (m.pageTable id).getD 0 }
  | .gather, m => { m with
      outputs := m.outputs ++ [(List.range c.logicalPages).map fun id =>
        if m.present id then m.valueBase (m.index id) else 0] }
  | .readPages, m => { m with
      outputs := m.outputs ++ [(List.range c.logicalPages).map fun id =>
        match m.pageTable id with
        | some slot => m.valueBase slot
        | none => 0] }

/-- What a host read sees. -/
structure Seen where
  wanted : List ℕ
  spent : ℕ → ℕ

def Device.observe (m : Device Page) : Seen := ⟨m.wanted, m.spent⟩

/-- The host's half of an arena, and how its calls came out. -/
structure Host where
  next : ℕ
  peakPages : ℕ
  outcomes : List (Except String Unit)

abbrev HostProg := Prog DeviceOp Seen Host

/-- A call's outcome, kept by the host. -/
def Host.ends (h : Host) (out : Except String Unit) : Host := { h with outcomes := h.outcomes ++ [out] }

/-! ### The calls, as the host issues them -/

section Issue

variable (c : ArenaConfig) (grow : Grow)

/-- `_reserve_pool`. -/
def reserveProg (h : Host) (k : Host → Except String Unit → HostProg) : HostProg :=
  if c.poolCapacity = 0 then k h (.ok ())
  else
    let total := c.BH * c.poolCapacity
    match admission h.next c.logicalPages c.extentAtoms total with
    | .error err => k h (.error err)
    | .ok first =>
      let h := { h with next := first + total }
      match grow h.next with
      | .error err => k h (.error err)
      | .ok () =>
        .enq .caller (.zeroSlots first total) (.enq .caller (.writePool first) (.enq .caller .zeroCursor
          (k { h with peakPages := max h.peakPages h.next } (.ok ()))))

/-- `reset`. -/
def resetProg (h : Host) (k : Host → Except String Unit → HostProg) : HostProg :=
  .waitEvent (.enq .caller .fillTable (.clear
    (reserveProg c grow { h with next := 0, peakPages := 0 } k)))

/-- `_admit_pages`. -/
def admitProg (ids : List ℕ) (first : ℕ) (k : HostProg) : HostProg :=
  .waitStream (if ids.length = 0 then k
    else .enq .side (.writeTable ids first) (.enq .side (.zeroSlots first ids.length) k))

/-- `plan_exact`, past its host read of the atoms to admit. -/
def takeProg (ids : List ℕ) (h : Host) (k : Host → Except String Unit → HostProg) : HostProg :=
  match admission h.next c.logicalPages c.extentAtoms ids.length with
  | .error err => k h (.error err)
  | .ok first =>
    let h := { h with next := first + ids.length }
    match grow h.next with
    | .error err => k h (.error err)
    | .ok () => admitProg ids first (.record (k { h with peakPages := max h.peakPages h.next } (.ok ())))

/-- `plan_exact`, past the reset and the shape check. -/
def wantedProg (bits : ℕ → Bool) (h : Host) (k : Host → Except String Unit → HostProg) : HostProg :=
  .enq .caller (.readWanted bits) (.sync fun seen => takeProg c grow seen.wanted h k)

def shapeText (bitmap : AtomBitmap) : String :=
  s!"the atom condensation must be ({c.BH}, {c.atomsPerBh}) (the derived atom " ++
    s!"granularity); got ({bitmap.BH}, {bitmap.atoms})"

/-- `plan_exact`, past the reset. -/
def checkedProg (bitmap : AtomBitmap) (h : Host) (k : Host → Except String Unit → HostProg) : HostProg :=
  if (bitmap.BH, bitmap.atoms) ≠ (c.BH, c.atomsPerBh) then k h (.error (shapeText c bitmap))
  else wantedProg c grow bitmap.bits h k

/-- `plan_exact`. -/
def planProg (bitmap : AtomBitmap) (fresh : Bool) (h : Host) (k : Host → Except String Unit → HostProg) :
    HostProg :=
  if fresh then resetProg c grow h fun h out =>
    match out with
    | .error err => k h (.error err)
    | .ok () => checkedProg c grow bitmap h k
  else checkedProg c grow bitmap h k

/-- `refill_pool`, past its host read of the cursors. -/
def spentProg (spent : ℕ → ℕ) (h : Host) (k : Host → Except String Unit → HostProg) : HostProg :=
  let total := ∑ bh ∈ Finset.range c.BH, spent bh
  if total = 0 then k h (.ok ())
  else match admission h.next c.logicalPages c.extentAtoms total with
    | .error err => k h (.error err)
    | .ok first =>
      let h := { h with next := first + total }
      match grow h.next with
      | .error err => k h (.error err)
      | .ok () => .enq .caller (.zeroSlots first total)
          (match (List.range c.BH).find? fun bh => c.poolCapacity < spent bh with
          | some bh => .enq .caller (.refillSlots spent first bh)
              (k h (.error "the expanded size of the tensor must match the existing size"))
          | none => .enq .caller (.refillSlots spent first c.BH) (.enq .caller .zeroCursor
              (k { h with peakPages := max h.peakPages h.next } (.ok ()))))

/-- `refill_pool`. -/
def refillProg (h : Host) (k : Host → Except String Unit → HostProg) : HostProg :=
  if c.poolCapacity = 0 then k h (.ok ())
  else .enq .caller .readCursor (.sync fun seen => spentProg c grow seen.spent h k)

end Issue

inductive ArenaCall where
  | planExact (grow : Grow) (bitmap : AtomBitmap) (fresh : Bool)
  | reset (grow : Grow)
  | refillPool (grow : Grow)
  | materialize
  /-- A consumer's read of the pages, after `wait()`. -/
  | consume

def callProg (c : ArenaConfig) (h : Host) (k : Host → HostProg) : ArenaCall → HostProg
  | .planExact grow bitmap fresh => planProg c grow bitmap fresh h fun h out => k (h.ends out)
  | .reset grow => resetProg c grow h fun h out => k (h.ends out)
  | .refillPool grow => refillProg c grow h fun h out => k (h.ends out)
  | .materialize =>
    .enq .caller .readPresent (.enq .caller .readIndex (.enq .caller .gather (.sync fun _ => k h)))
  | .consume => .waitEvent (.enq .caller .readPages (k h))

def callsProg (c : ArenaConfig) : Host → List ArenaCall → HostProg
  | h, [] => .ret h
  | h, call :: cs => callProg c h (fun h => callsProg c h cs) call

/-! ### The calls, one after the other -/

/-- An arena, the outcomes of the calls made on it, and the pages read out of it. -/
structure Served (Page : Type) where
  arena : PageArena Page
  outcomes : List (Except String Unit)
  outputs : List (List Page)

def Served.call [Zero Page] (c : ArenaConfig) (q : Served Page) : ArenaCall → Served Page
  | .planExact grow bitmap fresh =>
    let r := PageArena.planExact c grow bitmap fresh q.arena
    { q with arena := r.2, outcomes := q.outcomes ++ [r.1.map fun _ => ()] }
  | .reset grow =>
    let r := PageArena.reset c grow q.arena
    { q with arena := r.2, outcomes := q.outcomes ++ [r.1] }
  | .refillPool grow =>
    let r := PageArena.refillPool c grow q.arena
    { q with arena := r.2, outcomes := q.outcomes ++ [r.1.map fun _ => ()] }
  | .materialize => { q with outputs := q.outputs ++ [(List.range c.logicalPages).map q.arena.gathered] }
  | .consume => { q with outputs := q.outputs ++ [(List.range c.logicalPages).map q.arena.gathered] }

end PageArena

end Rola
