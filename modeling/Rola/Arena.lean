import Rola.Extent
import Rola.Lattice
import Mathlib.Algebra.BigOperators.Group.Finset.Basic
import Mathlib.Data.Rat.Floor

/-!
# The page arena

`rola/ops/paging.py`, `PageArena`: one pool of pages behind every batch-head's page table, a slot
cursor that only a reset rewinds, and a slack pool of slots a decode step spends on the device
(`csrc/rola/src/decode/decode.cu`, the claim and its last-arriver fold). An atom id is
`bh * atoms_per_bh + atom`. An operation returns its outcome and the state it left, raised or not;
`Page` is what a slot holds.
-/

namespace Rola

structure ArenaConfig where
  BH : ℕ
  atomsPerBh : ℕ
  cols : ℕ
  extentAtoms : ℕ
  poolCapacity : ℕ
  extent_pos : 0 < extentAtoms
  pool_le : poolCapacity ≤ atomsPerBh

namespace ArenaConfig

/-- A configuration of numbers whose bounds evaluate. -/
def ofNats (BH atomsPerBh cols extentAtoms poolCapacity : ℕ)
    (h : (decide (0 < extentAtoms) && decide (poolCapacity ≤ atomsPerBh)) = true) : ArenaConfig :=
  ⟨BH, atomsPerBh, cols, extentAtoms, poolCapacity, of_decide_eq_true (Bool.and_eq_true_iff.1 h).1,
    of_decide_eq_true (Bool.and_eq_true_iff.1 h).2⟩

/-- `logical_pages`, the allocator's capacity: the dense limit. -/
def logicalPages (c : ArenaConfig) : ℕ := c.BH * c.atomsPerBh

def atomId (c : ArenaConfig) (bh a : ℕ) : ℕ := bh * c.atomsPerBh + a

/-- `ceil(pool_slack * atoms_per_bh)`. -/
def poolSlots (poolSlack : ℚ) (atomsPerBh : ℕ) : ℕ := ⌈poolSlack * atomsPerBh⌉.toNat

theorem poolSlots_le {poolSlack : ℚ} (h : poolSlack ≤ 1) (atomsPerBh : ℕ) :
    poolSlots poolSlack atomsPerBh ≤ atomsPerBh := by
  unfold poolSlots
  rw [Int.toNat_le, Int.ceil_le]
  push_cast
  exact mul_le_of_le_one_left (by positivity) h

/-- What `PageArena.__init__` checks of its policy. -/
def make (BH atomsPerBh cols extentAtoms : ℕ) (poolSlack : ℚ) : Except String ArenaConfig :=
  if hext : 0 < extentAtoms then
    if hslack : 0 ≤ poolSlack ∧ poolSlack ≤ 1 then
      .ok ⟨BH, atomsPerBh, cols, extentAtoms, poolSlots poolSlack atomsPerBh, hext,
        poolSlots_le hslack.2 _⟩
    else .error ("pool_slack is a FRACTION of full residency and must lie in [0, 1], got " ++
      toString poolSlack)
  else .error s!"extent_atoms must be >= 1, got {extentAtoms}"

end ArenaConfig

structure PageArena (Page : Type) where
  /-- `-1` is `none`. -/
  pageTable : ℕ → Option ℕ
  /-- `ExtentAllocator._next`. -/
  next : ℕ
  poolSlots : ℕ → ℕ → ℕ
  poolCursor : ℕ → ℕ
  poolMap : ℕ → Option ℕ
  valueBase : ℕ → Page
  peakPages : ℕ

/-- `_commit`: the VMM owner's `grow`, which may refuse; the dense bridge's never does. -/
abbrev Grow := ℕ → Except String Unit

def Grow.bridge : Grow := fun _ => .ok ()

/-- `atom_bitmap`, flattened, with the shape it was handed in. -/
structure AtomBitmap where
  BH : ℕ
  atoms : ℕ
  bits : ℕ → Bool

/-- The host's half of `PagingResult`. -/
structure PagingResult where
  allocatedPages : ℕ
  peakPages : ℕ
  realizedOwners : ℕ
  ownersTotal : ℕ
  allocatedBytes : ℕ
  denseBytes : ℕ
deriving DecidableEq

/-- What one launch of a decode step hands the arena: each batch-head's candidate atoms in the
launch's order, the batch-heads already done, and the page each written atom is left with. -/
structure DecodeCall (c : ArenaConfig) (Page : Type) where
  cand : ℕ → List ℕ
  nodup : ∀ bh, (cand bh).Nodup
  lt : ∀ bh, ∀ a ∈ cand bh, a < c.atomsPerBh
  done : ℕ → Bool
  store : ℕ → Page

namespace PageArena

variable {Page : Type} (c : ArenaConfig)

/-! ### Storage -/

/-- `value_base[first : first + count].zero_()`. -/
def zeroRun [Zero Page] (base : ℕ → Page) (first count : ℕ) : ℕ → Page :=
  fun slot => if first ≤ slot ∧ slot < first + count then 0 else base slot

/-- `_reserve_pool`. -/
def reservePool [Zero Page] (grow : Grow) (s : PageArena Page) : Except String Unit × PageArena Page :=
  if c.poolCapacity = 0 then (.ok (), s)
  else
    let total := c.BH * c.poolCapacity
    match admission s.next c.logicalPages c.extentAtoms total with
    | .error err => (.error err, s)
    | .ok first =>
      let s := { s with next := first + total }
      match grow s.next with
      | .error err => (.error err, s)
      | .ok () =>
        (.ok (), { s with
          valueBase := zeroRun s.valueBase first total
          poolSlots := fun bh i => first + bh * c.poolCapacity + i
          poolCursor := fun _ => 0
          peakPages := max s.peakPages s.next })

/-- `_allocate`: an empty table and shadow row over storage that holds anything. -/
def allocate [Zero Page] (grow : Grow) (base : ℕ → Page) : Except String Unit × PageArena Page :=
  reservePool c grow
    { pageTable := fun _ => none
      next := 0
      poolSlots := fun _ _ => 0
      poolCursor := fun _ => 0
      poolMap := fun _ => none
      valueBase := base
      peakPages := 0 }

/-- `reset`. The storage and the shadow row are left as they are. -/
def reset [Zero Page] (grow : Grow) (s : PageArena Page) : Except String Unit × PageArena Page :=
  reservePool c grow { s with pageTable := fun _ => none, next := 0, peakPages := 0 }

/-! ### Planning -/

/-- The atoms a bitmap wants that the table does not map, ascending. -/
def wantedIds (s : PageArena Page) (bits : ℕ → Bool) : List ℕ :=
  (List.range c.logicalPages).filter fun id => bits id && (s.pageTable id).isNone

/-- `_admit_pages`: the table's scatter and the zero-init. -/
def admitPages [Zero Page] (ids : List ℕ) (first : ℕ) (s : PageArena Page) : PageArena Page :=
  { s with
    pageTable := fun id => if id ∈ ids then some (first + ids.idxOf id) else s.pageTable id
    valueBase := zeroRun s.valueBase first ids.length }

/-- `plan_exact`, past the reset and the shape check. -/
def planWanted [Zero Page] (grow : Grow) (bits : ℕ → Bool) (s : PageArena Page) :
    Except String PagingResult × PageArena Page :=
  let ids := wantedIds c s bits
  match admission s.next c.logicalPages c.extentAtoms ids.length with
  | .error err => (.error err, s)
  | .ok first =>
    let s := { s with next := first + ids.length }
    match grow s.next with
    | .error err => (.error err, s)
    | .ok () =>
      let s := admitPages ids first s
      let s := { s with peakPages := max s.peakPages s.next }
      (.ok
        { allocatedPages := s.next
          peakPages := s.peakPages
          realizedOwners := (List.range c.logicalPages).countP bits
          ownersTotal := c.atomsPerBh
          allocatedBytes := s.next * mmaKQuantum * c.cols * 4
          denseBytes := c.logicalPages * mmaKQuantum * c.cols * 4 }, s)

def planExact [Zero Page] (grow : Grow) (bitmap : AtomBitmap) (fresh : Bool) (s : PageArena Page) :
    Except String PagingResult × PageArena Page :=
  match (if fresh then reset c grow s else (.ok (), s)) with
  | (.error err, s) => (.error err, s)
  | (.ok (), s) =>
    if (bitmap.BH, bitmap.atoms) ≠ (c.BH, c.atomsPerBh) then
      (.error (s!"the atom condensation must be ({c.BH}, {c.atomsPerBh}) (the derived atom " ++
        s!"granularity); got ({bitmap.BH}, {bitmap.atoms})"), s)
    else planWanted c grow bitmap.bits s

/-- The page `materialize` gathers for an atom: zero where the table maps none. -/
def gathered [Zero Page] (s : PageArena Page) (id : ℕ) : Page :=
  match s.pageTable id with
  | some slot => s.valueBase slot
  | none => 0

/-! ### The slack pool -/

/-- `pool_slots` once the batch-heads below `upTo` have had their spent positions replaced. -/
def refilledSlots (s : PageArena Page) (first upTo bh i : ℕ) : ℕ :=
  if bh < upTo ∧ i < s.poolCursor bh then first + ∑ b ∈ Finset.range bh, s.poolCursor b + i
  else s.poolSlots bh i

/-- `refill_pool`. A batch-head past its capacity is a slice assignment of the wrong length. -/
def refillPool [Zero Page] (grow : Grow) (s : PageArena Page) : Except String ℕ × PageArena Page :=
  if c.poolCapacity = 0 then (.ok 0, s)
  else
    let total := ∑ bh ∈ Finset.range c.BH, s.poolCursor bh
    if total = 0 then (.ok 0, s)
    else match admission s.next c.logicalPages c.extentAtoms total with
      | .error err => (.error err, s)
      | .ok first =>
        let s := { s with next := first + total }
        match grow s.next with
        | .error err => (.error err, s)
        | .ok () =>
          let s := { s with valueBase := zeroRun s.valueBase first total }
          match (List.range c.BH).find? fun bh => c.poolCapacity < s.poolCursor bh with
          | some bh => (.error "the expanded size of the tensor must match the existing size",
              { s with poolSlots := s.refilledSlots first bh })
          | none => (.ok total, { s with
              poolSlots := s.refilledSlots first c.BH
              poolCursor := fun _ => 0
              peakPages := max s.peakPages s.next })

/-! ### One launch of a decode step -/

section Decode

variable {c} (call : DecodeCall c Page) (s : PageArena Page)

/-- The batch-head's written atoms the table does not map, in the launch's order. -/
def wanted (bh : ℕ) : List ℕ :=
  (call.cand bh).filter fun a => (s.pageTable (c.atomId bh a)).isNone

def demand (bh : ℕ) : ℕ := (s.wanted call bh).length

def claimed (bh : ℕ) : Bool :=
  !call.done bh && (0 < s.demand call bh && s.poolCursor bh + s.demand call bh ≤ c.poolCapacity)

def needy (bh : ℕ) : Bool := !call.done bh && (0 < s.demand call bh && !s.claimed call bh)

/-- The claim: a wanted atom's rank is its place in the launch's order. -/
def claimRow (bh a : ℕ) : Option ℕ :=
  if s.claimed call bh ∧ a ∈ s.wanted call bh then
    some (s.poolSlots bh (s.poolCursor bh + (s.wanted call bh).idxOf a))
  else s.poolMap (c.atomId bh a)

/-- The last arriver's fold of one atom: the shadow row fills what the table does not map. -/
def foldRow (bh a : ℕ) : Option ℕ :=
  if s.claimed call bh then (s.pageTable (c.atomId bh a)).or (s.claimRow call bh a)
  else s.pageTable (c.atomId bh a)

def folded (bh : ℕ) : ℕ :=
  (List.range c.atomsPerBh).countP fun a =>
    (s.claimRow call bh a).isSome && (s.pageTable (c.atomId bh a)).isNone

/-- A batch-head deposits unless it is needy, or was done by an earlier launch. -/
def deposits (bh : ℕ) : Bool := !call.done bh && !s.needy call bh

/-- The pages the launch stores: each written atom's, at its slot. -/
def stores : List (ℕ × Page) :=
  (List.range c.BH).flatMap fun bh =>
    if s.deposits call bh then
      (call.cand bh).filterMap fun a =>
        (s.foldRow call bh a).map fun slot => (slot, call.store (c.atomId bh a))
    else []

def decodeStep : PageArena Page :=
  { s with
    pageTable := fun id => s.foldRow call (id / c.atomsPerBh) (id % c.atomsPerBh)
    poolMap := fun id => s.claimRow call (id / c.atomsPerBh) (id % c.atomsPerBh)
    poolCursor := fun bh => s.poolCursor bh + if s.claimed call bh then s.folded call bh else 0
    valueBase := (s.stores call).foldl (fun base w => Function.update base w.1 w.2) s.valueBase }

/-- The atoms of a batch-head the launch newly writes. -/
def newlyWritten (bh : ℕ) : ℕ := if s.deposits call bh then s.demand call bh else 0

end Decode

/-! ### The arena as a machine -/

inductive Op (c : ArenaConfig) (Page : Type) where
  | planExact (grow : Grow) (bits : ℕ → Bool) (fresh : Bool)
  | decode (call : DecodeCall c Page)
  | refillPool (grow : Grow)
  | reset (grow : Grow)

/-- A bitmap of the arena's own shape. -/
def ownBitmap (bits : ℕ → Bool) : AtomBitmap := ⟨c.BH, c.atomsPerBh, bits⟩

variable {c}

def exec [Zero Page] (s : PageArena Page) : Op c Page → Except String Unit × PageArena Page
  | .planExact grow bits fresh =>
    let r := planExact c grow (ownBitmap c bits) fresh s
    (r.1.map fun _ => (), r.2)
  | .decode call => (.ok (), s.decodeStep call)
  | .refillPool grow =>
    let r := refillPool c grow s
    (r.1.map fun _ => (), r.2)
  | .reset grow => reset c grow s

/-- The state after an operation that does not raise. -/
def step [Zero Page] (s : PageArena Page) (op : Op c Page) : Option (PageArena Page) :=
  match s.exec op with
  | (.ok (), s') => some s'
  | (.error _, _) => none

section Step

variable [Zero Page] {s s' : PageArena Page} {grow : Grow}

theorem step_planExact {bits : ℕ → Bool} {fresh : Bool} :
    s.step (.planExact grow bits fresh : Op c Page) = some s' ↔
      ∃ res, planExact c grow (ownBitmap c bits) fresh s = (.ok res, s') := by
  unfold step exec
  rcases h : planExact c grow (ownBitmap c bits) fresh s with ⟨_ | res, t⟩ <;> simp [h, Except.map]

theorem step_decode {call : DecodeCall c Page} :
    s.step (.decode call : Op c Page) = some s' ↔ s.decodeStep call = s' := by
  simp [step, exec]

theorem step_refillPool :
    s.step (.refillPool grow : Op c Page) = some s' ↔ ∃ n, refillPool c grow s = (.ok n, s') := by
  unfold step exec
  rcases h : refillPool c grow s with ⟨_ | n, t⟩ <;> simp [h, Except.map]

theorem step_reset : s.step (.reset grow : Op c Page) = some s' ↔ reset c grow s = (.ok (), s') := by
  unfold step exec
  rcases h : reset c grow s with ⟨_ | _, t⟩ <;> simp [h]

end Step

/-- A freshly constructed arena. -/
def Fresh [Zero Page] (c : ArenaConfig) (s : PageArena Page) : Prop :=
  ∃ grow base, allocate c grow base = (.ok (), s)

end PageArena

end Rola
