import Rola.Lattice

/-!
# The carry's addressing block

`csrc/rola/src/common/geom.cuh`: the owner box of `BC` leaves is spread over the levels, each side
carves it into its streams, and `derive_carry_geom` fills the block or returns the refusal's words.
`csrc/rola/src/carry/layout.cuh`: a side's leaves in its own carve order. Per-level arrays are
functions read below the depth; the fixed values past it are not modelled.
-/

namespace Rola

/-- `kGeomMaxLevels`. -/
def geomMaxLevels : ℕ := 4

/-- `kGeomMaxSubBoxes`. -/
def geomMaxSubBoxes : ℕ := 12

/-- `kAtomLeavesBits`. -/
def atomLeavesBits : ℕ := 4

/-- `regs_per_sm`, on every tabulated arch. -/
def regsPerSm : ℕ := 65536

def warpsPerSm : ℕ := 8

def leavesPerWarp (dv : ℕ) : ℕ := regsPerSm / 4 / dv / warpsPerSm

/-- `geom_ilog2`, where a refusal has been made impossible. -/
def ilog2 (x : ℕ) : ℕ := (ilog2Exact x).getD 0

@[simp] theorem ilog2_two_pow (e : ℕ) : ilog2 (2 ^ e) = e := by simp [ilog2]

/-! ### The owner box -/

/-- The remainder of the bits goes to the innermost levels. -/
def balancedBits (bits D l : ℕ) : ℕ := bits / D + if D - bits % D ≤ l then 1 else 0

/-- The innermost level never goes below the page rectangle. -/
def floorBits (D l : ℕ) : ℕ := if l = D - 1 then atomLeavesBits else 0

/-- `pick`: the first of the widest levels above its floor. -/
def pickLevel (D : ℕ) (b : ℕ → ℕ) : Option ℕ :=
  (List.range D).foldl (fun pick i =>
    if floorBits D i < b i ∧ pick.all (fun q => b q < b i) then some i else pick) none

/-- `while (sum > total)`: one bit leaves the picked level, until `excess` of them have. -/
def shrinkSpans (D : ℕ) : ℕ → (ℕ → ℕ) → ℕ → ℕ
  | 0, b => b
  | excess + 1, b =>
    match pickLevel D b with
    | none => b
    | some i => shrinkSpans D excess (Function.update b i (b i - 1))

def ownerSpanBits (D bc : ℕ) : ℕ → ℕ :=
  let b := fun i => max (balancedBits (ilog2 bc) D i) (floorBits D i)
  shrinkSpans D (∑ i ∈ Finset.range D, b i - ilog2 bc) b

def ownerSpan (D bc l : ℕ) : ℕ := 1 <<< ownerSpanBits D bc l

def ownerRunShift (D bc l : ℕ) : ℕ := ∑ i ∈ Finset.Ico (l + 1) D, ownerSpanBits D bc i

/-! ### A side's carve -/

/-- One level of the carve: what it gives of the `want` bits, never below its floor. -/
def carveStep (D : ℕ) (st : (ℕ → ℕ) × ℕ) (l : ℕ) : (ℕ → ℕ) × ℕ :=
  let take := min (st.1 l - floorBits D l) st.2
  (Function.update st.1 l (st.1 l - take), st.2 - take)

def carveSubBits (D bc ns : ℕ) (outerOrder : ℕ → ℕ) : ℕ → ℕ :=
  (((List.range D).map outerOrder).foldl (carveStep D) (ownerSpanBits D bc, ilog2 ns)).1

/-- The level order of Lehmer code `rem`. -/
def levelOrder : ℕ → List ℕ → ℕ → List ℕ
  | 0, _, _ => []
  | avail + 1, pool, rem =>
    let idx := rem / avail.factorial
    pool.getD idx 0 :: levelOrder avail (pool.eraseIdx idx) (rem % avail.factorial)

/-- `sub_boxes`: the carve over every level order, without repeats. -/
def subBoxes (D boxLeaves workers : ℕ) : List (List ℕ) :=
  (List.range D.factorial).foldl (fun set code =>
    let order := levelOrder D [0, 1, 2, 3] code
    let bits := (List.range D).map (carveSubBits D boxLeaves workers fun p => order.getD p 0)
    if bits ∉ set ∧ set.length < geomMaxSubBoxes then set ++ [bits] else set) []

def sbShift (D : ℕ) (bits : List ℕ) (l : ℕ) : ℕ := ∑ i ∈ Finset.Ico (l + 1) D, bits.getD i 0

/-- One side's carve, indexed by level except `levelAt`, which inverts the order. -/
structure SideGeom where
  levelAt : ℕ → ℕ
  rank : ℕ → ℕ
  grid : ℕ → ℕ
  gridDiv : ℕ → ℕ
  gridDivBits : ℕ → ℕ
  gridBits : ℕ → ℕ
  assign : ℕ
  subBits : ℕ → ℕ
  subShift : ℕ → ℕ
  rowSpan : ℕ → ℕ
  rowG : ℕ → ℕ
  rowPrefix : ℕ → ℕ
  rows : ℕ
  leaf : ℕ
  streams : ℕ

/-- The carve order names each level once. -/
def RanksEachOnce (D : ℕ) (levelAt : ℕ → ℕ) : Prop :=
  ∀ r < D, levelAt r < D ∧ ∀ r' < r, levelAt r' ≠ levelAt r

instance (D : ℕ) (levelAt : ℕ → ℕ) : Decidable (RanksEachOnce D levelAt) :=
  inferInstanceAs (Decidable (∀ r < D, _))

/-- `rank`: the place of a level in the order. -/
def rankOfLevel (D : ℕ) (levelAt : ℕ → ℕ) (l : ℕ) : ℕ := ((List.range D).map levelAt).idxOf l

def gridRefusal (span grid rowSpan : ℕ → ℕ) (l : ℕ) : Option String :=
  if grid l < 1 ∨ grid l * rowSpan l ≠ span l then
    some "the warp sub-box does not divide the owner's box at some level"
  else if ilog2Exact (grid l) = none then some "a side's stream grid must be a power of two"
  else none

def deriveSide (D : ℕ) (width span : ℕ → ℕ) (bc : ℕ) (levelAt : ℕ → ℕ) (NS : ℕ) :
    Except String SideGeom :=
  if ilog2Exact NS = none then .error "a side's stream count is a power of two"
  else if ¬ RanksEachOnce D levelAt then
    .error "a side's carve order must rank each of its levels exactly once"
  else
    let subBits := carveSubBits D bc NS fun p => levelAt (D - 1 - p)
    if ∑ l ∈ Finset.range D, (ownerSpanBits D bc l - subBits l) ≠ ilog2 NS then
      .error ("this carve order cannot reach the side's stream count without dividing the " ++
        "innermost level below the page rectangle")
    else
      let shape := (List.range D).map subBits
      match (subBoxes D bc NS).idxOf? shape with
      | none => .error "this side's carved sub-box is not a member of the generated set"
      | some assign =>
        let grid := fun l => span l / 2 ^ subBits l
        let rowSpan := fun l => if grid l = 0 then 0 else span l / grid l
        match (List.range D).findSome? (gridRefusal span grid rowSpan) with
        | some err => .error err
        | none =>
          let rank := rankOfLevel D levelAt
          let gridDiv := fun l => ∏ r ∈ Finset.range (rank l), grid (levelAt r)
          let rowG := fun l => if rowSpan l < width l then width l / rowSpan l else 0
          if ∏ l ∈ Finset.range D, grid l ≠ NS then
            .error "the stream grid does not partition the owner's box"
          else if (List.range D).any fun r => ilog2Exact (gridDiv (levelAt r)) = none then
            .error "a side's stream grid must be a power of two"
          else .ok
            { levelAt := levelAt
              rank := rank
              grid := grid
              gridDiv := gridDiv
              gridDivBits := fun l => ilog2 (gridDiv l)
              gridBits := fun l => ilog2 (grid l)
              assign := assign
              subBits := subBits
              subShift := sbShift D shape
              rowSpan := rowSpan
              rowG := rowG
              rowPrefix := fun l => ∑ i ∈ Finset.range l, rowG i
              rows := ∑ l ∈ Finset.range D, rowG l
              leaf := ∏ l ∈ Finset.range D, rowSpan l
              streams := ∏ l ∈ Finset.range D, grid l }

/-! ### The block -/

/-- `CarryGeomRT`. -/
structure CarryGeom where
  D : ℕ
  bc : ℕ
  width : ℕ → ℕ
  span : ℕ → ℕ
  grid : ℕ → ℕ
  colBase : ℕ → ℕ
  runShift : ℕ → ℕ
  ownerDiv : ℕ → ℕ
  weight : ℕ → ℕ
  wtot : ℕ
  owners : ℕ
  leaves : ℕ
  localBits : ℕ
  r : SideGeom
  w : SideGeom
  identityMap : Bool
  spanBits : ℕ → ℕ
  gridBits : ℕ → ℕ
  ownerDivBits : ℕ → ℕ

/-- `CarveOrder`: each side's levels by rank, rank 0 innermost. -/
structure CarveOrder where
  read : ℕ → ℕ
  write : ℕ → ℕ

/-- The largest leaf count the id space holds. -/
def maxLeaves : ℕ := 0x40000000

def widthRefusal (width span : ℕ → ℕ) (l : ℕ) : Option String :=
  if ilog2Exact (width l) = none then some "every level width must be a power of two"
  else if width l < span l then some "a level is narrower than the owner box's span there"
  else none

def deriveCarryGeom (D : ℕ) (width : ℕ → ℕ) (bc dv : ℕ) (order : CarveOrder) (NSR NSW : ℕ) :
    Except String CarryGeom :=
  if ¬ (1 ≤ D ∧ D ≤ geomMaxLevels) then .error "the addressing block is built to depth four"
  else if ilog2Exact bc = none then .error "BC must be a power of two"
  else if ilog2Exact dv = none ∨ dv % 16 ≠ 0 then
    .error "the value width is a power of two, sixteen up"
  else if leavesPerWarp dv < 1 then .error "the value width admits no leaves per warp"
  else
    let span := ownerSpan D bc
    match (List.range D).findSome? (widthRefusal width span) with
    | some err => .error err
    | none =>
      let grid := fun l => width l / span l
      let localBits := ∑ l ∈ Finset.range D, ownerSpanBits D bc l
      let ownerDiv := MixedRadix.weight grid D
      if localBits ≠ ilog2 bc then .error "the owner box's spans do not multiply to BC"
      else if maxLeaves < MixedRadix.size width D then
        .error "the topology's leaf count does not fit the id space"
      else if (List.range D).any fun l => ilog2Exact (ownerDiv l) = none ∨ ilog2Exact (grid l) = none then
        .error "the owner grid must be a power of two"
      else match deriveSide D width span bc order.read NSR with
        | .error err => .error err
        | .ok r =>
          match deriveSide D width span bc order.write NSW with
          | .error err => .error err
          | .ok w => .ok
              { D := D
                bc := bc
                width := width
                span := span
                grid := grid
                colBase := fun l => ∑ i ∈ Finset.range l, width i
                runShift := ownerRunShift D bc
                ownerDiv := ownerDiv
                weight := MixedRadix.weight width D
                wtot := ∑ l ∈ Finset.range D, width l
                owners := MixedRadix.size grid D
                leaves := MixedRadix.size width D
                localBits := localBits
                r := r
                w := w
                identityMap := r.assign = w.assign ∧
                  (List.range D).all fun l => r.grid l ≤ 1 ∨ r.gridDivBits l = w.gridDivBits l
                spanBits := ownerSpanBits D bc
                gridBits := fun l => ilog2 (grid l)
                ownerDivBits := fun l => ilog2 (ownerDiv l) }

/-! ### A leaf's digits and its canonical index -/

/-- `geom_digit`: the absolute digit of level `l` for owner `O`'s local slot. -/
def geomDigit (g : CarryGeom) (O loc l : ℕ) : ℕ :=
  (((O >>> g.ownerDivBits l) &&& (g.grid l - 1)) <<< ownerSpanBits g.D g.bc l) +
    ((loc >>> ownerRunShift g.D g.bc l) &&& (ownerSpan g.D g.bc l - 1))

/-- `geom_canon_leaf_t`. -/
def geomCanonLeaf (g : CarryGeom) (O loc : ℕ) : ℕ :=
  ∑ l ∈ Finset.range g.D, geomDigit g O loc l * g.weight l

/-- `SideLayout`: where a side-order leaf's digits sit, and where they go in the owner's local index. -/
structure SideLayout where
  shift : ℕ → ℕ
  bits : ℕ → ℕ
  dmask : ℕ → ℕ
  rshift : ℕ → ℕ
  lshift : ℕ → ℕ

def makeSideLayout (D bc : ℕ) (srank rrank : ℕ → ℕ) : SideLayout :=
  let below := fun (rank : ℕ → ℕ) l =>
    ∑ m ∈ (Finset.range D).filter (fun m => rank m < rank l), ownerSpanBits D bc m
  { shift := below srank
    bits := ownerSpanBits D bc
    dmask := fun l => (1 <<< ownerSpanBits D bc l) - 1
    rshift := below rrank
    lshift := ownerRunShift D bc }

/-- `SideLayout.local`: the owner-local canonical index of this side's leaf `v`, its page and row. -/
def SideLayout.local (L : SideLayout) (D v : ℕ) : ℕ :=
  ∑ l ∈ Finset.range D, ((v >>> L.shift l) &&& L.dmask l) <<< L.lshift l

/-- The page-table column and the row inside the page of owner `O`'s write-order leaf `v`. -/
def carryPlace (g : CarryGeom) (O v : ℕ) : ℤ × ℤ :=
  let loc := (makeSideLayout g.D g.bc g.w.rank g.r.rank).local g.D v
  let atom := loc >>> atomLeavesBits
  (geomCanonLeaf g O (atom * mmaKQuantum) >>> atomLeavesBits, loc &&& (mmaKQuantum - 1))

end Rola
