import Mathlib.Data.Nat.Log
import Mathlib.Order.Lattice.Nat
import Rola.DecodeLattice
import Rola.Strided

/-!
# The walk of a decode step

`csrc/rola/src/decode/decode_lattice.cuh` and the walk of `decode_step_kernel`: the leaves read or
written are `D + 1` terms, each enumerated by the ranks of its live owners and digits, padded to
powers of two. A word of a mask is the function of its bits. Its `int`s stop at `2 ^ 31`: past it
nothing is defined, and the walk is `none`.
-/

namespace Rola

def intCeiling : ℕ := 2 ^ 31

/-- `kUnitBlockWarps`. -/
def unitBlockWarps : ℕ := 8

/-- `kUnitBlockWarpsBits`. -/
def unitBlockWarpsBits : ℕ := 3

/-- `kUnitRepeats`. -/
def unitRepeats : ℕ := 4

/-- `kDecodeWarps`. -/
def decodeWarps : ℕ := 32

/-- `mask_r` and `mask_w`: the digits of each level with an amplitude on each side. -/
structure Masks where
  r : ℕ → ℕ → Bool
  w : ℕ → ℕ → Bool

/-- The four digit sets of a level the terms are built from. -/
inductive Kind where
  | kindW
  | kindR
  | kindRW
  | kindRmW
deriving DecidableEq

def termKind (D term l : ℕ) : Kind :=
  if term = 0 ∨ D < term then .kindW
  else if l < term - 1 then .kindRW
  else if l = term - 1 then .kindRmW
  else .kindR

/-- `kind_bits`, bit by bit. -/
def Kind.bits : Kind → Bool → Bool → Bool
  | .kindW, _, w => w
  | .kindR, r, _ => r
  | .kindRW, r, w => r && w
  | .kindRmW, r, w => r && !w

/-- A level's digits of a kind. -/
def Masks.kind (m : Masks) (k : Kind) (l d : ℕ) : Bool := k.bits (m.r l d) (m.w l d)

/-! ### A level's rank field -/

def fieldPack (shift width count : ℕ) : ℕ := shift ||| (width <<< 5) ||| (count <<< 10)

def fieldShift (f : ℕ) : ℕ := f &&& 31

def fieldWidth (f : ℕ) : ℕ := (f >>> 5) &&& 31

def fieldCount (f : ℕ) : ℕ := f >>> 10

def fieldIndex (f rank : ℕ) : ℕ := (rank >>> fieldShift f) &&& ((1 <<< fieldWidth f) - 1)

/-- `Unit<D>`: a fixed digit at every level but the innermost, and there a run. -/
structure WalkUnit where
  base : ℕ
  valid : Bool
  liveR : Bool
  liveW : Bool
  digit : ℕ → ℕ
  dlast : ℕ
  cr : ℕ → Bool
  cw : ℕ → Bool

/-- One leaf of the walk, with the term that names it and its digits. -/
structure Visit where
  term : ℕ
  digit : ℕ → ℕ
  leaf : ℕ
  inR : Bool
  inW : Bool

/-- The leaf and the sides it is visited for. -/
def Visit.mark (v : Visit) : ℕ × Bool × Bool := (v.leaf, v.inR, v.inW)

namespace DecodeParams

variable (p : DecodeParams) (m : Masks)

/-! ### The factor tables -/

/-- `build_owner_mask`: whether an owner's span has a digit of the kind. -/
def ownerLive (k : Kind) (l o : ℕ) : Bool := (List.range (p.latS l)).any fun t => m.kind k l (o * p.latS l + t)

/-- `compact_owner_lists`: the live owners of a kind. -/
def olist (k : Kind) (l : ℕ) : List ℕ := (List.range (p.latG l)).filter (p.ownerLive m k l)

/-- `compact_owner_lists`: the write side's live digits. -/
def dlist (l : ℕ) : List ℕ := (List.range (p.levelWidth l)).filter (m.w l)

/-- What a term indexes a level by: the write term its live digits, but at the innermost level; every
other its kind's live owners. -/
def termList (term l : ℕ) : List ℕ :=
  if term = 0 ∧ l < p.D - 1 then p.dlist m l else p.olist m (termKind p.D term l) l

/-- `ceil_log2_dev` of a level's count. -/
def termWidth (term l : ℕ) : ℕ := Nat.clog 2 (p.termList m term l).length

/-- The bits of the levels inside this one. -/
def termShift (term l : ℕ) : ℕ := ∑ i ∈ Finset.Ico (l + 1) p.D, p.termWidth m term i

/-- `fld[l]`. -/
def field (term l : ℕ) : ℕ :=
  fieldPack (p.termShift m term l) (p.termWidth m term l) (p.termList m term l).length

/-- The exponent of a term's unit count. -/
def termBits (term : ℕ) : ℕ :=
  (∑ l ∈ Finset.range p.D, p.termWidth m term l) + if term = 0 then 0 else p.latOuterBits

/-- `term_layout`'s unit count: none of it where a level is empty. -/
def termUnits (term : ℕ) : Option ℕ :=
  if ∃ l < p.D, (p.termList m term l).length = 0 then some 0
  else if p.termBits m term < 31 then some (1 <<< p.termBits m term) else none

/-- `publish_term_layout` is defined: every term's count, the candidate slot's included. -/
def Published : Prop := ∀ t < p.D + 2, (p.termUnits m t).isSome

instance : Decidable (p.Published m) := inferInstanceAs (Decidable (∀ t < p.D + 2, _))

/-- `s_units`. -/
def units (term : ℕ) : ℕ := (p.termUnits m term).getD 0

/-- `s_umax`. -/
def umax : ℕ := (Finset.range (p.D + 1)).sup (p.units m)

/-! ### The resolvers -/

/-- The index a rank gives a level, or `0` where it is past the level's count. -/
def fieldEntry (term rank l : ℕ) : ℕ :=
  if fieldIndex (p.field m term l) rank < fieldCount (p.field m term l) then
    (p.termList m term l).getD (fieldIndex (p.field m term l) rank) 0
  else (p.termList m term l).getD 0 0

def fieldsValid (term rank : ℕ) : Bool :=
  decide (∀ l < p.D, fieldIndex (p.field m term l) rank < fieldCount (p.field m term l))

/-- `resolve_unit`, of a term past the write term. -/
def resolveUnit (term unit : ℕ) : WalkUnit :=
  let outer := unit &&& ((1 <<< p.latOuterBits) - 1)
  let rank := unit >>> p.latOuterBits
  let owner := p.fieldEntry m term rank
  let digit := fun l => owner l * p.latS l + ((outer >>> p.latOshift l) &&& (p.latS l - 1))
  let last := p.D - 1
  let runBase := owner last * p.latS last
  let liveKind := decide (∀ l < last, m.kind (termKind p.D term l) l (digit l) = true)
  let alive := p.fieldsValid m term rank && liveKind
  { base := ((∑ l ∈ Finset.range p.D, owner l * p.latGsuf l) <<< p.latLocalBits) + (outer <<< p.latInnerBits)
    valid := p.fieldsValid m term rank
    liveR := true
    liveW := false
    digit := digit
    dlast := runBase
    cr := fun t => alive && m.kind (termKind p.D term last) last (runBase + t)
    cw := fun _ => false }

/-- The warp-locality rotation of the write term's rank. -/
def rotate (unit : ℕ) : ℕ :=
  if 1 < p.D then
    let f := p.field m 0 (p.D - 2)
    let loBits := if fieldWidth f < unitBlockWarpsBits then fieldWidth f else unitBlockWarpsBits
    let mid := (unit >>> loBits) &&& ((1 <<< fieldShift f) - 1)
    let lo := unit &&& ((1 <<< loBits) - 1)
    let rest := unit >>> (loBits + fieldShift f)
    mid ||| (lo <<< fieldShift f) ||| (rest <<< (fieldShift f + loBits))
  else unit

/-- `resolve_write_unit`. -/
def resolveWriteUnit (unit : ℕ) : WalkUnit :=
  let rank := p.rotate m unit
  let entry := p.fieldEntry m 0 rank
  let last := p.D - 1
  let owner := (∑ l ∈ Finset.range last, (entry l >>> p.latSbits l) * p.latGsuf l) + entry last * p.latGsuf last
  let runs := ∑ l ∈ Finset.range last, (entry l &&& (p.latS l - 1)) <<< p.latRunShift l
  let runBase := entry last * p.latS last
  { base := (owner <<< p.latLocalBits) + runs
    valid := p.fieldsValid m 0 rank
    liveR := decide (∀ l < last, m.r l (entry l) = true)
    liveW := true
    digit := entry
    dlast := runBase
    cr := fun t => p.fieldsValid m 0 rank && m.r last (runBase + t)
    cw := fun t => p.fieldsValid m 0 rank && m.w last (runBase + t) }

/-- The unit the walk resolves. -/
def walkUnit (term unit : ℕ) : WalkUnit :=
  if term = 0 then p.resolveWriteUnit m unit else p.resolveUnit m term unit

/-! ### The loops -/

/-- A visited leaf of a unit: the place `t` of its run. -/
def visitAt (term : ℕ) (u : WalkUnit) (t : ℕ) : Visit :=
  { term := term
    digit := fun l => if l < p.D - 1 then u.digit l else u.dlast + t
    leaf := u.base + t
    inR := u.liveR && u.cr t
    inW := u.liveW && u.cw t }

/-- The places of a unit's run the term enumerates: the write run in the write term, else the read run. -/
def unitRun (term : ℕ) (u : WalkUnit) : List ℕ :=
  (List.range (p.latS (p.D - 1))).filter fun t => if term = 0 then u.liveW && u.cw t else u.liveR && u.cr t

/-- The body of the unit loop. -/
def unitVisits (term unit : ℕ) : Option (List Visit) :=
  let u := p.walkUnit m term unit
  if u.base < intCeiling then
    Strided.collect (fun t => if u.base + t < intCeiling then some [p.visitAt term u t] else none) (p.unitRun term u)
  else none

/-- The first unit of a warp. -/
def firstUnit (nSplit seg warp : ℕ) : ℕ :=
  seg * unitBlockWarps + (warp &&& (unitBlockWarps - 1)) +
    (warp >>> unitBlockWarpsBits) * (nSplit * unitBlockWarps)

/-- The unit loop of one warp over one term. -/
def unitLoop (nSplit seg warp term : ℕ) : Option (List ℕ) :=
  if firstUnit nSplit seg warp < intCeiling then
    Strided.loop intCeiling (nSplit * unitBlockWarps * unitRepeats) (p.units m term) (firstUnit nSplit seg warp)
  else none

/-- One warp, term by term. -/
def warpVisits (nSplit seg warp : ℕ) : Option (List Visit) :=
  Strided.collect (fun term => (p.unitLoop m nSplit seg warp term).bind (Strided.collect (p.unitVisits m term)))
    (List.range (p.D + 1))

/-- A segment past the realized work exits before it walks. -/
def retired (seg : ℕ) : Bool := decide (0 < seg ∧ p.umax m ≤ seg * unitBlockWarps)

/-- One CTA. -/
def ctaVisits (nSplit seg : ℕ) : Option (List Visit) :=
  if intCeiling ≤ seg * unitBlockWarps then none
  else if p.retired m seg then some []
  else Strided.collect (p.warpVisits m nSplit seg) (List.range decodeWarps)

/-- Every leaf the launch visits. -/
def walk (nSplit : ℕ) : Option (List Visit) :=
  if p.Published m then Strided.collect (p.ctaVisits m nSplit) (List.range nSplit) else none

/-! ### What it should visit -/

/-- The digits of a lattice index. -/
def latDigits (leaf l : ℕ) : ℕ :=
  MixedRadix.digit p.latG p.D (leaf / 2 ^ p.latLocalBits) l * p.latS l +
    MixedRadix.digit p.latS p.D (leaf % 2 ^ p.latLocalBits) l

/-- Whether each digit is in its level's set. -/
def inProduct (s : ℕ → ℕ → Bool) (d : ℕ → ℕ) : Bool := decide (∀ l < p.D, s l (d l) = true)

/-- The leaves of the read product or the write product, each once, with the sides it is in. -/
def touched : List (ℕ × Bool × Bool) :=
  (List.range p.N).filterMap fun leaf =>
    let r := p.inProduct m.r (p.latDigits leaf)
    let w := p.inProduct m.w (p.latDigits leaf)
    if r || w then some (leaf, r, w) else none

/-- The leaves of the write product. -/
def written : List ℕ := (List.range p.N).filter fun leaf => p.inProduct m.w (p.latDigits leaf)

end DecodeParams

end Rola
